import JavaMinus.Proofs.Lowering.Breaches
import JavaMinus.Proofs.Lowering.Shapes

/-!
# Packing the arguments of a call

The arguments in the place of a vararg are packed into a new array by one
allocation and one store for each of them.  Run from any state, this leaves an
array that holds their values in order, unless the array goes by the name of
one of the arguments itself.
-/

namespace JavaMinus

open Ir (Operand Instr Call CallKind Fragment)
open Lowering

/-! ## Actions on arrays -/

namespace Effect

variable {world : World}

theorem newArray_of_nonneg {size : Int32} (nonneg : ¬ size.toInt < 0) :
    newArray (.word size) world =
      .ok (.array world.arrays.length) { world with
        arrays := world.arrays ++ [List.replicate size.toInt.toNat 0]
        trace := world.trace ++ [.newArray size] } := by
  change (if size.toInt < 0 then _ else _ : Effect _) world = _
  rw [if_neg nonneg]
  rfl

theorem store_of_inside {address : Nat} {elements : List Int32}
    {position : Int32} (value : Int32)
    (known : world.arrays[address]? = some elements)
    (inside : ¬ (position.toInt < 0 ∨
      (elements.length : Int) ≤ position.toInt)) :
    store (.array address) (.word position) (.word value) world =
      .ok () { world with
        arrays := world.arrays.set address
          (elements.set position.toInt.toNat value)
        trace := world.trace ++ [.store address position value] } := by
  have found : Effect.elements (.array address) world =
      .ok (address, elements) world := by
    have here : (get : Effect World) world = .ok world world := rfl
    rw [Effect.elements, Action.bind_of_ok here, known]
    rfl
  change (Effect.elements (.array address) >>= _) world = _
  rw [Action.bind_of_ok found]
  dsimp only
  rw [if_neg inside]
  rfl

end Effect

/-! ## Filling an array -/

namespace Lowering

variable {setting : Ir.Setting} {method : Ir.Method} {start : Ir.State}
  {name : String} {operands : List Operand} {words : List Int32}

def IsNext (method : Ir.Method) (state : Ir.State) (code : List Fragment) :
    Prop :=
  instrs code <+: method.instrs.drop state.pc

theorem IsNext.fetch {instr : Instr} {code : List Fragment}
    (h : IsNext method start (.instr instr :: code)) :
    method.instrs[start.pc]? = some instr := by
  obtain ⟨rest, whole⟩ := h
  have first := congrArg List.head? whole
  simpa [instrs] using first.symm

theorem IsNext.tail {instr : Instr} {code : List Fragment}
    (h : IsNext method start (.instr instr :: code)) {reached : Ir.State}
    (next : reached.pc = start.pc + 1) : IsNext method reached code := by
  obtain ⟨rest, whole⟩ := h
  refine ⟨rest, ?_⟩
  have others := congrArg List.tail whole
  rw [List.tail_drop, ← next] at others
  exact others

def ReadAs (setting : Ir.Setting) (vars : Locals) :
    List Operand → List Int32 → Prop :=
  List.Forall₂ fun operand word =>
    operand.read setting vars = pure (.word word)

theorem read_set {operand : Operand} (simple : operand.isSimple = true)
    (other : ∀ ty, operand ≠ .var name ty) (vars : Locals) (value : Value) :
    operand.read setting (vars.set name value) =
      operand.read setting vars := by
  cases operand with
  | literal | self => rfl
  | var name' ty =>
      have different : name' ≠ name := fun same => other ty (same ▸ rfl)
      simp only [Operand.read, Effect.read, Locals.set_of_ne _ _ different]
  | element | field => cases simple

def storesFrom (name : String) (position : Nat) (operands : List Operand) :
    List Fragment :=
  (operands.zipIdx position).map fun (value, index) =>
    .instr (.store (.element name (.int (Int32.ofNat index))) (.single value))

theorem toInt_ofNat {count : Nat} (small : count ≤ 2147483647) :
    (Int32.ofNat count).toInt = count :=
  Int32.toInt_ofNat_of_lt (by omega)

theorem store_step {operand : Operand} {word : Int32}
    {front zeros : List Int32} {before : List (List Int32)}
    (small : front.length ≤ 2147483647)
    (isNext : IsNext method start
      (storesFrom name front.length (operand :: operands)))
    (holds : start.vars name = some (.array before.length))
    (reads : operand.read setting start.vars = pure (.word word))
    (known : start.world.arrays = before ++ [front ++ 0 :: zeros]) :
    ∃ world, method.step setting start =
        .next { start with pc := start.pc + 1, world } ∧
      IsNext method { start with pc := start.pc + 1, world }
        (storesFrom name (front ++ [word]).length operands) ∧
      world.arrays = before ++ [(front ++ [word]) ++ zeros] ∧
      world.fields = start.world.fields := by
  have position := toInt_ofNat small
  have found : start.world.arrays[before.length]? =
      some (front ++ 0 :: zeros) := by
    simp [known]
  have inside : ¬ ((Int32.ofNat front.length).toInt < 0 ∨
      ((front ++ 0 :: zeros).length : Int) ≤
        (Int32.ofNat front.length).toInt) := by
    rw [position, List.length_append, List.length_cons]
    omega
  obtain ⟨world, stored, arrays, fields⟩ : ∃ world,
      Effect.store (.array before.length)
        (.word (Int32.ofNat front.length)) (.word word) start.world =
          .ok () world ∧
      world.arrays = before ++ [(front ++ [word]) ++ zeros] ∧
      world.fields = start.world.fields :=
    ⟨_, Effect.store_of_inside word found inside, by simp [known, position],
      rfl⟩
  have array : Effect.read start.vars name = pure (.array before.length) := by
    simp [Effect.read, holds]
  have ran : (Instr.store (.element name (.int (Int32.ofNat front.length)))
      (.single operand)).run setting start.vars start.world =
      .ok (.next start.vars) world := by
    simp only [Instr.store, Instr.run, Instr.value, Operand.int, Operand.read,
      array, reads, pure_bind]
    rw [Action.bind_of_ok stored]
    rfl
  refine ⟨world, Ir.Method.step_of_ok isNext.fetch ran, ?_, arrays, fields⟩
  rw [List.length_append]
  exact isNext.tail rfl

theorem stores_fill (front : List Int32) {before : List (List Int32)}
    (few : front.length + operands.length ≤ 2147483647)
    (isNext : IsNext method start (storesFrom name front.length operands))
    (holds : start.vars name = some (.array before.length))
    (reads : ReadAs setting start.vars operands words)
    (known : start.world.arrays =
      before ++ [front ++ List.replicate operands.length 0]) :
    ∃ reached, Reaches (method.step setting) start reached ∧
      reached.pc = start.pc + operands.length ∧
      reached.vars = start.vars ∧
      reached.world.arrays = before ++ [front ++ words] ∧
      reached.world.fields = start.world.fields := by
  -- what is stored already stands in front of the zeros that are left
  induction operands generalizing start front words with
  | nil =>
      cases reads
      exact ⟨start, .refl start, rfl, rfl, known, rfl⟩
  | cons operand rest ih =>
      cases reads with
      | @cons _ word _ words here others =>
          rw [List.length_cons] at few
          obtain ⟨world, stepped, next, arrays, fields⟩ :=
            store_step (by omega) isNext holds here known
          have few : (front ++ [word]).length + rest.length ≤ 2147483647 := by
            rw [List.length_append, List.length_singleton]
            omega
          obtain ⟨reached, reaches, atEnd, vars, filled, same⟩ :=
            ih (front ++ [word]) few next holds others arrays
          refine ⟨reached, (Reaches.single stepped).trans reaches, ?_, vars,
            ?_, same.trans fields⟩
          · have atEnd : reached.pc = start.pc + 1 + rest.length := atEnd
            rw [atEnd, List.length_cons]
            omega
          · rw [filled, List.append_assoc]
            rfl

/-- A store of the array into itself gets stuck, and those before it end. -/
theorem stores_get_stuck (front : List Int32) {before : List (List Int32)}
    (few : front.length + operands.length ≤ 2147483647)
    (isNext : IsNext method start (storesFrom name front.length operands))
    (holds : start.vars name = some (.array before.length))
    (reads : ∀ operand ∈ operands, (∀ ty, operand ≠ .var name ty) →
      ∃ word, operand.read setting start.vars = pure (.word word))
    (known : start.world.arrays =
      before ++ [front ++ List.replicate operands.length 0])
    {ty : Ty} (captured : .var name ty ∈ operands) {reached : Ir.State}
    (reaches : Reaches (method.step setting) start reached) :
    reached.pc < start.pc + operands.length := by
  induction operands generalizing start front with
  | nil => cases captured
  | cons operand rest ih =>
      rw [List.length_cons] at few ⊢
      rcases Relation.ReflTransGen.cases_head reaches with
        rfl | ⟨mid, stepped, reaches⟩
      · omega
      by_cases itself : ∃ ty, operand = .var name ty
      · -- the array itself is no word that could be stored
        obtain ⟨ty, rfl⟩ := itself
        have array : Effect.read start.vars name =
            pure (.array before.length) := by
          simp [Effect.read, holds]
        have ran : (Instr.store
            (.element name (.int (Int32.ofNat front.length)))
            (.single (.var name ty))).run setting start.vars start.world =
            .error .stuck start.world := by
          simp only [Instr.store, Instr.run, Instr.value, Operand.int,
            Operand.read, array, pure_bind]
          rfl
        rw [Ir.Method.step_of_error isNext.fetch ran] at stepped
        cases stepped
      · have other : ∀ ty, operand ≠ .var name ty := not_exists.mp itself
        obtain ⟨word, here⟩ := reads operand (by simp) other
        obtain ⟨world, expected, next, arrays, _⟩ :=
          store_step (by omega) isNext holds here known
        rw [expected] at stepped
        cases stepped
        have later : .var name ty ∈ rest :=
          (List.mem_cons.mp captured).resolve_left (other ty).symm
        have few : (front ++ [word]).length + rest.length ≤ 2147483647 := by
          rw [List.length_append, List.length_singleton]
          omega
        have less := ih (front ++ [word]) few next holds
          (fun operand member => reads operand (by simp [member])) arrays
          later reaches
        have less : reached.pc < start.pc + 1 + rest.length := less
        omega

def packing (name : String) (operands : List Operand) : List Fragment :=
  .instr (.store (.var name .intArray)
      (newArray (.int (Int32.ofNat operands.length)))) ::
    elementStores name operands

theorem allocation_step (setting : Ir.Setting)
    (few : operands.length ≤ 2147483647)
    (isNext : IsNext method start (packing name operands)) :
    ∃ world, method.step setting start =
        .next { start with
          pc := start.pc + 1
          vars := start.vars.set name (.array start.world.arrays.length)
          world } ∧
      world.arrays = start.world.arrays ++
        [List.replicate operands.length 0] ∧
      world.fields = start.world.fields := by
  have size := toInt_ofNat few
  obtain ⟨world, made, arrays, fields⟩ : ∃ world,
      Effect.newArray (.word (Int32.ofNat operands.length)) start.world =
        .ok (.array start.world.arrays.length) world ∧
      world.arrays = start.world.arrays ++
        [List.replicate operands.length 0] ∧
      world.fields = start.world.fields :=
    ⟨_, Effect.newArray_of_nonneg (by omega), by simp [size], rfl⟩
  have ran : (Instr.store (.var name .intArray)
      (newArray (.int (Int32.ofNat operands.length)))).run setting start.vars
        start.world =
      .ok (.next (start.vars.set name (.array start.world.arrays.length)))
        world := by
    change (Effect.newArray (.word (Int32.ofNat operands.length)) >>= _)
      start.world = _
    rw [Action.bind_of_ok made]
    rfl
  exact ⟨world, Ir.Method.step_of_ok isNext.fetch ran, arrays, fields⟩

def Apart (name : String) (operands : List Operand) : Prop :=
  ∀ operand ∈ operands, ∀ ty, operand ≠ .var name ty

/--
The machine gets behind the code that packs the words, with a new array in the
variable that holds them in order.
-/
def EndsPacked (setting : Ir.Setting) (method : Ir.Method) (start : Ir.State)
    (name : String) (words : List Int32) : Prop :=
  ∃ reached, Reaches (method.step setting) start reached ∧
    reached.pc = start.pc + words.length + 1 ∧
    reached.vars =
      start.vars.set name (.array start.world.arrays.length) ∧
    reached.world.arrays = start.world.arrays ++ [words] ∧
    reached.world.fields = start.world.fields

theorem packing_ends (simple : ∀ operand ∈ operands, operand.isSimple = true)
    (few : operands.length ≤ 2147483647)
    (isNext : IsNext method start (packing name operands))
    (reads : ReadAs setting start.vars operands words)
    (apart : Apart name operands) :
    EndsPacked setting method start name words := by
  obtain ⟨world, stepped, arrays, fields⟩ :=
    allocation_step setting few isNext
  have count : operands.length = words.length := reads.length_eq
  have still : ReadAs setting
      (start.vars.set name (.array start.world.arrays.length)) operands
      words := by
    refine List.forall₂_iff_get.mpr ⟨count, fun index here there => ?_⟩
    have member := List.get_mem operands ⟨index, here⟩
    rw [read_set (simple _ member) (apart _ member)]
    exact reads.get here there
  have next : IsNext method
      { start with
        pc := start.pc + 1
        vars := start.vars.set name (.array start.world.arrays.length)
        world }
      (storesFrom name 0 operands) := isNext.tail rfl
  obtain ⟨reached, reaches, atEnd, vars, filled, same⟩ := stores_fill []
    (by simpa using few) next (Locals.set_self _ _ _) still arrays
  have atEnd : reached.pc = start.pc + 1 + operands.length := atEnd
  exact ⟨reached, (Reaches.single stepped).trans reaches, by omega, vars,
    filled, same.trans fields⟩

/--
The array holds the values of the operands exactly if it does not take the
name of one of them.
-/
theorem packing_ends_iff
    (simple : ∀ operand ∈ operands, operand.isSimple = true)
    (few : operands.length ≤ 2147483647)
    (isNext : IsNext method start (packing name operands))
    (reads : ReadAs setting start.vars operands words) :
    EndsPacked setting method start name words ↔ Apart name operands := by
  constructor
  · rintro ⟨reached, reaches, atEnd, _⟩ operand member ty rfl
    have count : operands.length = words.length := reads.length_eq
    obtain ⟨world, stepped, arrays, _⟩ := allocation_step setting few isNext
    rcases Relation.ReflTransGen.cases_head reaches with
      rfl | ⟨mid, stepped', reaches⟩
    · omega
    rw [stepped] at stepped'
    cases stepped'
    have still : ∀ operand ∈ operands, (∀ ty, operand ≠ .var name ty) →
        ∃ word, operand.read setting
          (start.vars.set name (.array start.world.arrays.length)) =
            pure (.word word) := by
      intro operand member other
      obtain ⟨index, here, rfl⟩ := List.mem_iff_getElem.mp member
      rw [read_set (simple _ member) other]
      exact ⟨_, reads.get here (count ▸ here)⟩
    have less := stores_get_stuck [] (by simpa using few)
      (isNext.tail rfl) (Locals.set_self _ _ _) still arrays member reaches
    have less : reached.pc < start.pc + 1 + operands.length := less
    omega
  · exact packing_ends simple few isNext reads

end Lowering

/-! ## Operands of arguments -/

namespace Tree.Expr

variable {scope : Scope} {supply after : Supply}

theorem lowerAll_isSimple {exprs : List Expr} {operands : List Operand}
    {code : List Fragment}
    (h : lowerAll scope exprs supply = .ok (operands, code) after) :
    ∀ operand ∈ operands, operand.isSimple = true := by
  induction h using lowerAll_induction with
  | nil => nofun
  | cons hfirst _ ih =>
      rintro operand (_ | ⟨_, member⟩)
      · exact (lower_computes_operand hfirst).2
      · exact ih operand member

theorem lower_apart {expr : Expr} {operand : Operand} {code : List Fragment}
    {later : Supply} {name : String} (reserved : scope.Reserved supply)
    (notClass : expr.namesClass scope = false)
    (h : expr.lower scope .operand supply = .ok ⟨some operand, code⟩ after)
    (extend : after.Extends later) (isNew : ¬ later.Kept name) (ty : Ty) :
    operand ≠ .var name ty := by
  rintro rfl
  rcases lower_yields (by simp) h with
    (⟨other, _, known, source⟩ | ⟨other, known, isFixed⟩) | ⟨inPlace, _⟩
  · cases known
    rcases source with kept | ⟨attr, form, isVariable | noValue⟩
    · exact isNew (extend.kept kept)
    · have extends' := (lower_draws h).toExtends.trans extend
      exact isNew (.inl ((reserved.after extends') name isVariable))
    · simp [namesClass, form, noValue] at notClass
  · cases known
    rw [fixed?] at isFixed
    split at isFixed
    · cases isFixed
    · cases isFixed
    · cases isFixed
    · split at isFixed <;> cases isFixed
    · cases isFixed
  · exact inPlace rfl

theorem lowerAll_apart {args : List Expr} {operands : List Operand}
    {code : List Fragment} {name : String} (fixed : Nat)
    (reserved : scope.Reserved supply)
    (notClass : ∀ arg ∈ args.drop fixed, arg.namesClass scope = false)
    (h : lowerAll scope args supply = .ok (operands, code) after)
    (isNew : ¬ after.Kept name) : Apart name (operands.drop fixed) := by
  induction args generalizing fixed supply operands code with
  | nil =>
      obtain ⟨same, _⟩ := Action.pure_eq_ok.mp h
      cases same
      simp [Apart]
  | cons arg rest ih =>
      obtain ⟨op, _, mid, ops, _, harg, hrest, rfl, _⟩ :=
        lowerAll_cons_eq_ok h
      have reserved' := reserved.after (lower_draws harg).toExtends
      cases fixed with
      | zero =>
          have others : Apart name (ops.drop 0) :=
            ih 0 reserved' (fun arg member => notClass arg (.tail _ member))
              hrest
          rintro operand (_ | ⟨_, member⟩)
          · exact lower_apart reserved (notClass arg (.head _)) harg
              (lowerAll_draws hrest).toExtends isNew
          · exact others operand member
      | succ fixed => exact ih fixed reserved' notClass hrest

end Tree.Expr

/-! ## Calls -/

namespace Lowering

variable {scope : Scope} {dest : Destination} {supply after : Supply}
  {lowered : Lowered} {code : List Fragment} {call : Call}

/-- The code ends with the call, behind the code for what it is given. -/
def Emits (lowered : Lowered) (code : List Fragment) (call : Call) : Prop :=
  ∃ last, lowered.code = code ++ [.instr last] ∧ last.call? = some call

theorem finishCall_emits
    (h : finishCall call code dest supply = .ok lowered after) :
    Emits lowered code call := by
  cases dest with
  | discarded =>
      obtain ⟨rfl, _⟩ := Action.pure_eq_ok.mp h
      exact ⟨_, rfl, rfl⟩
  | assigned | returned | operand =>
      obtain ⟨name, _, rfl⟩ := intoTemp_eq_ok h
      exact ⟨_, rfl, rfl⟩

theorem finishCall_succeeds_iff (callee : Option Signature) (ty : Ty)
    (returns : call.returnTy = callTy callee ty dest) :
    (∃ lowered after, finishCall call code dest supply =
      .ok lowered after) ↔ dest.IsPlain := by
  cases dest with
  | discarded => exact ⟨fun _ => trivial, fun _ => ⟨_, _, rfl⟩⟩
  | operand =>
      have plain : call.returnTy ≠ .vararg := returns ▸ ty.valueTy_ne_vararg
      exact ⟨fun _ => trivial, fun _ => intoTemp_succeeds_iff.mpr plain⟩
  | assigned wanted | returned wanted =>
      rw [callTy] at returns
      subst returns
      exact intoTemp_succeeds_iff

theorem packArray_of_short {values : List Operand}
    (short : values.length ≤ 2147483647) :
    packArray values supply =
      .ok (.var supply.freshTemp.1 .intArray,
        packing supply.freshTemp.1 values) supply.freshTemp.2 := by
  change (if 2147483647 < values.length then throw .arrayTooLong
    else pure _ : Lower _) supply.freshTemp.2 = _
  rw [if_neg (Nat.not_lt.mpr short)]
  rfl

section Signature

variable {signature : Signature} {args : List Operand}

theorem packVarargs_of_few (vararg : signature.hasVararg = true)
    (few : args.length < signature.params.length - 1) :
    packVarargs (some signature) args supply =
      .error (.tooFewArguments signature.name args.length
        (signature.params.length - 1)) supply := by
  simp only [packVarargs, vararg, few, Bool.not_true, Bool.false_eq_true,
    if_false, if_true]
  rfl

theorem packVarargs_of_enough (vararg : signature.hasVararg = true)
    (enough : signature.params.length - 1 ≤ args.length) :
    packVarargs (some signature) args =
      if (args.drop (signature.params.length - 1)).map (·.ty.isArray) = [true]
      then pure (args, [])
      else packVarargs.pack args (signature.params.length - 1)
        (args.drop (signature.params.length - 1)) := by
  simp only [packVarargs, vararg, Nat.not_lt.mpr enough, Bool.not_true,
    Bool.false_eq_true, if_false]
  split
  next single extra => simp only [extra, List.map_cons, List.map_nil,
    List.cons.injEq, and_true]
  next several =>
    refine (if_neg fun same => ?_).symm
    obtain ⟨single, rest, extra, _, none⟩ := List.map_eq_cons_iff.mp same
    rw [List.map_eq_nil_iff.mp none] at extra
    exact several single extra

theorem packVarargs_succeeds_iff (vararg : signature.hasVararg = true)
    (enough : signature.params.length - 1 ≤ args.length) :
    (∃ passed code after, packVarargs (some signature) args supply =
      .ok (passed, code) after) ↔
    args.length - (signature.params.length - 1) ≤ 2147483647 := by
  have count : (args.drop (signature.params.length - 1)).length =
      args.length - (signature.params.length - 1) := List.length_drop
  rw [packVarargs_of_enough vararg enough, ← count]
  split
  next single =>
    have one := congrArg List.length single
    rw [List.length_map, List.length_singleton] at one
    exact ⟨fun _ => by omega, fun _ => ⟨_, _, _, rfl⟩⟩
  next =>
    constructor
    · rintro ⟨passed, code, after, h⟩
      obtain ⟨⟨array, packed⟩, mid, hpack, _⟩ := Action.bind_eq_ok.mp h
      obtain ⟨_, _, short, _⟩ := packArray_eq_ok hpack
      exact short
    · intro short
      exact ⟨_, _, _, Action.bind_of_ok (packArray_of_short short)⟩

end Signature

end Lowering

namespace Tree.Expr

variable {scope : Scope} {dest : Destination} {supply first second : Supply}
  {receiver : Expr} {args : List Expr} {kind : CallKind} {target : Operand}
  {targetCode argCode : List Fragment} {operands : List Operand}

theorem lower_call_of_parts (attr : Attr) (method : String)
    (receives : Receives scope receiver kind target targetCode supply first)
    (lowers : lowerAll scope args first = .ok (operands, argCode) second) :
    (Expr.call attr receiver method args).lower scope dest supply =
      (do
        let (passed, code) ←
          packVarargs (scope.ownMethod? receiver method) operands
        finishCall
          { kind, target, method := some method, args := passed
            returnTy :=
              callTy (scope.ownMethod? receiver method) attr.ty dest }
          (targetCode ++ argCode ++ code) dest) second := by
  rw [← (receives_callee? receives method).2, Expr.lower]
  rcases receives with ⟨direct, rfl, rfl⟩ | ⟨direct, rfl, hreceiver⟩
  · rw [direct]
    exact Action.bind_of_ok lowers
  · rw [direct]
    change (receiver.lower scope .operand >>= _) supply = _
    rw [Action.bind_of_ok hreceiver]
    exact Action.bind_of_ok lowers

variable {attr : Attr} {method : String} {signature : Signature}

theorem lower_call_fails_iff
    (receives : Receives scope receiver kind target targetCode supply first)
    (lowers : lowerAll scope args first = .ok (operands, argCode) second)
    (own : scope.ownMethod? receiver method = some signature)
    (vararg : signature.hasVararg = true) :
    (∃ after, (Expr.call attr receiver method args).lower scope dest supply =
      .error (.tooFewArguments signature.name args.length
        (signature.params.length - 1)) after) ↔
    args.length < signature.params.length - 1 := by
  have count := lowerAll_length lowers
  rw [lower_call_of_parts attr method receives lowers, own, ← count]
  constructor
  · rintro ⟨after, failed⟩
    refine Decidable.byContradiction fun enough => ?_
    -- what else may fail has other reasons
    have packs : Raises (packVarargs (some signature) operands) fun cause =>
        cause = .arrayTooLong ∨ cause = .escapedVararg := by
      refine packVarargs_raises operands ?_
      rintro _ cause ⟨⟩ broken
      simp only [Signature.breach?, vararg, enough, Bool.not_true,
        Bool.false_eq_true, if_false, Option.ite_none_right_eq_some] at broken
      exact .inl (Option.some.inj broken.2).symm
    have causes := (packs.bind fun _ _ _ _ =>
      finishCall_raises _ _ fun _ _ => .inr rfl) failed
    rcases causes with same | same <;> cases same
  · intro few
    exact ⟨second, Action.bind_of_error (packVarargs_of_few vararg few)⟩

theorem lower_call_succeeds_iff
    (receives : Receives scope receiver kind target targetCode supply first)
    (lowers : lowerAll scope args first = .ok (operands, argCode) second)
    (own : scope.ownMethod? receiver method = some signature)
    (vararg : signature.hasVararg = true)
    (enough : signature.params.length - 1 ≤ args.length) :
    (∃ lowered after, (Expr.call attr receiver method args).lower scope dest
      supply = .ok lowered after) ↔
    args.length - (signature.params.length - 1) ≤ 2147483647 ∧
      dest.IsPlain := by
  have count := lowerAll_length lowers
  rw [lower_call_of_parts attr method receives lowers, own, ← count]
  rw [← count] at enough
  rw [← packVarargs_succeeds_iff vararg enough]
  constructor
  · rintro ⟨lowered, after, h⟩
    obtain ⟨⟨passed, code⟩, mid, hpack, hfinish⟩ := Action.bind_eq_ok.mp h
    exact ⟨⟨passed, code, mid, hpack⟩,
      (finishCall_succeeds_iff (some signature) attr.ty rfl).mp
        ⟨lowered, after, hfinish⟩⟩
  · rintro ⟨⟨passed, code, mid, hpack⟩, plain⟩
    simp only [Action.bind_of_ok hpack]
    exact (finishCall_succeeds_iff (some signature) attr.ty rfl).mpr plain

end Tree.Expr

structure Lowering.PacksExtra (scope : Scope) (supply second : Supply)
    (args : List Tree.Expr) (operands : List Operand) (fixed : Nat)
    (passed : List Operand) (code : List Fragment) (name : String) :
    Prop where
  isNew : ¬ second.Kept name
  passed_eq : passed = operands.take fixed ++ [.var name .intArray]
  code_eq : code = .instr (.store (.var name .intArray)
      (newArray (.int (Int32.ofNat (args.length - fixed))))) ::
    elementStores name (operands.drop fixed)
  size : (Int32.ofNat (args.length - fixed)).toInt =
    ((args.length - fixed : Nat) : Int)
  count : (elementStores name (operands.drop fixed)).length =
    args.length - fixed
  -- Run from any state, the array holds the values of these operands.
  ends : ∀ ⦃setting method start words⦄, IsNext method start code →
    ReadAs setting start.vars (operands.drop fixed) words →
    (EndsPacked setting method start name words ↔
      Apart name (operands.drop fixed))
  apart : scope.Reserved supply →
    (∀ arg ∈ args.drop fixed, arg.namesClass scope = false) →
    Apart name (operands.drop fixed)

namespace Tree.Expr

variable {scope : Scope} {dest : Destination} {supply first second : Supply}
  {receiver : Expr} {args : List Expr} {kind : CallKind} {target : Operand}
  {targetCode argCode : List Fragment} {operands : List Operand}
  {attr : Attr} {method : String} {signature : Signature}

theorem packArray_packsExtra {fixed : Nat} {array : Operand}
    {code : List Fragment} {third : Supply}
    (receives : Receives scope receiver kind target targetCode supply first)
    (lowers : lowerAll scope args first = .ok (operands, argCode) second)
    (h : packArray (operands.drop fixed) second = .ok (array, code) third) :
    ∃ name, PacksExtra scope supply second args operands fixed
      (operands.take fixed ++ [array]) code name := by
  have count := lowerAll_length lowers
  obtain ⟨name, drawn, short, rfl, rfl⟩ := packArray_eq_ok h
  have simple : ∀ operand ∈ operands.drop fixed, operand.isSimple = true :=
    fun operand member =>
      lowerAll_isSimple lowers operand (List.mem_of_mem_drop member)
  have extra : (operands.drop fixed).length = args.length - fixed := by
    rw [List.length_drop, count]
  refine ⟨name, drawn.isNew, rfl, by rw [extra], toInt_ofNat (extra ▸ short),
    by simp [elementStores, count], ?_, ?_⟩
  · intro setting method start words isNext reads
    exact packing_ends_iff simple short isNext reads
  · intro reserved notClass
    exact lowerAll_apart fixed
      (reserved.after (receives_draws receives).toExtends) notClass lowers
      drawn.isNew

theorem map_drop_eq_single {α : Type} {values : List α} (test : α → Bool)
    {fixed : Nat} (enough : fixed ≤ values.length) :
    (values.drop fixed).map test = [true] ↔
      values.length = fixed + 1 ∧ values.getLast?.map test = some true := by
  constructor
  · intro single
    have one := congrArg List.length single
    rw [List.length_map, List.length_drop, List.length_singleton] at one
    have last := congrArg List.getLast? single
    rw [List.getLast?_map, List.getLast?_drop, if_neg (by omega)] at last
    exact ⟨by omega, last⟩
  · rintro ⟨one, last⟩
    have single : (values.drop fixed).length = 1 := by
      rw [List.length_drop]
      omega
    obtain ⟨value, only⟩ := List.length_eq_one_iff.mp single
    have known : values.getLast? = some value := by
      have atEnd := congrArg List.getLast? only
      rwa [List.getLast?_drop, if_neg (by omega)] at atEnd
    rw [known] at last
    simpa [only] using last

theorem lower_call_emits_packed {lowered : Lowered} {after : Supply}
    (receives : Receives scope receiver kind target targetCode supply first)
    (lowers : lowerAll scope args first = .ok (operands, argCode) second)
    (own : scope.ownMethod? receiver method = some signature)
    (vararg : signature.hasVararg = true)
    (h : (Expr.call attr receiver method args).lower scope dest supply =
      .ok lowered after) :
    let fixed := signature.params.length - 1
    ∃ passed code,
      Emits lowered (targetCode ++ argCode ++ code)
        { kind, target, method := some method, args := passed
          returnTy := callTy (some signature) attr.ty dest } ∧
      passed.length = fixed + 1 ∧ passed.take fixed = operands.take fixed ∧
      if args.length = fixed + 1 ∧
          operands.getLast?.map (·.ty.isArray) = some true then
        passed = operands ∧ code = []
      else ∃ name, PacksExtra scope supply second args operands fixed passed
        code name := by
  intro fixed
  have count := lowerAll_length lowers
  rw [lower_call_of_parts attr method receives lowers, own] at h
  obtain ⟨⟨passed, code⟩, mid, hpack, hfinish⟩ := Action.bind_eq_ok.mp h
  refine ⟨passed, code, finishCall_emits hfinish, ?_⟩
  rcases packVarargs_eq_ok hpack with ⟨passesAll, rfl, rfl, _⟩ |
    ⟨_, array, ⟨_, same, _, rfl, enough, packs⟩, packed, rfl⟩
  · obtain ⟨enough, single⟩ := passesAll signature rfl vararg
    have isArray := (map_drop_eq_single (·.ty.isArray) enough).mp single
    rw [if_pos (count ▸ isArray)]
    exact ⟨isArray.1, rfl, rfl, rfl⟩
  · cases same
    have notArray := mt (map_drop_eq_single (·.ty.isArray) enough).mpr packs
    rw [if_neg (count ▸ notArray)]
    refine ⟨?_, ?_, packArray_packsExtra receives lowers packed⟩
    · rw [List.length_append, List.length_take, Nat.min_eq_left enough]
      rfl
    · rw [List.take_append_of_le_length, List.take_take, Nat.min_self]
      rw [List.length_take, Nat.min_eq_left enough]

theorem lower_call_emits_operands
    (receives : Receives scope receiver kind target targetCode supply first)
    (lowers : lowerAll scope args first = .ok (operands, argCode) second)
    (plain : ∀ signature, scope.ownMethod? receiver method = some signature →
      signature.hasVararg = false) :
    (Expr.call attr receiver method args).lower scope dest supply =
      finishCall
        { kind, target, method := some method, args := operands
          returnTy := callTy (scope.ownMethod? receiver method) attr.ty dest }
        (targetCode ++ argCode) dest second := by
  have kept : packVarargs (scope.ownMethod? receiver method) operands second =
      .ok (operands, []) second := by
    cases own : scope.ownMethod? receiver method with
    | none => rfl
    | some signature =>
        simp only [packVarargs, plain signature own, Bool.not_false, if_true]
        rfl
  rw [lower_call_of_parts attr method receives lowers,
    Action.bind_of_ok kept]
  dsimp only
  rw [List.append_nil]

/--
The arguments of a call are packed as its callee takes them.  A method of the
own class that takes a vararg after some fixed parameters is called with one
argument more than these.  With fewer arguments lowering fails; with enough of
them it goes on unless too many are to be packed or a vararg is asked for.
Then an array that is all that is passed for the vararg stays as it is, and
anything else is packed into a new array, which holds the values of the
arguments unless one of them goes by its name.  All other calls are made with
their operands.
-/
theorem lower_call_packs (attr : Attr) (method : String) (dest : Destination)
    (receives : Receives scope receiver kind target targetCode supply first)
    (lowers : lowerAll scope args first = .ok (operands, argCode) second) :
    let whole := Expr.call attr receiver method args
    let callee := scope.ownMethod? receiver method
    let call (passed : List Operand) : Call :=
      { kind, target, method := some method, args := passed
        returnTy := callTy callee attr.ty dest }
    (∀ signature, callee = some signature → signature.hasVararg = true →
      let fixed := signature.params.length - 1
      ((∃ after, whole.lower scope dest supply =
          .error (.tooFewArguments signature.name args.length fixed) after) ↔
        args.length < fixed) ∧
      (fixed ≤ args.length →
        ((∃ lowered after, whole.lower scope dest supply =
            .ok lowered after) ↔
          args.length - fixed ≤ 2147483647 ∧ dest.IsPlain) ∧
        ∀ lowered after, whole.lower scope dest supply = .ok lowered after →
          ∃ passed code,
            Emits lowered (targetCode ++ argCode ++ code) (call passed) ∧
            passed.length = fixed + 1 ∧
            passed.take fixed = operands.take fixed ∧
            if args.length = fixed + 1 ∧
                operands.getLast?.map (·.ty.isArray) = some true then
              passed = operands ∧ code = []
            else ∃ name, PacksExtra scope supply second args operands fixed
              passed code name)) ∧
    ((∀ signature, callee = some signature → signature.hasVararg = false) →
      ((∃ lowered after, whole.lower scope dest supply = .ok lowered after) ↔
        dest.IsPlain) ∧
      ∀ lowered after, whole.lower scope dest supply = .ok lowered after →
        Emits lowered (targetCode ++ argCode) (call operands)) := by
  intro whole callee call
  refine ⟨fun signature own vararg => ?_, fun plain => ?_⟩
  · refine ⟨lower_call_fails_iff receives lowers own vararg, fun enough => ?_⟩
    refine ⟨lower_call_succeeds_iff receives lowers own vararg enough, ?_⟩
    intro lowered after h
    have returns : callee = some signature := own
    simp only [call, returns]
    exact lower_call_emits_packed receives lowers own vararg h
  · have finishes : whole.lower scope dest supply = _ :=
      lower_call_emits_operands receives lowers plain
    rw [finishes]
    exact ⟨finishCall_succeeds_iff callee attr.ty rfl,
      fun lowered after h => finishCall_emits h⟩

def passing (args : List Expr) : Expr :=
  .call ⟨.int, {}⟩ (.self ⟨.object "A", {}⟩) "f" args

def besideVararg (fixed : List Symbol) (locals : List Symbol) : Scope where
  table := {
    className := "A"
    methods := [
      { name := "f", params := fixed ++ [⟨"rest", .vararg⟩], locals := []
        returnTy := .int },
      { name := "g", params := [], locals, returnTy := .int }] }
  method := "g"

theorem lower_call_packs_two :
    let scope := besideVararg [⟨"first", .int⟩] [⟨"x", .int⟩, ⟨"y", .int⟩]
    let args := [.var ⟨.int, {}⟩ "x", .int ⟨.int, {}⟩ 2, .var ⟨.int, {}⟩ "y"]
    let operands := [.var "x" .int, .int 2, .var "y" .int]
    let supply : Supply := { reserved := ["x", "y"] }
    ∃ lowered after passed code name,
      (passing args).lower scope .operand supply = .ok lowered after ∧
      PacksExtra scope supply supply args operands 1 passed code name ∧
      Apart name (operands.drop 1) := by
  intro scope args operands supply
  have receives : Receives scope (.self ⟨.object "A", {}⟩) .virtual
      (.self "A") [] supply supply := .inl ⟨rfl, rfl, rfl⟩
  have lowers : lowerAll scope args supply = .ok (operands, []) supply := rfl
  obtain ⟨_, whole⟩ :=
    (lower_call_packs ⟨.int, {}⟩ "f" .operand receives lowers).1 _ rfl rfl
  obtain ⟨succeeds, packs⟩ := whole (by decide)
  obtain ⟨lowered, after, h⟩ := succeeds.mpr ⟨by decide, trivial⟩
  obtain ⟨passed, code, _, _, _, result⟩ := packs lowered after h
  rw [if_neg (by decide)] at result
  obtain ⟨name, extra⟩ := result
  have reserved : scope.Reserved supply := by
    intro name isVariable
    rcases Scope.declared_of_isVariable isVariable with
      ⟨symbol, member, rfl⟩ | ⟨symbol, member, rfl⟩
    · exact List.mem_map_of_mem member
    · cases member
  exact ⟨lowered, after, passed, code, name, h, extra,
    extra.apart reserved (by decide)⟩

theorem lowerAll_literals (scope : Scope) (count : Nat) (supply : Supply) :
    lowerAll scope (List.replicate count (.int ⟨.int, {}⟩ 0)) supply =
      .ok (List.replicate count (.int 0), []) supply := by
  induction count with
  | zero => rfl
  | succ count ih =>
      refine Action.bind_eq_ok.mpr ⟨.ofOperand (.int 0), supply, rfl, ?_⟩
      refine Action.bind_eq_ok.mpr ⟨(.int 0, []), supply, rfl, ?_⟩
      exact Action.bind_eq_ok.mpr ⟨_, supply, ih, rfl⟩

/--
Arguments are not always packed.  If no name is set aside, the new array can
go by the name of the argument, declared or not, and is then stored in itself.
No call is made for a vararg, and none with more arguments than an array has
places.
-/
theorem lower_call_fails_to_pack :
    (∀ locals ∈ [[], [(⟨"tmp0", .int⟩ : Symbol)]], ∃ lowered after operand,
      (passing [.var ⟨.int, {}⟩ "tmp0"]).lower (besideVararg [] locals)
        .operand {} = .ok lowered after ∧
      packing "tmp0" [operand] <+: lowered.code ∧
      ∀ setting method start word, IsNext method start lowered.code →
        start.vars "tmp0" = some (.word word) →
        operand.read setting start.vars = pure (.word word) ∧
        ¬ EndsPacked setting method start "tmp0" [word]) ∧
    (∃ after, (passing []).lower (besideVararg [] []) (.assigned .vararg) {} =
      .error .escapedVararg after) ∧
    ¬ ∃ lowered after,
      (passing (List.replicate 2147483648 (.int ⟨.int, {}⟩ 0))).lower
        (besideVararg [] []) .operand {} = .ok lowered after := by
  refine ⟨fun locals member => ?_, ⟨_, rfl⟩, fun succeeds => ?_⟩
  · have captured (ty : Ty) (setting : Ir.Setting) {method : Ir.Method}
        {start : Ir.State} {word : Int32}
        (isNext : IsNext method start (packing "tmp0" [.var "tmp0" ty]))
        (holds : start.vars "tmp0" = some (.word word)) :
        (Operand.var "tmp0" ty).read setting start.vars = pure (.word word) ∧
          ¬ EndsPacked setting method start "tmp0" [word] := by
      have reads : (Operand.var "tmp0" ty).read setting start.vars =
          pure (.word word) := by
        simp [Operand.read, Effect.read, holds]
      refine ⟨reads, fun ends => ?_⟩
      have apart := (packing_ends_iff (by simp [Operand.isSimple])
        (by simp) isNext (.cons reads .nil)).mp ends
      exact apart _ (by simp) ty rfl
    simp only [List.mem_cons, List.not_mem_nil, or_false] at member
    rcases member with rfl | rfl
    · refine ⟨_, _, .var "tmp0" (.object "tmp0"), rfl, ⟨[_], rfl⟩, ?_⟩
      intro setting method start word isNext
      exact captured _ setting (.trans ⟨[_], rfl⟩ isNext)
    · refine ⟨_, _, .var "tmp0" .int, rfl, ⟨[_], rfl⟩, ?_⟩
      intro setting method start word isNext
      exact captured _ setting (.trans ⟨[_], rfl⟩ isNext)
  · have receives : Receives (besideVararg [] [])
        (.self ⟨.object "A", {}⟩) .virtual (.self "A") [] {} {} :=
      .inl ⟨rfl, rfl, rfl⟩
    have few := ((lower_call_succeeds_iff receives
      (lowerAll_literals _ 2147483648 {}) rfl rfl (Nat.zero_le _)).mp
        succeeds).1
    rw [List.length_replicate] at few
    simp at few

end Tree.Expr

end JavaMinus
