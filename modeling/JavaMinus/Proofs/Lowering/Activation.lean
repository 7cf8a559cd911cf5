import JavaMinus.Proofs.Lowering.Draws
import JavaMinus.Proofs.Lowering.Placed
import JavaMinus.Proofs.Semantics.Tree
import Mathlib.Data.List.Forall2

/-!
# Running trees and their code side by side

What it means for lowered code to do what the tree does, and how the pieces
that all forms of expressions share are run: operands, temporaries and arrays
of values.
-/

namespace JavaMinus

open Ir (Operand Instr Fragment)
open Lowering

/-! ## Variables of a scope -/

namespace Scope

def IsVariable (scope : Scope) (name : String) : Prop :=
  ∃ symbol, scope.resolve name = .localVar symbol ∨
    scope.resolve name = .param symbol

def Reserved (scope : Scope) (supply : Supply) : Prop :=
  ∀ name, scope.IsVariable name → name ∈ supply.reserved

theorem Reserved.after {scope : Scope} {supply after : Supply}
    (h : scope.Reserved supply) (extend : supply.Extends after) :
    scope.Reserved after :=
  fun name isVariable => extend.reserved ▸ h name isVariable

def Agrees (scope : Scope) (locals vars : Locals) : Prop :=
  ∀ name, scope.IsVariable name → vars name = locals name

theorem Agrees.after {scope : Scope} {supply : Supply}
    {locals vars vars' : Locals} (h : scope.Agrees locals vars)
    (reserved : scope.Reserved supply)
    (same : supply.Preserves vars vars') : scope.Agrees locals vars' :=
  fun name isVariable =>
    (same name (.inl (reserved name isVariable))).trans (h name isVariable)

theorem Agrees.set {scope : Scope} {locals vars : Locals}
    (h : scope.Agrees locals vars) (name : String) (value : Value) :
    scope.Agrees (locals.set name value) (vars.set name value) := by
  intro other isVariable
  by_cases same : other = name
  · simp [same]
  · rw [Locals.set_of_ne _ _ same, Locals.set_of_ne _ _ same]
    exact h other isVariable

end Scope

/-! ## Operands of expressions -/

namespace Tree.Expr

variable {scope : Scope} {self : Value} {oracle : Oracle}
  {supply after : Supply} {operand : Operand} {code : List Fragment}

theorem typeOf_skipParens (scope : Scope) (expr : Expr) :
    scope.typeOf expr.skipParens = scope.typeOf expr := by
  induction expr with
  | paren attr inner ih => rw [skipParens, Scope.typeOf, ih]
  | _ => rfl

theorem eval_unresolved {attr : Attr} {name : String}
    (h : scope.resolve name = .unknown ∨
      ∃ path, scope.resolve name = .imported path) (locals : Locals) :
    (Expr.var attr name).eval (scope.setting self oracle) locals =
      Effect.stuck := by
  rw [eval, Setting.read]
  rcases h with origin | ⟨path, origin⟩ <;> simp only [Scope.setting, origin]

private theorem result_typeOf {expr : Expr} {dest : Destination}
    {lowered : Lowered} (plain : dest = .operand ∨ dest = .discarded)
    (h : expr.lower scope dest supply = .ok lowered after) :
    ∀ operand, lowered.result = some operand →
      operand.ty = scope.typeOf expr := by
  induction h using lower_induction (fun _ _ _ _ _ => True) with
  | nil | cons => trivial
  | int | bool | self | and | not | newObject | newArray | length =>
      rintro _ ⟨⟩
      rfl
  | readVar origin =>
      rintro _ ⟨⟩
      rcases origin with origin | origin <;>
        simp [Scope.typeOf, origin, Operand.ty]
  | readField origin | readEnclosing origin =>
      rintro _ ⟨⟩
      simp [Scope.typeOf, origin, Operand.ty]
  | readClass origin =>
      rintro _ ⟨⟩
      rcases origin with origin | ⟨path, origin⟩ <;>
        simp [Scope.typeOf, origin, Operand.ty]
  | paren _ ih => exact ih plain
  | binary strict =>
      rintro _ ⟨⟩
      exact (if_neg strict).symm
  | call _ _ _ hfinish =>
      rcases plain with rfl | rfl
      · obtain ⟨_, _, rfl⟩ := intoTemp_eq_ok hfinish
        rintro _ ⟨⟩
        rfl
      · obtain ⟨rfl, _⟩ := Action.pure_eq_ok.mp hfinish
        nofun
  | arrayLiteral _ hpack =>
      obtain ⟨_, _, _, rfl, _⟩ := packArray_eq_ok hpack
      rintro _ ⟨⟩
      rfl
  | index _ _ hfinish =>
      rcases plain with rfl | rfl <;>
      · obtain ⟨_, _, rfl⟩ := intoTemp_eq_ok hfinish
        rintro _ ⟨⟩
        rfl

theorem lower_typeOf {expr : Expr}
    (h : expr.lower scope .operand supply = .ok ⟨some operand, code⟩ after) :
    operand.ty = scope.typeOf expr :=
  result_typeOf (.inl rfl) h operand rfl

theorem lowerAll_typeOf {exprs : List Expr} {operands : List Operand}
    (h : lowerAll scope exprs supply = .ok (operands, code) after) :
    operands.map Operand.ty = exprs.map scope.typeOf := by
  induction h using lowerAll_induction with
  | nil => rfl
  | cons hfirst _ ih =>
      rw [List.map_cons, List.map_cons, lower_typeOf hfirst, ih]

theorem lowerAll_length {exprs : List Expr} {operands : List Operand}
    (h : lowerAll scope exprs supply = .ok (operands, code) after) :
    operands.length = exprs.length := by
  simpa using congrArg List.length (lowerAll_typeOf h)

/--
An operand that is not used in place is read without effect, unless the
expression has no value at all.
-/
theorem lower_settled (self : Value) (oracle : Oracle) {expr : Expr}
    {dest : Destination} {lowered : Lowered}
    (plain : dest = .operand ∨ dest = .discarded)
    (reserved : scope.Reserved supply)
    (h : expr.lower scope dest supply = .ok lowered after) :
    ∀ operand, lowered.result = some operand →
      operand.Settled after ∨ ∀ locals,
        expr.eval (scope.setting self oracle) locals = Effect.stuck := by
  induction h using lower_induction (fun _ _ _ _ _ => True) with
  | nil | cons => trivial
  | int | bool | self | readEnclosing =>
      rintro _ ⟨⟩
      exact .inl trivial
  | readVar origin =>
      rintro _ ⟨⟩
      exact .inl (.inl (reserved _ ⟨_, origin⟩))
  | readClass origin => exact fun _ _ => .inr (eval_unresolved origin)
  | readField _ drawn | newObject drawn | not _ drawn | newArray _ drawn
  | length _ drawn =>
      rintro _ ⟨⟩
      exact .inl drawn.kept
  | paren _ ih =>
      intro operand known
      refine (ih plain reserved operand known).imp_right fun stuck locals => ?_
      rw [eval, stuck]
  | and _ drawn hright hend right =>
      rintro _ ⟨⟩
      have extend := ((Lower.labelled_of_label hright
        (by decide)).toExtends.trans (Lower.labelled_of_label hend
        (by decide)).toExtends).trans (lower_draws right).toExtends
      exact .inl (extend.kept drawn.kept)
  | binary _ _ _ _ drawn =>
      rintro _ ⟨⟩
      exact .inl drawn.kept
  | call _ _ _ hfinish =>
      rcases plain with rfl | rfl
      · obtain ⟨_, drawn, rfl⟩ := intoTemp_eq_ok hfinish
        rintro _ ⟨⟩
        exact .inl drawn.kept
      · obtain ⟨rfl, _⟩ := Action.pure_eq_ok.mp hfinish
        rintro _ ⟨⟩
  | arrayLiteral _ hpack =>
      obtain ⟨_, drawn, _, rfl, _⟩ := packArray_eq_ok hpack
      rintro _ ⟨⟩
      exact .inl drawn.kept
  | index _ _ hfinish =>
      rcases plain with rfl | rfl <;>
      · obtain ⟨_, drawn, rfl⟩ := intoTemp_eq_ok hfinish
        rintro _ ⟨⟩
        exact .inl drawn.kept

end Tree.Expr

/-! ## Following an expression -/

structure Activation where
  scope : Scope
  method : Ir.Method
  self : Value
  oracle : Oracle

namespace Activation

variable (run : Activation)

def tree : Tree.Setting := run.scope.setting run.self run.oracle

def code : Ir.Setting := .named run.self run.oracle

def Delivers (lowered : Lowered) (reached : Ir.State) {β : Type}
    (next : Value → Effect β) (post : β → World → Ir.State → Prop) : Prop :=
  match lowered.result with
  | some operand =>
      Runs run.code run.method reached
        ((operand.read run.code reached.vars >>= next) reached.world) post
  | none => ∀ value,
      Runs run.code run.method reached (next value reached.world) post

/-- Whatever is done after the code is done with the value of the tree. -/
def Simulates (locals : Locals) (expr : Tree.Expr) : Prop :=
  ∀ ⦃dest supply lowered after start⦄ ⦃β : Type⦄ ⦃next : Value → Effect β⦄
    ⦃post⦄, run.scope.Reserved supply →
    expr.lower run.scope dest supply = .ok lowered after →
    Placed run.method start.pc lowered.code →
    run.scope.Agrees locals start.vars →
    (∀ reached, reached.pc = start.pc + position lowered.code →
      supply.Preserves start.vars reached.vars →
      run.Delivers lowered reached next post) →
    Runs run.code run.method start
      ((expr.eval run.tree locals >>= next) start.world) post

variable {run : Activation} {locals : Locals} {β : Type}
  {supply after : Supply}
  {start : Ir.State} {post : β → World → Ir.State → Prop}

theorem delivers_some {op : Operand} {code : List Fragment}
    {reached : Ir.State} {next : Value → Effect β} :
    run.Delivers ⟨some op, code⟩ reached next post ↔
      Runs run.code run.method reached
        ((op.read run.code reached.vars >>= next) reached.world) post :=
  Iff.rfl

theorem delivers_of_gives {op : Operand} {code : List Fragment}
    {reached : Ir.State} {next : Value → Effect β} {value : Value}
    (known : op.read run.code reached.vars = pure value) :
    run.Delivers ⟨some op, code⟩ reached next post ↔
      Runs run.code run.method reached (next value reached.world) post := by
  rw [delivers_some, known, pure_bind]

theorem Simulates.operand {expr : Tree.Expr} (sim : run.Simulates locals expr)
    {op : Operand} {code : List Fragment} {next : Value → Effect β}
    (reserved : run.scope.Reserved supply)
    (h : expr.lower run.scope .operand supply = .ok ⟨some op, code⟩ after)
    (placed : Placed run.method start.pc code)
    (agrees : run.scope.Agrees locals start.vars)
    (rest : ∀ reached value, reached.pc = start.pc + position code →
      supply.Preserves start.vars reached.vars →
      op.Gives run.code after reached.vars value →
      Runs run.code run.method reached (next value reached.world) post) :
    Runs run.code run.method start
      ((expr.eval run.tree locals >>= next) start.world) post := by
  rcases Tree.Expr.lower_settled run.self run.oracle (.inl rfl) reserved h op
    rfl with settled | stuck
  · refine sim reserved h placed agrees fun reached atEnd same => ?_
    rcases settled.read run.code reached.vars with ⟨value, gives⟩ | stuck
    · rw [delivers_of_gives gives.now]
      exact rest reached value atEnd same gives
    · rw [delivers_some, stuck]
      exact .stuck
  · rw [tree, stuck]
    exact .stuck

/-! ## Temporaries -/

theorem store_runs {before : Supply} {name : String} {ty : Ty}
    {code : List Fragment} {value : Instr} {mid : Ir.State}
    {next : Value → Effect β} (drawn : supply.Drawn after name)
    (extend : before.Extends supply)
    (placed : Placed run.method start.pc
      (code ++ [.instr (.store (.var name ty) value)]))
    (here : mid.pc = start.pc + position code)
    (same : before.Preserves start.vars mid.vars)
    (rest : ∀ reached, reached.pc = start.pc +
        position (code ++ [.instr (.store (.var name ty) value)]) →
      before.Preserves start.vars reached.vars →
      run.Delivers ⟨some (.var name ty),
        code ++ [.instr (.store (.var name ty) value)]⟩ reached next post) :
    Runs run.code run.method mid
      ((value.value run.code mid.vars >>= next) mid.world) post := by
  have fetch := placed.right.fetch
  rw [← here] at fetch
  refine Runs.next (mid.vars.set name) fetch rfl
    fun value reached atEnd vars => ?_
  have fresh : ¬ before.Kept name := fun kept =>
    drawn.isNew (extend.kept kept)
  have delivers := rest reached (by simp [atEnd, here, Nat.add_assoc])
    (same.trans (vars ▸ .set fresh mid.vars value))
  have known : (Operand.var name ty).read run.code reached.vars =
      pure value := by
    simp [Operand.read, Effect.read, vars]
  exact (delivers_of_gives known).mp delivers

theorem intoTemp_runs {before : Supply} {ty : Ty} {code : List Fragment}
    {value : Instr} {lowered : Lowered} {mid : Ir.State}
    {next : Value → Effect β}
    (h : intoTemp ty code value supply = .ok lowered after)
    (extend : before.Extends supply)
    (placed : Placed run.method start.pc lowered.code)
    (here : mid.pc = start.pc + position code)
    (same : before.Preserves start.vars mid.vars)
    (rest : ∀ reached, reached.pc = start.pc + position lowered.code →
      before.Preserves start.vars reached.vars →
      run.Delivers lowered reached next post) :
    Runs run.code run.method mid
      ((value.value run.code mid.vars >>= next) mid.world) post := by
  obtain ⟨name, drawn, rfl⟩ := intoTemp_eq_ok h
  exact store_runs drawn extend placed here same rest

theorem finishElement_runs {before : Supply} {dest : Destination}
    {element : Operand} {code : List Fragment} {lowered : Lowered}
    {mid : Ir.State} {next : Value → Effect β}
    (h : finishElement element code dest supply = .ok lowered after)
    (extend : before.Extends supply)
    (placed : Placed run.method start.pc lowered.code)
    (here : mid.pc = start.pc + position code)
    (same : before.Preserves start.vars mid.vars)
    (rest : ∀ reached, reached.pc = start.pc + position lowered.code →
      before.Preserves start.vars reached.vars →
      run.Delivers lowered reached next post) :
    Runs run.code run.method mid
      ((element.read run.code mid.vars >>= next) mid.world) post := by
  cases dest with
  | assigned ty =>
      obtain ⟨rfl, rfl⟩ := Action.pure_eq_ok.mp h
      exact rest mid here same
  | returned ty =>
      obtain ⟨rfl, rfl⟩ := Action.pure_eq_ok.mp h
      exact rest mid here same
  | operand => exact intoTemp_runs h extend placed here same rest
  | discarded => exact intoTemp_runs h extend placed here same rest

theorem finishCall_runs {before : Supply} {dest : Destination}
    {call : Ir.Call} {code : List Fragment} {lowered : Lowered}
    {mid : Ir.State} {next : Value → Effect β}
    (h : finishCall call code dest supply = .ok lowered after)
    (extend : before.Extends supply)
    (placed : Placed run.method start.pc lowered.code)
    (here : mid.pc = start.pc + position code)
    (same : before.Preserves start.vars mid.vars)
    (rest : ∀ reached, reached.pc = start.pc + position lowered.code →
      before.Preserves start.vars reached.vars →
      run.Delivers lowered reached next post) :
    Runs run.code run.method mid
      ((call.perform run.code mid.vars >>= next) mid.world) post := by
  cases dest with
  | discarded =>
      obtain ⟨rfl, rfl⟩ := Action.pure_eq_ok.mp h
      have fetch := placed.right.fetch
      rw [← here] at fetch
      refine Runs.next (fun _ => mid.vars) fetch rfl
        fun value reached atEnd vars => ?_
      exact rest reached (by simp [atEnd, here, Nat.add_assoc])
        (vars ▸ same) value
  | assigned ty => exact intoTemp_runs h extend placed here same rest
  | returned ty => exact intoTemp_runs h extend placed here same rest
  | operand => exact intoTemp_runs h extend placed here same rest

/-! ## Several operands -/

/-- The operands have these values, as long as what is kept stays the same. -/
def GivesAll (setting : Ir.Setting) (supply : Supply) (vars : Locals) :
    List Operand → List Value → Prop :=
  List.Forall₂ fun op value => op.Gives setting supply vars value

theorem GivesAll.later {setting : Ir.Setting} {vars vars' : Locals}
    {ops : List Operand} {values : List Value}
    (h : GivesAll setting supply vars ops values)
    (extend : supply.Extends after) (same : supply.Preserves vars vars') :
    GivesAll setting after vars' ops values :=
  h.imp fun _ _ gives => gives.later extend same

theorem GivesAll.readAll {setting : Ir.Setting} {vars : Locals}
    {ops : List Operand} {values : List Value}
    (h : GivesAll setting supply vars ops values) :
    Operand.readAll setting vars ops = pure values := by
  induction h with
  | nil => rfl
  | cons gives _ ih => rw [Operand.readAll, gives.now, ih]; rfl

theorem lowerAll_runs {exprs : List Tree.Expr}
    (each : ∀ expr ∈ exprs, run.Simulates locals expr) {ops : List Operand}
    {code : List Fragment} {next : List Value → Effect β}
    (reserved : run.scope.Reserved supply)
    (h : Tree.Expr.lowerAll run.scope exprs supply = .ok (ops, code) after)
    (placed : Placed run.method start.pc code)
    (agrees : run.scope.Agrees locals start.vars)
    (rest : ∀ reached values, reached.pc = start.pc + position code →
      supply.Preserves start.vars reached.vars →
      GivesAll run.code after reached.vars ops values →
      Runs run.code run.method reached (next values reached.world) post) :
    Runs run.code run.method start
      ((Tree.Expr.evalAll run.tree locals exprs >>= next) start.world)
      post := by
  induction h using Tree.Expr.lowerAll_induction generalizing start next with
  | nil => exact rest start [] rfl (.refl _ _) .nil
  | cons hfirst hrest ih =>
      have extend := (Tree.Expr.lower_draws hfirst).toExtends
      have extendAll := (Tree.Expr.lowerAll_draws hrest).toExtends
      simp only [Tree.Expr.evalAll, bind_assoc, pure_bind]
      refine (each _ (by simp)).operand reserved hfirst placed.left agrees
        fun first value atFirst same gives => ?_
      refine ih (fun expr member => each expr (by simp [member]))
        (reserved.after extend) (atFirst ▸ placed.right)
        (agrees.after reserved same)
        fun reached values atEnd same' givesAll => ?_
      refine rest reached (value :: values)
        (by simp [atEnd, atFirst, Nat.add_assoc])
        (same.trans (same'.mono extend))
        (.cons (gives.later extendAll same') givesAll)

/-! ## Arrays of operands -/

theorem fill_runs {name : String} {array : Value} {ops : List Operand}
    {values : List Value} {vars : Locals} {next : Unit → Effect β}
    (index : Nat) (gives : GivesAll run.code supply vars ops values)
    (holds : vars name = some array) (here : start.vars = vars)
    (placed : Placed run.method start.pc
      ((ops.zipIdx index).map fun (value, index) =>
        .instr (.store (.element name (.int (Int32.ofNat index)))
          (.single value))))
    (rest : ∀ reached, reached.pc = start.pc + ops.length →
      reached.vars = vars →
      Runs run.code run.method reached (next () reached.world) post) :
    Runs run.code run.method start
      ((Effect.fill array index values >>= next) start.world) post := by
  induction gives generalizing index start with
  | nil => exact rest start rfl here
  | @cons op value ops values given _ ih =>
      simp only [List.zipIdx_cons, List.map_cons] at placed
      simp only [Effect.fill, bind_assoc]
      have known : Effect.read vars name = pure array := by
        simp [Effect.read, holds]
      have stores : (Instr.store (.element name (.int (Int32.ofNat index)))
          (.single op)).run run.code start.vars =
            Effect.store array (.word (.ofNat index)) value >>= fun _ =>
              pure (.next vars) := by
        simp only [Instr.store, Instr.run, Instr.value, Operand.int,
          Operand.read, here, known, given.now, pure_bind]
      refine Runs.next (fun _ => vars) placed.fetch stores
        fun _ reached atNext vars => ?_
      refine ih (index + 1) vars (atNext ▸ placed.tail)
        fun last atEnd vars => ?_
      exact rest last (by rw [atEnd, atNext, List.length_cons]; omega) vars

theorem packArray_runs {ops : List Operand} {values : List Value}
    {array : Operand} {code : List Fragment} {next : Value → Effect β}
    (h : packArray ops supply = .ok (array, code) after)
    (gives : GivesAll run.code supply start.vars ops values)
    (placed : Placed run.method start.pc code)
    (rest : ∀ reached value, reached.pc = start.pc + position code →
      supply.Preserves start.vars reached.vars →
      array.Gives run.code after reached.vars value →
      Runs run.code run.method reached (next value reached.world) post) :
    Runs run.code run.method start
      ((Effect.arrayOf values >>= next) start.world) post := by
  obtain ⟨name, drawn, _, rfl, rfl⟩ := packArray_eq_ok h
  have length : ops.length = values.length := gives.length_eq
  have stores : position (elementStores name ops) = ops.length := by
    simp [position, instrs, elementStores, List.filterMap_map]
  simp only [Effect.arrayOf, bind_assoc, pure_bind]
  refine Runs.next (start.vars.set name) placed.fetch (by rw [← length]; rfl)
    fun array first atFirst vars => ?_
  have same : supply.Preserves start.vars first.vars :=
    vars ▸ .set drawn.isNew start.vars array
  have holds : first.vars name = some array := by simp [vars]
  refine fill_runs 0 (gives.later drawn.toExtends same) holds rfl
    (atFirst ▸ placed.tail) fun reached atEnd vars' => ?_
  refine rest reached array (by simp [atEnd, atFirst, stores]; omega)
    (vars' ▸ same) fun later kept => ?_
  have := kept name drawn.kept
  simp [Operand.read, Effect.read, this, vars', holds]

theorem packVarargs_runs {callee : Option Signature} {types : List Ty}
    {ops passed : List Operand} {values : List Value} {code : List Fragment}
    {next : List Value → Effect β}
    (h : packVarargs callee ops supply = .ok (passed, code) after)
    (sameTypes : ops.map Operand.ty = types)
    (gives : GivesAll run.code supply start.vars ops values)
    (placed : Placed run.method start.pc code)
    (rest : ∀ reached values, reached.pc = start.pc + position code →
      supply.Preserves start.vars reached.vars →
      GivesAll run.code after reached.vars passed values →
      Runs run.code run.method reached (next values reached.world) post) :
    Runs run.code run.method start
      ((Tree.passed callee types values >>= next) start.world) post := by
  have length : ops.length = values.length := gives.length_eq
  have arrays (fixed : Nat) : (ops.drop fixed).map (·.ty.isArray) =
      (types.drop fixed).map Ty.isArray := by
    rw [← sameTypes, ← List.map_drop, List.map_map]
    rfl
  rcases packVarargs_eq_ok h with ⟨passesAll, rfl, rfl, rfl⟩ |
    ⟨fixed, array, ⟨signature, rfl, vararg, rfl, enough, packs⟩, hpack, rfl⟩
  · have asIs : Tree.passed callee types values = pure values := by
      cases callee with
      | none => rfl
      | some signature =>
          by_cases vararg : signature.hasVararg = true
          · obtain ⟨enough, single⟩ := passesAll signature rfl vararg
            rw [arrays] at single
            simp [Tree.passed, vararg, single, ← length,
              Nat.not_lt.mpr enough]
          · simp [Tree.passed, vararg]
    rw [asIs, pure_bind]
    exact rest start values rfl (.refl _ _) gives
  · have packed : Tree.passed (some signature) types values =
        (Effect.arrayOf (values.drop (signature.params.length - 1)) >>=
          fun array => pure
            (values.take (signature.params.length - 1) ++ [array])) := by
      rw [arrays] at packs
      simp only [Tree.passed, vararg, packs, ← length,
        Nat.not_lt.mpr enough, Bool.not_true, Bool.false_eq_true, if_false]
    simp only [packed, bind_assoc, pure_bind]
    refine packArray_runs hpack (List.forall₂_drop _ gives) placed
      fun reached value atEnd same given => ?_
    have extend := (packArray_draws hpack).toExtends
    have first : GivesAll run.code after reached.vars
        (ops.take (signature.params.length - 1))
        (values.take (signature.params.length - 1)) :=
      List.forall₂_take _ (GivesAll.later gives extend same)
    exact rest reached _ atEnd same (List.rel_append first (.cons given .nil))

end Activation

end JavaMinus
