import JavaMinus.Lowering.Program
import JavaMinus.Proofs.Constants.Congruence
import JavaMinus.Proofs.Lowering.Kinds

/-!
# Why lowering fails

Trees come with promises: that only variables, fields and elements are
assigned, that only arrays are indexed, that no operation yields a vararg, that
a method gets all its fixed arguments, and that an array is not longer than an
int can say.  Lowering fails for no other reason than a node that breaks one of
them, and the error is the one that belongs to that node.
-/

namespace JavaMinus

open Ir (Operand Instr Call CallKind Fragment)
open Lowering

/-! ## Broken promises -/

/-- The promise that a call with so many arguments breaks. -/
def Signature.breach? (signature : Signature) (count : Nat) : Option Breach :=
  let fixed := signature.params.length - 1
  if !signature.hasVararg then none
  else if count < fixed then
    some (.tooFewArguments signature.name count fixed)
  else if 2147483647 < count - fixed then some .arrayTooLong
  else none

namespace Tree.Expr

mutual

def preorder : Expr → List Expr
  | expr@(.binary _ _ first second) | expr@(.index _ first second) =>
      expr :: (first.preorder ++ second.preorder)
  | expr@(.not _ inner) | expr@(.paren _ inner) | expr@(.newArray _ inner)
  | expr@(.length _ inner) => expr :: inner.preorder
  | expr@(.call _ receiver _ args) =>
      expr :: (receiver.preorder ++ preorderAll args)
  | expr@(.arrayLiteral _ elements) => expr :: preorderAll elements
  | expr => [expr]

def preorderAll : List Expr → List Expr
  | [] => []
  | expr :: rest => expr.preorder ++ preorderAll rest

end

/-- The operand of an expression that is neither computed nor a variable. -/
def fixed? (scope : Scope) (expr : Expr) : Option Operand :=
  match expr.skipParens with
  | .int _ value => some (.int value)
  | .bool _ value => some (.bool value)
  | .self _ => some (.self scope.className)
  | .var _ name =>
      if scope.resolve name = .enclosing then some (.self scope.className)
      else none
  | _ => none

/-- The promise that an expression breaks, whatever is inside it. -/
def breach? (scope : Scope) : Expr → Option Breach
  | .binary attr op _ _ =>
      if op ≠ .and ∧ attr.ty = .vararg then some .escapedVararg else none
  | .index _ array _ => (array.fixed? scope).map .notIndexable
  | .call _ receiver method args => do
      let signature ← scope.ownMethod? receiver method
      signature.breach? args.length
  | .arrayLiteral _ elements =>
      if 2147483647 < elements.length then some .arrayTooLong else none
  | _ => none

end Tree.Expr

/-- What is assigned is neither an element nor a variable nor a field. -/
def Tree.Stmt.breach? (scope : Scope) : Stmt → Option Breach
  | .assign _ target _ =>
      match target.skipParens with
      | .index _ _ _ => none
      | .var _ name =>
          match scope.resolve name with
          | .localVar _ | .param _ | .field _ => none
          | .imported _ | .enclosing | .unknown => some (.notAssignable name)
      | _ => some (.badTarget target)
  | _ => none

namespace Tree

def Expr.Breaks (scope : Scope) (expr : Expr) (cause : Breach) : Prop :=
  ∃ part ∈ expr.preorder, part.breach? scope = some cause

def Stmt.Breaks (scope : Scope) (stmt : Stmt) (cause : Breach) : Prop :=
  ∃ part ∈ stmt.preorder, part.breach? scope = some cause ∨
    ∃ expr ∈ part.parts, expr.Breaks scope cause

end Tree

def Destination.IsPlain : Destination → Prop
  | .assigned ty | .returned ty => ty ≠ .vararg
  | .operand | .discarded => True

theorem Destination.isPlain_operand : Destination.operand.IsPlain := trivial

theorem Destination.isPlain_discarded : Destination.discarded.IsPlain :=
  trivial

theorem Ty.valueTy_ne_vararg (ty : Ty) : ty.valueTy ≠ .vararg := by
  cases ty <;> simp [valueTy]

/-! ## Causes of failure -/

namespace Lowering

variable {α β : Type} {scope : Scope} {causes : Breach → Prop}

def Raises (action : Lower α) (causes : Breach → Prop) : Prop :=
  ∀ ⦃supply cause after⦄, action supply = .error cause after → causes cause

namespace Raises

theorem nothing (value : α) : Raises (pure value) causes := nofun

theorem mono {action : Lower α} {fewer : Breach → Prop}
    (h : Raises action fewer) (le : ∀ cause, fewer cause → causes cause) :
    Raises action causes :=
  fun _ cause _ failed => le cause (h failed)

theorem bind {first : Lower α} {second : α → Lower β}
    (h : Raises first causes)
    (h' : ∀ ⦃supply value mid⦄, first supply = .ok value mid →
      Raises (second value) causes) :
    Raises (first >>= second) causes := by
  intro supply cause after failed
  cases atStart : first supply with
  | ok value mid =>
      rw [Action.bind_of_ok atStart] at failed
      exact h' atStart failed
  | error cause' after' =>
      rw [Action.bind_of_error atStart] at failed
      cases failed
      exact h atStart

end Raises

theorem label_raises (stem : String) : Raises (Lower.label stem) causes :=
  nofun

theorem tempName_raises (ty : Ty)
    (escapes : ty = .vararg → causes .escapedVararg) :
    Raises (Lower.tempName ty) causes := by
  intro supply cause after failed
  cases ty with
  | vararg =>
      cases failed
      exact escapes rfl
  | _ => cases failed

theorem temp_raises (ty : Ty)
    (escapes : ty = .vararg → causes .escapedVararg) :
    Raises (Lower.temp ty) causes :=
  (tempName_raises ty escapes).bind fun _ _ _ _ => .nothing _

theorem intoTemp_raises (ty : Ty) (code : List Fragment) (value : Instr)
    (escapes : ty = .vararg → causes .escapedVararg) :
    Raises (intoTemp ty code value) causes :=
  (temp_raises ty escapes).bind fun _ _ _ _ => .nothing _

theorem packArray_raises (values : List Operand)
    (tooLong : 2147483647 < values.length → causes .arrayTooLong) :
    Raises (packArray values) causes := by
  refine (temp_raises _ nofun).bind fun _ array _ drawn => ?_
  obtain ⟨name, rfl, _⟩ := Lower.drawn_of_temp drawn
  simp only [Operand.varName?]
  split
  next long =>
    intro supply cause after failed
    cases failed
    exact tooLong long
  next => exact .nothing _

theorem packVarargs_raises {callee : Option Signature} (args : List Operand)
    (breaks : ∀ signature cause, callee = some signature →
      signature.breach? args.length = some cause → causes cause) :
    Raises (packVarargs callee args) causes := by
  cases callee with
  | none => exact .nothing _
  | some signature =>
      rw [packVarargs]
      split
      next => exact .nothing _
      next vararg =>
        have packs (enough : ¬ args.length < signature.params.length - 1) :
            Raises (packVarargs.pack args (signature.params.length - 1)
              (args.drop (signature.params.length - 1))) causes := by
          refine (packArray_raises _ fun long => ?_).bind
            fun _ _ _ _ => .nothing _
          rw [List.length_drop] at long
          exact breaks signature _ rfl
            ((if_neg vararg).trans ((if_neg enough).trans (if_pos long)))
        dsimp only
        split
        next few =>
          intro supply cause after failed
          cases failed
          exact breaks signature _ rfl
            ((if_neg vararg).trans (if_pos few))
        next enough =>
          split
          next =>
            split
            next => exact .nothing _
            next => exact packs enough
          next => exact packs enough

end Lowering

/-! ## Expressions -/

namespace Tree.Expr

variable {scope : Scope} {causes : Breach → Prop} {expr inner : Expr}
  {cause : Breach} {supply after : Supply}

def IsSource (scope : Scope) (after : Supply) (expr : Expr) (name : String) :
    Prop :=
  after.Kept name ∨ ∃ attr, expr.skipParens = .var attr name ∧
    (scope.IsVariable name ∨ scope.hasValue name = false)

/-- An expression yields a variable, or what it is fixed to. -/
def Yields (scope : Scope) (after : Supply) (expr : Expr)
    (lowered : Lowered) : Prop :=
  (∃ name ty, lowered.result = some (.var name ty) ∧
    expr.IsSource scope after name) ∨
  ∃ operand, lowered.result = some operand ∧
    expr.fixed? scope = some operand

theorem yields_drawn {name : String} (ty : Ty) (code : List Fragment)
    (drawn : supply.Drawn after name) :
    expr.Yields scope after ⟨some (.var name ty), code⟩ :=
  .inl ⟨name, ty, rfl, .inl drawn.kept⟩

theorem yields_intoTemp {ty : Ty} {code : List Fragment} {value : Instr}
    {lowered : Lowered}
    (h : intoTemp ty code value supply = .ok lowered after) :
    expr.Yields scope after lowered := by
  obtain ⟨name, drawn, rfl⟩ := intoTemp_eq_ok h
  exact yields_drawn ty _ drawn

theorem yields_finishCall {dest : Destination} {call : Call}
    {code : List Fragment} {lowered : Lowered} (used : dest ≠ .discarded)
    (h : finishCall call code dest supply = .ok lowered after) :
    expr.Yields scope after lowered := by
  cases dest with
  | discarded => exact absurd rfl used
  | assigned ty | returned ty | operand => exact yields_intoTemp h

theorem yields_finishElement {dest : Destination} {element : Operand}
    {code : List Fragment} {lowered : Lowered}
    (h : finishElement element code dest supply = .ok lowered after) :
    expr.Yields scope after lowered ∨
      dest ≠ .operand ∧ ∃ element, lowered.result = some element := by
  cases dest with
  | assigned ty | returned ty =>
      obtain ⟨rfl, _⟩ := Action.pure_eq_ok.mp h
      exact .inr ⟨by simp, _, rfl⟩
  | operand | discarded => exact .inl (yields_intoTemp h)

/--
Only a call whose value is dropped yields nothing, and only an element that is
not copied is more than an expression yields otherwise.
-/
theorem lower_yields {dest : Destination} {lowered : Lowered}
    (used : dest ≠ .discarded)
    (h : expr.lower scope dest supply = .ok lowered after) :
    expr.Yields scope after lowered ∨
      dest ≠ .operand ∧ ∃ element, lowered.result = some element := by
  induction h using lower_induction (fun _ _ _ _ _ => True) with
  | nil | cons => trivial
  | int | bool | self => exact .inl (.inr ⟨_, rfl, rfl⟩)
  | readVar origin =>
      exact .inl (.inl ⟨_, _, rfl, .inr ⟨_, rfl, .inl ⟨_, origin⟩⟩⟩)
  | readEnclosing origin =>
      exact .inl (.inr ⟨_, rfl, by simp [fixed?, skipParens, origin]⟩)
  | readClass origin =>
      refine .inl (.inl ⟨_, _, rfl, .inr ⟨_, rfl, .inr ?_⟩⟩)
      rcases origin with origin | ⟨path, origin⟩ <;>
        simp [Scope.hasValue, origin]
  | readField _ drawn | newObject drawn | not _ drawn | newArray _ drawn
  | length _ drawn => exact .inl (yields_drawn _ _ drawn)
  | paren _ ih => exact ih used
  | and _ drawn hright hend right =>
      have extend := ((Lower.labelled_of_label hright
        (by decide)).toExtends.trans (Lower.labelled_of_label hend
        (by decide)).toExtends).trans (lower_draws right).toExtends
      exact .inl (.inl ⟨_, _, rfl, .inl (extend.kept drawn.kept)⟩)
  | binary _ _ _ _ drawn => exact .inl (yields_drawn _ _ drawn)
  | call _ _ _ hfinish => exact .inl (yields_finishCall used hfinish)
  | arrayLiteral _ hpack =>
      obtain ⟨_, drawn, _, rfl, _⟩ := packArray_eq_ok hpack
      exact .inl (yields_drawn _ _ drawn)
  | index _ _ hfinish => exact yields_finishElement hfinish

theorem lower_result {dest : Destination} {lowered : Lowered}
    (used : dest ≠ .discarded)
    (h : expr.lower scope dest supply = .ok lowered after) :
    ∃ operand, lowered.result = some operand := by
  rcases lower_yields used h with
    (⟨name, ty, known, _⟩ | ⟨operand, known, _⟩) | ⟨_, element, known⟩
  · exact ⟨_, known⟩
  · exact ⟨_, known⟩
  · exact ⟨_, known⟩

theorem parts_raises {lowered : Lowered}
    (h : ∃ operand, lowered.result = some operand) :
    Raises lowered.parts causes := by
  obtain ⟨result, code⟩ := lowered
  obtain ⟨operand, rfl⟩ := h
  exact .nothing _

theorem operand_raises {β : Type} {dest : Destination}
    {next : Operand × List Fragment → Lower β} (used : dest ≠ .discarded)
    (h : Raises (expr.lower scope dest) causes)
    (h' : ∀ ⦃supply operand code mid⦄,
      expr.lower scope dest supply = .ok ⟨some operand, code⟩ mid →
      Raises (next (operand, code)) causes) :
    Raises (do next (← (← expr.lower scope dest).parts)) causes := by
  refine h.bind fun supply lowered mid hlower => ?_
  refine (parts_raises (lower_result used hlower)).bind fun _ pair _ h => ?_
  obtain ⟨rfl, _⟩ := parts_eq_ok.mp h
  exact h' hlower

theorem arrayName_raises {operand : Operand} {code : List Fragment}
    (h : expr.lower scope .operand supply = .ok ⟨some operand, code⟩ after)
    (fixed : expr.fixed? scope = some operand →
      causes (.notIndexable operand)) :
    Raises (arrayName operand) causes := by
  rcases lower_yields (by simp) h with
    (⟨name, ty, known, _⟩ | ⟨other, known, isFixed⟩) | ⟨other, _⟩
  · cases known
    exact .nothing _
  · cases known
    intro supply cause after failed
    cases operand with
    | var name ty => cases failed
    | literal | element | self | field =>
        cases failed
        exact fixed isFixed
  · exact absurd rfl other

theorem lowerAll_raises {exprs : List Expr}
    (each : ∀ expr ∈ exprs, Raises (expr.lower scope .operand) causes) :
    Raises (lowerAll scope exprs) causes := by
  induction exprs with
  | nil => exact .nothing _
  | cons expr rest ih =>
      have others := ih fun expr member => each expr (by simp [member])
      rw [lowerAll]
      refine operand_raises (by simp) (each expr (by simp)) fun _ _ _ _ _ => ?_
      exact others.bind fun _ _ _ _ => .nothing _

/-! ### Parts -/

theorem mem_preorder_self (expr : Expr) : expr ∈ expr.preorder := by
  cases expr <;> simp [preorder]

theorem preorder_skipParens_subset (expr : Expr) :
    expr.skipParens.preorder ⊆ expr.preorder := by
  induction expr with
  | paren attr inner ih => exact fun part inside => .tail _ (ih inside)
  | _ => exact fun part inside => inside

theorem preorder_subset_preorderAll {exprs : List Expr}
    (member : expr ∈ exprs) : expr.preorder ⊆ preorderAll exprs := by
  induction exprs with
  | nil => cases member
  | cons other rest ih =>
      intro part inside
      rcases List.mem_cons.mp member with rfl | member
      · exact List.mem_append_left _ inside
      · exact List.mem_append_right _ (ih member inside)

theorem Breaks.own (h : expr.breach? scope = some cause) :
    expr.Breaks scope cause :=
  ⟨expr, expr.mem_preorder_self, h⟩

theorem Breaks.inside (h : inner.Breaks scope cause)
    (subset : inner.preorder ⊆ expr.preorder) : expr.Breaks scope cause := by
  obtain ⟨part, member, broken⟩ := h
  exact ⟨part, subset member, broken⟩

/-! ### Failures -/

theorem readName_raises (name : String) :
    Raises (readName scope name) causes := by
  rw [readName]
  split
  case h_3 symbol _ =>
    exact intoTemp_raises _ _ _ fun escapes =>
      absurd escapes symbol.ty.valueTy_ne_vararg
  all_goals exact .nothing _

theorem finishElement_raises (element : Operand) (code : List Fragment)
    (dest : Destination) : Raises (finishElement element code dest) causes := by
  cases dest with
  | assigned | returned => exact .nothing _
  | operand | discarded => exact intoTemp_raises _ _ _ nofun

theorem finishCall_raises {dest : Destination} (call : Call)
    (code : List Fragment)
    (escapes : dest ≠ .discarded → call.returnTy = .vararg →
      causes .escapedVararg) :
    Raises (finishCall call code dest) causes := by
  cases dest with
  | discarded => exact .nothing _
  | assigned | returned | operand =>
      exact intoTemp_raises _ _ _ (escapes nofun)

theorem callTy_ne_vararg {dest : Destination} (plain : dest.IsPlain)
    (used : dest ≠ .discarded) (callee : Option Signature) (ty : Ty) :
    callTy callee ty dest ≠ .vararg := by
  cases dest with
  | discarded => exact absurd rfl used
  | assigned | returned => exact plain
  | operand => exact ty.valueTy_ne_vararg

theorem raises_inside {α : Type} {action : Lower α}
    (h : Raises action (inner.Breaks scope))
    (subset : inner.preorder ⊆ expr.preorder) :
    Raises action (expr.Breaks scope) :=
  h.mono fun _ broken => broken.inside subset

theorem lower_call_raises {dest : Destination} (plain : dest.IsPlain)
    (attr : Attr) {receiver : Expr} (method : String) {args : List Expr}
    (onReceiver : Raises (receiver.lower scope .operand)
      (receiver.Breaks scope))
    (onArgs : ∀ arg ∈ args,
      Raises (arg.lower scope .operand) (arg.Breaks scope)) :
    Raises ((Expr.call attr receiver method args).lower scope dest)
      ((Expr.call attr receiver method args).Breaks scope) := by
  have rest {kind : CallKind} {target : Operand} {targetCode : List Fragment}
      {supply first : Supply}
      (receives : Receives scope receiver kind target targetCode supply first) :
      Raises (do
        let callee := callee? scope kind target method
        let lowered ← lowerAll scope args
        let packed ← packVarargs callee lowered.1
        let returnTy := callTy callee attr.ty dest
        finishCall
          { kind, target, method := some method, args := packed.1, returnTy }
          (targetCode ++ lowered.2 ++ packed.2) dest)
        ((Expr.call attr receiver method args).Breaks scope) := by
    have each : ∀ arg ∈ args, Raises (arg.lower scope .operand)
        ((Expr.call attr receiver method args).Breaks scope) := by
      intro arg member
      refine raises_inside (onArgs arg member) fun part inside => ?_
      simp [preorder, preorder_subset_preorderAll member inside]
    refine (lowerAll_raises each).bind fun _ lowered _ hargs => ?_
    obtain ⟨operands, argCode⟩ := lowered
    have count := lowerAll_length hargs
    have packs : Raises
        (packVarargs (callee? scope kind target method) operands)
        ((Expr.call attr receiver method args).Breaks scope) := by
      refine packVarargs_raises operands fun signature cause known broken => ?_
      rw [(receives_callee? receives method).2] at known
      rw [count] at broken
      exact Breaks.own (by simp [breach?, known, broken])
    exact packs.bind fun _ _ _ _ => finishCall_raises _ _ fun used escapes =>
      absurd escapes (callTy_ne_vararg plain used _ _)
  rw [lower]
  rcases direct : directReceiver? scope receiver with _ | ⟨kind, target⟩
  · have target : Raises (receiver.lower scope .operand)
        ((Expr.call attr receiver method args).Breaks scope) :=
      raises_inside onReceiver fun part inside => by simp [preorder, inside]
    refine operand_raises (by simp) target
      fun supply target code mid hlower => ?_
    refine (Raises.nothing _).bind fun _ triple _ h => ?_
    obtain ⟨rfl, _⟩ := Action.pure_eq_ok.mp h
    exact rest (.inr ⟨direct, rfl, hlower⟩)
  · refine (Raises.nothing _).bind fun supply triple mid h => ?_
    obtain ⟨rfl, rfl⟩ := Action.pure_eq_ok.mp h
    exact rest (.inl ⟨direct, rfl, rfl⟩ :
      Receives scope receiver kind target [] supply supply)

/--
Lowering an expression fails only where a promise is broken in it.  A failure
may come at any point, so the induction is on the tree and not on a run.
-/
theorem lower_raises {dest : Destination} (plain : dest.IsPlain)
    (expr : Expr) : Raises (expr.lower scope dest) (expr.Breaks scope) := by
  induction expr generalizing dest with
  | int | bool | self =>
      rw [lower]
      exact .nothing _
  | var attr name =>
      rw [lower]
      exact readName_raises name
  | paren attr inner ih =>
      rw [lower]
      exact raises_inside (ih plain) fun part inside => by
        simp [preorder, inside]
  | binary attr op left right ihLeft ihRight =>
      have onLeft : Raises (left.lower scope .operand)
          ((Expr.binary attr op left right).Breaks scope) :=
        raises_inside (ihLeft trivial) fun part inside => by
          simp [preorder, inside]
      have onRight : Raises (right.lower scope .operand)
          ((Expr.binary attr op left right).Breaks scope) :=
        raises_inside (ihRight trivial) fun part inside => by
          simp [preorder, inside]
      by_cases isAnd : op = .and
      · subst isAnd
        rw [lower]
        refine operand_raises (by simp) onLeft fun _ _ _ _ _ => ?_
        refine (temp_raises _ (by simp)).bind fun _ _ _ _ => ?_
        refine (label_raises _).bind fun _ _ _ _ => ?_
        refine (label_raises _).bind fun _ _ _ _ => ?_
        exact operand_raises (by simp) onRight fun _ _ _ _ _ => .nothing _
      · rw [lower]
        · refine operand_raises (by simp) onLeft fun _ _ _ _ _ => ?_
          refine operand_raises (by simp) onRight fun _ _ _ _ _ => ?_
          exact intoTemp_raises _ _ _ fun escapes =>
            Breaks.own (if_pos ⟨isAnd, escapes⟩)
        · exact isAnd
  | not attr inner ih | newArray attr inner ih | length attr inner ih =>
      rw [lower]
      refine operand_raises (by simp) (raises_inside (ih trivial) ?_)
        fun _ _ _ _ _ => intoTemp_raises _ _ _ (by simp)
      exact fun part inside => by simp [preorder, inside]
  | call attr receiver method args ih ihArgs =>
      exact lower_call_raises plain attr method (ih trivial)
        fun arg member => ihArgs arg member trivial
  | newObject attr className =>
      rw [lower]
      exact (temp_raises _ (by simp)).bind fun _ _ _ _ => .nothing _
  | arrayLiteral attr elements ih =>
      have each : ∀ element ∈ elements, Raises (element.lower scope .operand)
          ((Expr.arrayLiteral attr elements).Breaks scope) := by
        intro element member
        refine raises_inside (ih element member trivial) fun part inside => ?_
        simp [preorder, preorder_subset_preorderAll member inside]
      rw [lower]
      refine (lowerAll_raises each).bind fun _ lowered _ helements => ?_
      obtain ⟨operands, code⟩ := lowered
      have count := lowerAll_length helements
      refine (packArray_raises operands fun long => ?_).bind
        fun _ _ _ _ => .nothing _
      exact Breaks.own (if_pos (count ▸ long))
  | index attr array position ihArray ihPosition =>
      rw [lower]
      refine operand_raises (by simp) (raises_inside (ihArray trivial) ?_)
        fun _ operand _ _ harray => ?_
      · exact fun part inside => by simp [preorder, inside]
      refine (arrayName_raises harray fun isFixed => ?_).bind
        fun _ _ _ _ => ?_
      · exact Breaks.own (by simp [breach?, isFixed])
      refine operand_raises (by simp) (raises_inside (ihPosition trivial) ?_)
        fun _ _ _ _ _ => finishElement_raises _ _ _
      exact fun part inside => by simp [preorder, inside]

theorem lowerOperand_raises (expr : Expr) :
    Raises (expr.lowerOperand scope) (expr.Breaks scope) :=
  (lower_raises Destination.isPlain_operand expr).bind
    fun _ _ _ hlower => parts_raises (lower_result (by simp) hlower)

end Tree.Expr

/-! ## Statements -/

namespace Tree.Stmt

variable {scope : Scope} {stmt inner : Stmt} {cause : Breach} {expr : Expr}

theorem mem_preorder_self (stmt : Stmt) : stmt ∈ stmt.preorder := by
  cases stmt <;> simp [preorder]

theorem Breaks.own (h : stmt.breach? scope = some cause) :
    stmt.Breaks scope cause :=
  ⟨stmt, stmt.mem_preorder_self, .inl h⟩

theorem Breaks.part (h : expr.Breaks scope cause) (member : expr ∈ stmt.parts) :
    stmt.Breaks scope cause :=
  ⟨stmt, stmt.mem_preorder_self, .inr ⟨expr, member, h⟩⟩

theorem Breaks.inside (h : inner.Breaks scope cause)
    (subset : inner.preorder ⊆ stmt.preorder) : stmt.Breaks scope cause := by
  obtain ⟨part, member, broken⟩ := h
  exact ⟨part, subset member, broken⟩

theorem raises_part {α : Type} {action : Lower α}
    (h : Raises action (expr.Breaks scope)) (member : expr ∈ stmt.parts) :
    Raises action (stmt.Breaks scope) :=
  h.mono fun _ broken => Breaks.part broken member

theorem raises_inside {α : Type} {action : Lower α}
    (h : Raises action (inner.Breaks scope))
    (subset : inner.preorder ⊆ stmt.preorder) :
    Raises action (stmt.Breaks scope) :=
  h.mono fun _ broken => broken.inside subset

theorem lowerAll_raises {causes : Breach → Prop} {stmts : List Stmt}
    (each : ∀ stmt ∈ stmts, Raises (stmt.lower scope) causes) :
    Raises (lowerAll scope stmts) causes := by
  induction stmts with
  | nil => exact .nothing _
  | cons stmt rest ih =>
      have others := ih fun stmt member => each stmt (by simp [member])
      rw [lowerAll]
      refine (each stmt (by simp)).bind fun _ _ _ _ => ?_
      exact others.bind fun _ _ _ _ => .nothing _

theorem value_raises {α : Type} {dest : Destination}
    {next : Operand × List Fragment → Lower α} (used : dest ≠ .discarded)
    (plain : dest.IsPlain) (member : expr ∈ stmt.parts)
    (h : ∀ pair, Raises (next pair) (stmt.Breaks scope)) :
    Raises (do next (← (← expr.lower scope dest).parts))
      (stmt.Breaks scope) :=
  Expr.operand_raises used (raises_part (Expr.lower_raises plain expr) member)
    fun _ _ _ _ _ => h _

theorem assignVar_raises (name : String) (ty : Ty)
    (member : expr ∈ stmt.parts) :
    Raises (assignVar scope name ty.valueTy expr) (stmt.Breaks scope) := by
  rw [assignVar]
  split
  · exact .nothing _
  · exact value_raises (by simp) ty.valueTy_ne_vararg member fun _ => .nothing _

theorem assignElement_raises (span : Span) {attr : Attr}
    {target array position : Expr} (value : Expr)
    (form : target.skipParens = .index attr array position) :
    Raises (assignElement scope array position value)
      ((Stmt.assign span target value).Breaks scope) := by
  have whole := form ▸ target.preorder_skipParens_subset
  have onArray : Raises (array.lowerOperand scope) (target.Breaks scope) :=
    Expr.raises_inside (Expr.lowerOperand_raises array) fun part inside =>
      whole (by simp [Expr.preorder, inside])
  have onPosition : Raises (position.lowerOperand scope)
      (target.Breaks scope) :=
    Expr.raises_inside (Expr.lowerOperand_raises position) fun part inside =>
      whole (by simp [Expr.preorder, inside])
  refine (raises_part onArray (by simp [parts])).bind
    fun _ pair _ harray => ?_
  obtain ⟨operand, code⟩ := pair
  refine (Expr.arrayName_raises (Expr.lowerOperand_eq_ok harray)
    fun isFixed => ?_).bind fun _ _ _ _ => ?_
  · have broken : (Expr.index attr array position).Breaks scope
        (.notIndexable operand) :=
      Expr.Breaks.own (by simp [Expr.breach?, isFixed])
    exact Breaks.part (broken.inside whole) (by simp [parts])
  refine (raises_part onPosition (by simp [parts])).bind fun _ _ _ _ => ?_
  have isPlain : (Destination.assigned .int).IsPlain := nofun
  exact value_raises (by simp) isPlain (by simp [parts]) fun _ => .nothing _

theorem assign_raises (span : Span) (target value : Expr) :
    Raises (Lowering.assign scope target value)
      ((Stmt.assign span target value).Breaks scope) := by
  have isPart : value ∈ (Stmt.assign span target value).parts := by
    simp [parts]
  rw [Lowering.assign]
  cases form : target.skipParens with
  | var attr name =>
      cases origin : scope.resolve name with
      | localVar symbol | param symbol =>
          simp only [origin]
          exact assignVar_raises name symbol.ty isPart
      | field symbol =>
          simp only [origin]
          exact value_raises (by simp) symbol.ty.valueTy_ne_vararg isPart
            fun _ => .nothing _
      | imported | enclosing | unknown =>
          simp only [origin]
          intro supply cause after failed
          cases failed
          exact Breaks.own (by simp [breach?, form, origin])
  | index attr array position => exact assignElement_raises span value form
  | _ =>
      intro supply cause after failed
      cases failed
      exact Breaks.own (by simp [breach?, form])

theorem lower_raises (stmt : Stmt) :
    Raises (stmt.lower scope) (stmt.Breaks scope) := by
  induction stmt with
  | block span body ih =>
      rw [lower]
      refine lowerAll_raises fun stmt member => ?_
      refine raises_inside (ih stmt member) fun part inside => ?_
      exact List.mem_cons_of_mem _ (mem_preorderAll.mpr ⟨stmt, member, inside⟩)
  | assign span target value =>
      rw [lower]
      exact assign_raises span target value
  | expr span value =>
      rw [lower]
      refine (raises_part (Expr.lower_raises Destination.isPlain_discarded
        value) (by simp [parts])).bind fun _ _ _ _ => .nothing _
  | ret span value =>
      rw [lower]
      cases value with
      | none => exact .nothing _
      | some value =>
          exact value_raises (by simp) scope.returnTy.valueTy_ne_vararg
            (by simp [parts]) fun _ => .nothing _
  | ifThen span cond onTrue ih =>
      rw [lower]
      refine (raises_part (Expr.lowerOperand_raises cond)
        (by simp [parts])).bind fun _ _ _ _ => ?_
      refine (label_raises _).bind fun _ _ _ _ => ?_
      refine (label_raises _).bind fun _ _ _ _ => ?_
      refine (raises_inside ih ?_).bind fun _ _ _ _ => .nothing _
      exact fun part inside => by simp [preorder, inside]
  | ifElse span cond onTrue onFalse ihTrue ihFalse =>
      rw [lower]
      refine (raises_part (Expr.lowerOperand_raises cond)
        (by simp [parts])).bind fun _ _ _ _ => ?_
      refine (label_raises _).bind fun _ _ _ _ => ?_
      refine (label_raises _).bind fun _ _ _ _ => ?_
      refine (raises_inside ihFalse ?_).bind fun _ _ _ _ => ?_
      · exact fun part inside => by simp [preorder, inside]
      refine (raises_inside ihTrue ?_).bind fun _ _ _ _ => .nothing _
      exact fun part inside => by simp [preorder, inside]
  | loop span cond body ih =>
      rw [lower]
      refine (label_raises _).bind fun _ _ _ _ => ?_
      refine (label_raises _).bind fun _ _ _ _ => ?_
      refine (label_raises _).bind fun _ _ _ _ => ?_
      refine (raises_part (Expr.lowerOperand_raises cond)
        (by simp [parts])).bind fun _ _ _ _ => ?_
      refine (raises_inside ih ?_).bind fun _ _ _ _ => .nothing _
      exact fun part inside => by simp [preorder, inside]

end Tree.Stmt

/-! ## Messages -/

def Breach.isOfTree : Breach → Bool
  | .escapedVararg | .tooFewArguments _ _ _ | .arrayTooLong | .notIndexable _
  | .notAssignable _ | .badTarget _ => true
  | _ => false

theorem head?_append {first : String} (rest : String) {letter : Char}
    (h : first.toList.head? = some letter) :
    (first ++ rest).toList.head? = some letter := by
  rw [String.toList_append, List.head?_append, h]
  rfl

theorem Breach.message_of_isOfTree {cause : Breach}
    (h : cause.isOfTree = true) :
    cause.message ≠ "expression produced no value" ∧
      cause.message ≠ "array temporary has no name" := by
  have byLetter {text : String} {letter : Char}
      (starts : text.toList.head? = some letter)
      (other : letter ≠ 'e' ∧ letter ≠ 'a') :
      text ≠ "expression produced no value" ∧
        text ≠ "array temporary has no name" := by
    constructor
    · rintro rfl
      exact other.1 (Option.some.inj starts).symm
    · rintro rfl
      exact other.2 (Option.some.inj starts).symm
  cases cause with
  | escapedVararg | arrayTooLong => decide
  | tooFewArguments method given least =>
      refine byLetter ?_ (by decide : 'c' ≠ 'e' ∧ 'c' ≠ 'a')
      exact head?_append _ (head?_append _ (head?_append _ (head?_append _
        (head?_append _ rfl))))
  | notIndexable operand =>
      refine byLetter ?_ (by decide : '\'' ≠ 'e' ∧ '\'' ≠ 'a')
      exact head?_append _ (head?_append _ rfl)
  | notAssignable name =>
      refine byLetter ?_ (by decide : '\'' ≠ 'e' ∧ '\'' ≠ 'a')
      exact head?_append _ (head?_append _ rfl)
  | badTarget target =>
      refine byLetter ?_ (by decide : 'i' ≠ 'e' ∧ 'i' ≠ 'a')
      exact head?_append _ (head?_append _ rfl)
  | _ => cases h

namespace Tree

variable {scope : Scope} {cause : Breach}

theorem Expr.isOfTree_of_breach? {expr : Expr}
    (h : expr.breach? scope = some cause) : cause.isOfTree = true := by
  cases expr with
  | binary attr op left right =>
      obtain ⟨_, same⟩ := Option.ite_none_right_eq_some.mp h
      cases same
      rfl
  | index attr array position =>
      obtain ⟨operand, _, rfl⟩ := Option.map_eq_some_iff.mp h
      rfl
  | call attr receiver method args =>
      obtain ⟨signature, _, h⟩ := Option.bind_eq_some_iff.mp h
      simp only [Signature.breach?] at h
      split at h
      · cases h
      · split at h
        · cases h
          rfl
        · split at h
          · cases h
            rfl
          · cases h
  | arrayLiteral attr elements =>
      obtain ⟨_, same⟩ := Option.ite_none_right_eq_some.mp h
      cases same
      rfl
  | _ => cases h

theorem Stmt.isOfTree_of_breach? {stmt : Stmt}
    (h : stmt.breach? scope = some cause) : cause.isOfTree = true := by
  cases stmt with
  | assign span target value =>
      rw [breach?] at h
      split at h
      · cases h
      · split at h <;> cases h
        all_goals rfl
      · cases h
        rfl
  | _ => cases h

theorem Stmt.Breaks.isOfTree {stmt : Stmt} (h : stmt.Breaks scope cause) :
    cause.isOfTree = true := by
  obtain ⟨part, _, broken | ⟨expr, _, inner, _, broken⟩⟩ := h
  · exact isOfTree_of_breach? broken
  · exact Expr.isOfTree_of_breach? broken

/-! ## Programs -/

theorem Method.lower_raises (table : SymbolTable) (method : Method) :
    Raises (method.lower table) fun cause => ∃ stmt ∈ method.body,
      stmt.Breaks { table, method := method.name } cause := by
  rw [Method.lower]
  refine Raises.bind nofun fun _ _ _ _ => ?_
  refine (Stmt.lowerAll_raises fun stmt member => ?_).bind
    fun _ _ _ _ => .nothing _
  exact (Stmt.lower_raises stmt).mono fun _ broken => ⟨stmt, member, broken⟩

theorem Method.lowerAll_raises (table : SymbolTable) (methods : List Method) :
    Raises (Method.lowerAll table methods) fun cause =>
      ∃ method ∈ methods, ∃ stmt ∈ method.body,
        stmt.Breaks { table, method := method.name } cause := by
  induction methods with
  | nil => exact .nothing _
  | cons method rest ih =>
      rw [Method.lowerAll]
      refine ((method.lower_raises table).mono ?_).bind fun _ _ _ _ => ?_
      · exact fun cause broken => ⟨method, by simp, broken⟩
      refine (ih.mono ?_).bind fun _ _ _ _ => .nothing _
      rintro cause ⟨other, member, broken⟩
      exact ⟨other, by simp [member], broken⟩

theorem Program.lower_raises (table : SymbolTable) (program : Program) :
    Raises (program.lower table) fun cause =>
      ∃ method ∈ program.declared.methods, ∃ stmt ∈ method.body,
        stmt.Breaks { table, method := method.name } cause := by
  rw [Program.lower]
  exact (Method.lowerAll_raises table _).bind fun _ _ _ _ => .nothing _

namespace Program

/--
Lowering a program fails only if a promise is broken in the body of one of its
methods, by what is assigned or by an expression, and its error is the one for
that promise.  That a value is missing, or the name of an array, is never the
reason.
-/
theorem lower_fails_only_on_breach {program : Program} {table : SymbolTable}
    {supply after : Supply} {cause : Breach}
    (h : program.lower table supply = .error cause after) :
    (∃ method ∈ program.declared.methods,
      ∃ stmt ∈ Stmt.preorderAll method.body,
        let scope : Scope := { table, method := method.name }
        stmt.breach? scope = some cause ∨
          ∃ whole ∈ stmt.parts, ∃ part ∈ whole.preorder,
            part.breach? scope = some cause) ∧
    cause.message ≠ "expression produced no value" ∧
    cause.message ≠ "array temporary has no name" := by
  obtain ⟨method, isMethod, stmt, inBody, broken⟩ :=
    program.lower_raises table h
  refine ⟨?_, Breach.message_of_isOfTree broken.isOfTree⟩
  obtain ⟨part, inside, broken⟩ := broken
  exact ⟨method, isMethod, part,
    Stmt.mem_preorderAll.mpr ⟨stmt, inBody, inside⟩, broken⟩

def underfed : Program where
  declared := {
    name := "Sums"
    methods := [
      { name := "sum"
        returnTy := .int
        params := [{ name := "first", ty := .int },
          { name := "rest", ty := .vararg }]
        body := [.ret {} (some (.var ⟨.int, {}⟩ "first"))] },
      { name := "total"
        returnTy := .int
        body := [.ret {} (some (.paren ⟨.int, {}⟩
          (.call ⟨.int, {}⟩ (.self ⟨.object "Sums", {}⟩) "sum" [])))] }] }

theorem lower_fails_underfed :
    ∃ after, underfed.lower (.ofProgram underfed) {} =
        .error (.tooFewArguments "sum" 0 1) after ∧
      ∃ method ∈ underfed.declared.methods,
        ∃ stmt ∈ Stmt.preorderAll method.body,
          let scope : Scope := ⟨.ofProgram underfed, method.name⟩
          stmt.breach? scope = some (.tooFewArguments "sum" 0 1) ∨
            ∃ whole ∈ stmt.parts, ∃ part ∈ whole.preorder,
              part.breach? scope = some (.tooFewArguments "sum" 0 1) := by
  obtain ⟨after, h⟩ : ∃ after, underfed.lower (.ofProgram underfed) {} =
      .error (.tooFewArguments "sum" 0 1) after := ⟨_, rfl⟩
  exact ⟨after, h, (lower_fails_only_on_breach h).1⟩

end Program

end Tree

end JavaMinus
