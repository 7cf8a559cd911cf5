import JavaMinus.Proofs.Lowering.Induction
import JavaMinus.Proofs.Semantics.Tree

/-!
# Code that does not fall through

A jump at the end of a branch is left out if the code before it ends with a
jump.  That is right because such code comes from a statement that never
completes: it always returns.
-/

namespace JavaMinus

open Ir (Operand Instr Fragment)

/-! ## The end of code -/

namespace Lowering

variable {scope : Scope} {supply after : Supply} {lowered : Lowered}
  {code : List Fragment}

@[simp] theorem fallsThrough_instr (code : List Fragment) (instr : Instr) :
    fallsThrough (code ++ [.instr instr]) = !instr.isJump := by
  simp [fallsThrough]

@[simp] theorem fallsThrough_label (code : List Fragment) (name : String) :
    fallsThrough (code ++ [.label name]) = true := by
  simp [fallsThrough]

theorem fallsThrough_append (code : List Fragment) {more : List Fragment}
    (h : more ≠ []) : fallsThrough (code ++ more) = fallsThrough more := by
  obtain ⟨last, known⟩ := Option.ne_none_iff_exists'.mp
    (fun none => h (List.getLast?_eq_none_iff.mp none))
  simp [fallsThrough, known]

theorem fallsThrough_both {more : List Fragment}
    (h : fallsThrough code = true) (h' : fallsThrough more = true) :
    fallsThrough (code ++ more) = true := by
  by_cases empty : more = []
  · simpa [empty] using h
  · rwa [fallsThrough_append _ empty]

theorem prefix_thenGoto (name : String) (code : List Fragment) :
    code <+: thenGoto name code := by
  rw [thenGoto]
  split
  · exact List.prefix_append code _
  · exact List.prefix_refl code

theorem goto_mem_thenGoto {name : String} (h : fallsThrough code = true) :
    .instr (.goto name) ∈ thenGoto name code := by
  simp [thenGoto, h]

theorem packArray_fallsThrough {values : List Operand} {array : Operand}
    (h : packArray values supply = .ok (array, code) after)
    (before : List Fragment) : fallsThrough (before ++ code) = true := by
  obtain ⟨name, _, _, rfl, rfl⟩ := packArray_eq_ok h
  rw [fallsThrough_append before (by simp)]
  have plain : ∀ fragment ∈ Fragment.instr (.store (.var name .intArray)
      (newArray (.int (Int32.ofNat values.length)))) ::
        elementStores name values,
      ∃ dest value, fragment = .instr (.store dest value) := by
    rintro fragment (_ | ⟨_, member⟩)
    · exact ⟨_, _, rfl⟩
    · obtain ⟨index, value, _, rfl⟩ := mem_elementStores member
      exact ⟨_, _, rfl⟩
  rw [fallsThrough]
  split
  next instr last =>
    obtain ⟨dest, value, isStore⟩ := plain _ (List.mem_of_getLast? last)
    cases isStore
    rfl
  next => rfl

theorem intoTemp_fallsThrough {ty : Ty} {value : Instr}
    (h : intoTemp ty code value supply = .ok lowered after) :
    fallsThrough lowered.code = true := by
  obtain ⟨name, _, rfl⟩ := intoTemp_eq_ok h
  exact fallsThrough_instr _ _

theorem finishCall_fallsThrough {dest : Destination} {call : Ir.Call}
    (h : finishCall call code dest supply = .ok lowered after) :
    fallsThrough lowered.code = true := by
  cases dest with
  | discarded =>
      obtain ⟨rfl, rfl⟩ := Action.pure_eq_ok.mp h
      exact fallsThrough_instr _ _
  | assigned ty | returned ty | operand => exact intoTemp_fallsThrough h

theorem finishElement_fallsThrough {dest : Destination} {element : Operand}
    (h : finishElement element code dest supply = .ok lowered after)
    (falls : fallsThrough code = true) :
    fallsThrough lowered.code = true := by
  cases dest with
  | operand | discarded => exact intoTemp_fallsThrough h
  | assigned ty | returned ty =>
      obtain ⟨rfl, rfl⟩ := Action.pure_eq_ok.mp h
      exact falls

end Lowering

open Lowering

/-! ## Expressions -/

theorem Tree.Expr.lower_fallsThrough {scope : Scope} {expr : Expr}
    {dest : Destination} {supply after : Supply} {lowered : Lowered}
    (h : expr.lower scope dest supply = .ok lowered after) :
    fallsThrough lowered.code = true := by
  induction h using lower_induction (fun _ _ _ _ _ => True) with
  | nil | cons => trivial
  | int | bool | self | readVar | readField | readEnclosing | readClass
  | newObject => rfl
  | paren _ ih => exact ih
  | and =>
      rw [fallsThrough_append _ (by simp)]
      rfl
  | binary | not | newArray | length => exact fallsThrough_instr _ _
  | call _ _ _ hfinish => exact finishCall_fallsThrough hfinish
  | arrayLiteral _ hpack => exact packArray_fallsThrough hpack _
  | index _ _ hfinish ihArray ihPosition =>
      exact finishElement_fallsThrough hfinish
        (fallsThrough_both ihArray ihPosition)

/-! ## Statements -/

namespace Tree.Stmt

variable {scope : Scope}

private theorem effect_throw_ne_ok {action : Locals → Effect Value}
    {exit : Value → Exit} {state final : State} :
    (Exec.effect (fun locals => do
      let value ← action locals
      throw (exit value)) : Exec Unit) state ≠ .ok () final := by
  rw [Exec.effect]
  cases result : action state.locals state.world with
  | ok value world =>
      rw [Action.bind_of_ok result]
      exact nofun
  | error exit world =>
      rw [Action.bind_of_error result]
      simp

theorem fallsThrough_of_completes {stmt : Stmt} {supply after : Supply}
    {code : List Fragment} (h : stmt.lower scope supply = .ok code after)
    {setting : Setting} {fuel : Nat} {state final : State}
    (completes : stmt.exec setting fuel state = .ok () final) :
    fallsThrough code = true := by
  induction h using lower_induction generalizing state final with
  | nil | increment => rfl
  | cons _ _ ihFirst ihRest =>
      rw [exec, execAll] at completes
      obtain ⟨_, next, first, second⟩ := Action.bind_eq_ok.mp completes
      exact fallsThrough_both (ihFirst first) (ihRest (by rwa [exec]))
  | assignVar | assignField | assignElement => exact fallsThrough_instr _ _
  | expr hvalue => exact Expr.lower_fallsThrough hvalue
  | retVoid => exact absurd completes Action.throw_ne_ok
  | ret =>
      rw [exec] at completes
      exact absurd completes effect_throw_ne_ok
  | ifThen | ifElse | loop => exact fallsThrough_label _ _

end Tree.Stmt

end JavaMinus
