import JavaMinus.Proofs.Emission.Comparisons
import JavaMinus.Proofs.Emission.Invocations

/-!
# Moving a variable on

A literal that is added to an int variable or subtracted from it moves the
variable on.  Such an assignment stays one operation, which is emitted as an
increment in place if the step and the slot fit a byte, and otherwise as loads,
an operation and a store.  Either way the slot ends with the value that the
tree assigns, as it does if that is computed into a temporary and copied.
-/

namespace JavaMinus

open Ir (Operand Instr Fragment Registers)
open Lowering

/-! ## Assigned values -/

def moved (word : Int32) (step : Int) : Int32 :=
  Int32.ofInt (word.toInt + step)

theorem moved_eq (word : Int32) (step : Int) :
    moved word step = word + Int32.ofInt step := by
  rw [moved, Int32.ofInt_add, Int32.ofInt_toInt]

theorem moved_toInt (word step : Int32) :
    moved word step.toInt = word + step := by
  rw [moved_eq, Int32.ofInt_toInt]

theorem moved_neg_toInt (word step : Int32) :
    moved word (- step.toInt) = word - step := by
  rw [moved_eq, Int32.ofInt_neg, Int32.ofInt_toInt, Int32.sub_eq_add_neg]

def Scope.IsInt (scope : Scope) (name : String) : Prop :=
  ∃ symbol, (scope.resolve name = .localVar symbol ∨
    scope.resolve name = .param symbol) ∧ symbol.ty = .int

namespace Tree.Expr

/-- The expression is a variable and a step, with parentheses anywhere. -/
inductive MovesBy (name : String) (value : Expr) : Int → Prop where
  | add {attr : Attr} {left right : Expr} {word : Int32}
      (form : value.skipParens = .binary attr .add left right)
      (isVar : left.reads name = true)
      (isLiteral : right.literal? = some word) :
      MovesBy name value word.toInt
  | addTo {attr : Attr} {left right : Expr} {word : Int32}
      (form : value.skipParens = .binary attr .add left right)
      (isLiteral : left.literal? = some word)
      (isVar : right.reads name = true) :
      MovesBy name value word.toInt
  | sub {attr : Attr} {left right : Expr} {word : Int32}
      (form : value.skipParens = .binary attr .sub left right)
      (isVar : left.reads name = true)
      (isLiteral : right.literal? = some word) :
      MovesBy name value (- word.toInt)

def SubtractsVar (name : String) (value : Expr) (word : Int32) : Prop :=
  ∃ attr left right, value.skipParens = .binary attr .sub left right ∧
    left.literal? = some word ∧ right.reads name = true

variable {scope : Scope} {name : String} {expr value left right : Expr}
  {word : Int32} {step : Int}

theorem lower_skipParens (scope : Scope) (expr : Expr) (dest : Destination) :
    expr.skipParens.lower scope dest = expr.lower scope dest := by
  induction expr with
  | paren attr inner ih => rw [skipParens, lower, ih]
  | _ => rfl

theorem lower_of_literal (h : expr.literal? = some word) (scope : Scope)
    (dest : Destination) :
    expr.lower scope dest = pure (.ofOperand (.int word)) := by
  rw [← lower_skipParens]
  rw [literal?] at h
  split at h
  next form =>
    cases h
    rw [form, lower]
  next => contradiction

theorem lower_of_reads (isInt : scope.IsInt name)
    (h : expr.reads name = true) (dest : Destination) :
    expr.lower scope dest = pure (.ofOperand (.var name .int)) := by
  rw [← lower_skipParens]
  rw [reads] at h
  split at h
  next attr other form =>
    obtain rfl : other = name := of_decide_eq_true h
    obtain ⟨symbol, origin, isInt⟩ := isInt
    rw [form, lower, readName]
    rcases origin with origin | origin <;> simp [origin, isInt, Ty.valueTy]
  next => contradiction

theorem lower_binary {attr : Attr} {op : Operator} {first second : Operand}
    (form : value.skipParens = .binary attr op left right)
    (strict : op ≠ .and)
    (hleft : left.lower scope .operand = pure (.ofOperand first))
    (hright : right.lower scope .operand = pure (.ofOperand second))
    (dest : Destination) :
    value.lower scope dest =
      intoTemp value.skipParens.ty [] (.binary op first second
        value.skipParens.ty) := by
  rw [← lower_skipParens, form, lower]
  · simp [hleft, hright, Lowered.ofOperand, Lowered.parts, ty, Expr.attr]
  · exact strict

theorem reads_of_literal (h : expr.literal? = some word) (name : String) :
    expr.reads name = false := by
  rw [literal?] at h
  rw [reads]
  split at h
  next form => rw [form]
  next => contradiction

/-- A moved variable is one operation on it, however it is lowered. -/
theorem MovesBy.lowers (h : value.MovesBy name step)
    (isInt : scope.IsInt name) :
    ∃ op left right, Jvm.Gen.step? name op left right = some step ∧
      increment? name .int value = some (.binary op left right .int) ∧
      ∀ dest, value.lower scope dest =
        intoTemp value.skipParens.ty []
          (.binary op left right value.skipParens.ty) := by
  cases h with
  | add form isVar isLiteral =>
      refine ⟨.add, .var name .int, .int _, ?_, ?_, lower_binary form
        (by simp) (lower_of_reads isInt isVar _) (lower_of_literal isLiteral _ _)⟩
      · simp [Jvm.Gen.step?, Jvm.Gen.step?.isSelf, Jvm.Gen.step?.literal?,
          Operand.int]
      · simp [increment?, form, isVar, isLiteral]
  | addTo form isLiteral isVar =>
      refine ⟨.add, .int _, .var name .int, ?_, ?_, lower_binary form
        (by simp) (lower_of_literal isLiteral _ _) (lower_of_reads isInt isVar _)⟩
      · simp [Jvm.Gen.step?, Jvm.Gen.step?.isSelf, Jvm.Gen.step?.literal?,
          Operand.int]
      · simp [increment?, form, isVar, isLiteral,
          reads_of_literal isLiteral name]
  | sub form isVar isLiteral =>
      refine ⟨.sub, .var name .int, .int _, ?_, ?_, lower_binary form
        (by simp) (lower_of_reads isInt isVar _) (lower_of_literal isLiteral _ _)⟩
      · simp [Jvm.Gen.step?, Jvm.Gen.step?.isSelf, Jvm.Gen.step?.literal?,
          Operand.int]
      · simp [increment?, form, isVar, isLiteral]

theorem SubtractsVar.lowers (h : value.SubtractsVar name word)
    (isInt : scope.IsInt name) :
    increment? name .int value = none ∧
      ∀ dest, value.lower scope dest =
        intoTemp value.skipParens.ty []
          (.binary .sub (.int word) (.var name .int)
            value.skipParens.ty) := by
  obtain ⟨attr, left, right, form, isLiteral, isVar⟩ := h
  refine ⟨?_, lower_binary form nofun (lower_of_literal isLiteral _ _)
    (lower_of_reads isInt isVar _)⟩
  simp [increment?, form, reads_of_literal isLiteral name]

theorem MovesBy.eval (h : value.MovesBy name step)
    (isInt : scope.IsInt name) (self : Value) (oracle : Oracle)
    {locals : Locals} (holds : locals name = some (.word word)) :
    value.eval (scope.setting self oracle) locals =
      pure (.word (moved word step)) := by
  have reads {expr : Expr} (h : expr.reads name = true) :
      expr.eval (scope.setting self oracle) locals = pure (.word word) := by
    rw [← eval_skipParens]
    rw [Expr.reads] at h
    split at h
    next attr other form =>
      obtain rfl : other = name := of_decide_eq_true h
      obtain ⟨symbol, origin, _⟩ := isInt
      rw [form, Expr.eval, Setting.read, Scope.setting]
      rcases origin with origin | origin <;>
        simp [origin, Effect.read, holds]
    next => contradiction
  rw [← eval_skipParens]
  cases h with
  | add form isVar isLiteral =>
      have strict : Operator.add ≠ .and := by simp
      rw [form, eval_binary _ _ _ _ _ strict, reads isVar,
        eval_of_literal isLiteral]
      simp [Effect.operate, Effect.word, Operator.apply_add, moved_toInt]
  | addTo form isLiteral isVar =>
      have strict : Operator.add ≠ .and := by simp
      rw [form, eval_binary _ _ _ _ _ strict, reads isVar,
        eval_of_literal isLiteral]
      simp [Effect.operate, Effect.word, Operator.apply_add, moved_toInt,
        Int32.add_comm]
  | sub form isVar isLiteral =>
      have strict : Operator.sub ≠ .and := by simp
      rw [form, eval_binary _ _ _ _ _ strict, reads isVar,
        eval_of_literal isLiteral]
      simp [Effect.operate, Effect.word, Operator.apply_sub, moved_neg_toInt]

end Tree.Expr

namespace Lowering

variable {scope : Scope} {name : String} {ty : Ty} {target value : Tree.Expr}

/-- An assignment of a value that is computed before it is copied. -/
def assignCopy (scope : Scope) (name : String) (ty : Ty)
    (value : Tree.Expr) : Lower (List Fragment) := do
  let (operand, code) ← (← value.lower scope (.assigned ty)).parts
  pure (code ++ [.instr (.store (.var name ty) (.single operand))])

theorem assignVar_of_none (h : increment? name ty value = none) :
    assignVar scope name ty value = assignCopy scope name ty value := by
  rw [assignVar, h]
  rfl

theorem assignVar_of_some {step : Instr}
    (h : increment? name ty value = some step) :
    assignVar scope name ty value =
      pure [.instr (.store (.var name ty) step)] := by
  rw [assignVar, h]

theorem assign_of_reads (isInt : scope.IsInt name)
    (h : target.reads name = true) :
    Lowering.assign scope target value =
      assignVar scope name .int value := by
  rw [Tree.Expr.reads] at h
  rw [Lowering.assign]
  split at h
  next attr other form =>
    obtain rfl : other = name := of_decide_eq_true h
    obtain ⟨symbol, origin, isInt⟩ := isInt
    rcases origin with origin | origin <;>
      simp [form, origin, isInt, Ty.valueTy]
  next => contradiction

theorem assignCopy_eq_ok {value : Tree.Expr} {instr : Instr} {ty' : Ty}
    {supply after : Supply} {code : List Fragment}
    (lowers : value.lower scope (.assigned ty) = intoTemp ty' [] instr)
    (h : assignCopy scope name ty value supply = .ok code after) :
    ∃ temp, supply.Drawn after temp ∧
      code = [.instr (.store (.var temp ty') instr),
        .instr (.store (.var name ty) (.single (.var temp ty')))] := by
  obtain ⟨operand, code, mid, hvalue, h⟩ := operand_bind_eq_ok.mp h
  rw [lowers] at hvalue
  obtain ⟨temp, drawn, same⟩ := intoTemp_eq_ok hvalue
  obtain ⟨rfl, rfl⟩ := Action.pure_eq_ok.mp h
  cases same
  exact ⟨temp, drawn, rfl⟩

theorem assignCopy_succeeds_iff {instr : Instr} {ty' : Ty}
    {supply : Supply}
    (lowers : value.lower scope (.assigned ty) = intoTemp ty' [] instr) :
    (∃ code after, assignCopy scope name ty value supply = .ok code after) ↔
      ty' ≠ .vararg := by
  rw [← intoTemp_succeeds_iff]
  constructor
  · rintro ⟨code, after, h⟩
    obtain ⟨operand, code, mid, hvalue, _⟩ := operand_bind_eq_ok.mp h
    exact ⟨_, mid, lowers ▸ hvalue⟩
  · rintro ⟨lowered, after, h⟩
    obtain ⟨temp, _, rfl⟩ := intoTemp_eq_ok h
    exact ⟨_, after, operand_bind_eq_ok.mpr ⟨_, _, after, lowers ▸ h, rfl⟩⟩

end Lowering

namespace Jvm

/-! ## Lines between two frames -/

variable {frame mid after : Frame} {line : Line} {popped pushed : Nat}
  {stack stack' stack'' : List Value} {slots slots' slots'' : Slots}

/--
The lines that were added to a frame lead from a stack and slots to others,
whatever stands behind them, and do nothing else.
-/
def Conveys (frame after : Frame) (stack : List Value) (slots : Slots)
    (stack' : List Value) (slots' : Slots) : Prop :=
  ∀ runtime rest world jumps,
    Reaches (step runtime (after.code.lines.toList ++ rest))
      ⟨frame.code.lines.size, stack, slots, world, jumps⟩
      ⟨after.code.lines.size, stack', slots', world, jumps⟩

theorem Emitted.conveys (emitted : Emitted line popped pushed frame after)
    (run : ∀ runtime, line.run runtime stack slots =
      pure (.next stack' slots')) :
    Conveys frame after stack slots stack' slots' := by
  intro runtime rest world jumps
  have fetch : (after.code.lines.toList ++ rest)[frame.code.lines.size]? =
      some line := by
    simp [emitted.lines]
  have ran : line.run runtime stack slots world =
      .ok (.next stack' slots') world := by
    rw [run]
    rfl
  have behind : after.code.lines.size = frame.code.lines.size + 1 := by
    rw [emitted.lines, Array.size_push]
  rw [behind]
  exact .single ((step_of_ok fetch ran).trans rfl)

theorem Conveys.trans (h : Conveys frame mid stack slots stack' slots')
    (h' : Conveys mid after stack' slots' stack'' slots'')
    (grows : Grows mid after) :
    Conveys frame after stack slots stack'' slots'' := by
  intro runtime rest world jumps
  obtain ⟨added, lines⟩ := grows.lines
  have first := h runtime (added ++ rest) world jumps
  rw [← List.append_assoc, lines] at first
  exact first.trans (h' runtime rest world jumps)

def Line.isIncrement : Line → Bool
  | .apply .iinc _ => true
  | _ => false

def AddsNoIncrement (frame after : Frame) : Prop :=
  ∃ lines, after.code.lines.toList = frame.code.lines.toList ++ lines ∧
    ∀ line ∈ lines, line.isIncrement = false

namespace AddsNoIncrement

theorem trans (h : AddsNoIncrement frame mid)
    (h' : AddsNoIncrement mid after) : AddsNoIncrement frame after := by
  obtain ⟨lines, added, quiet⟩ := h
  obtain ⟨lines', added', quiet'⟩ := h'
  refine ⟨lines ++ lines', by rw [added', added, List.append_assoc], ?_⟩
  intro line member
  exact (List.mem_append.mp member).elim (quiet line) (quiet' line)

theorem of_emitted (emitted : Emitted line popped pushed frame after)
    (other : line.isIncrement = false) : AddsNoIncrement frame after :=
  ⟨[line], by simp [emitted.lines], by simp [other]⟩

theorem of_addsLoad (h : AddsLoad frame after) :
    AddsNoIncrement frame after := by
  obtain ⟨line, added, isLoad⟩ := h
  refine ⟨[line], added, ?_⟩
  simp only [List.mem_singleton, forall_eq]
  unfold Line.isIncrement
  split
  · cases isLoad
  · rfl

end AddsNoIncrement

/-! ## Operands -/

inductive Gives (name : String) (word : Int32) : Operand → Int32 → Prop where
  | var (ty : Ty) : Gives name word (.var name ty) word
  | literal (value : Int32) (ty : Ty) :
      Gives name word (.literal value ty) value

theorem step?_gives {name : String} {op : Operator} {left right : Operand}
    {step : Int} (h : Gen.step? name op left right = some step)
    (word : Int32) :
    (op = .add ∨ op = .sub) ∧ ∃ first second,
      Gives name word left first ∧ Gives name word right second ∧
      op.apply first second =
        pure (moved word step) := by
  obtain ⟨ty, ty', literal, found⟩ := Gen.step?_eq_some h
  rcases found with ⟨rfl, rfl, rfl, rfl⟩ | ⟨rfl, rfl, rfl, rfl⟩ |
    ⟨rfl, rfl, rfl, rfl⟩
  · refine ⟨.inl rfl, word, literal, .var ty, .literal _ _, ?_⟩
    rw [Operator.apply_add, moved_toInt]
  · refine ⟨.inl rfl, literal, word, .literal _ _, .var ty, ?_⟩
    rw [Operator.apply_add, moved_toInt, Int32.add_comm]
  · refine ⟨.inr rfl, word, literal, .var ty, .literal _ _, ?_⟩
    rw [Operator.apply_sub, moved_neg_toInt]

namespace Gen

variable {linkage : Linkage} {name dest : String} {word value : Int32}
  {operand left right : Operand} {op : Operator} {ty ty' : Ty}

theorem load_conveys (gives : Gives name word operand value)
    (h : load operand frame = .ok () after)
    (inSlot : slots (frame.registers.slot name) = some (.word word)) :
    Conveys frame after stack slots (.word value :: stack) slots := by
  cases gives with
  | literal =>
      obtain ⟨line, emitted, runs⟩ := Execution.emit_int h
      exact emitted.conveys fun runtime => runs runtime stack slots
  | var ty =>
      obtain ⟨index, mid, hslot, h⟩ := Action.bind_eq_ok.mp h
      obtain ⟨rfl, rfl⟩ := slot_eq_ok hslot
      obtain ⟨line, emitted, runs⟩ :=
        Execution.emit_load (by cases ty.isReference <;> simp) h
      refine emitted.conveys fun runtime => ?_
      rw [runs, loadSlot, inSlot]
      rfl

theorem load_slot (gives : Gives name word operand value)
    (h : load operand frame = .ok () after) :
    after.registers.slot name = frame.registers.slot name := by
  cases gives with
  | literal =>
      obtain ⟨line, emitted, _⟩ := Execution.emit_int h
      rw [emitted.registers]
  | var ty =>
      obtain ⟨index, mid, hslot, h⟩ := Action.bind_eq_ok.mp h
      obtain ⟨_, rfl⟩ := slot_eq_ok hslot
      obtain ⟨line, emitted, _⟩ :=
        Execution.emit_load (by cases ty.isReference <;> simp) h
      rw [emitted.registers, slot_allocate]

theorem store_registers (h : store dest ty frame = .ok () after) :
    after.registers = frame.registers.allocate dest := by
  obtain ⟨index, mid, hslot, h⟩ := Action.bind_eq_ok.mp h
  obtain ⟨_, rfl⟩ := slot_eq_ok hslot
  obtain ⟨line, emitted, _⟩ :=
    Execution.emit_store (by cases ty.isReference <;> simp) h
  exact emitted.registers

theorem store_conveys {value : Value}
    (h : store dest ty frame = .ok () after) :
    Conveys frame after (value :: stack) slots stack
      (slots.set (after.registers.slot dest) value) := by
  rw [store_registers h, slot_allocate]
  obtain ⟨index, mid, hslot, h⟩ := Action.bind_eq_ok.mp h
  obtain ⟨rfl, rfl⟩ := slot_eq_ok hslot
  obtain ⟨line, emitted, runs⟩ :=
    Execution.emit_store (by cases ty.isReference <;> simp) h
  exact emitted.conveys fun runtime => runs runtime _ slots

theorem store_addsNoIncrement (h : store dest ty frame = .ok () after) :
    AddsNoIncrement frame after := by
  obtain ⟨index, mid, hslot, h⟩ := Action.bind_eq_ok.mp h
  have adds : AddsNoIncrement mid after := by
    rcases emit_slot (storeOp_effect? ty) h with ⟨_, _, emitted⟩ | emitted
    · exact .of_emitted emitted rfl
    · refine .of_emitted emitted ?_
      cases ty.isReference <;> rfl
  obtain ⟨_, rfl⟩ := slot_eq_ok hslot
  exact adds

theorem operate_conveys (arithmetic : comparison? op = none)
    (h : operate op frame = .ok () after) {first second result : Int32}
    (applied : op.apply first second = pure result) :
    Conveys frame after (.word second :: .word first :: stack) slots
      (.word result :: stack) slots := by
  obtain ⟨line, emitted, runs⟩ := run_of_arithmetic arithmetic h
  refine emitted.conveys fun runtime => ?_
  simp [runs, onWords, Effect.word, applied, push]

/-! ## Operations on a variable -/

section Step

variable {step : Int}

theorem comparison?_of_additive (additive : op = .add ∨ op = .sub) :
    comparison? op = none := by
  rcases additive with rfl | rfl <;> rfl

theorem binary_conveys (known : step? name op left right = some step)
    (h : instr linkage (.binary op left right ty) frame = .ok () after)
    (inSlot : slots (frame.registers.slot name) = some (.word word)) :
    Conveys frame after stack slots
      (.word (moved word step) :: stack) slots := by
  obtain ⟨additive, first, second, onLeft, onRight, applied⟩ :=
    step?_gives known word
  obtain ⟨_, mid, hleft, h⟩ := Action.bind_eq_ok.mp h
  obtain ⟨_, last, hright, hop⟩ := Action.bind_eq_ok.mp h
  have loaded : Conveys frame last stack slots
      (.word second :: .word first :: stack) slots :=
    (load_conveys onLeft hleft inSlot).trans
      (load_conveys onRight hright (load_slot onLeft hleft ▸ inSlot))
      (Builds.load right hright).grows
  exact loaded.trans
    (operate_conveys (comparison?_of_additive additive) hop applied)
    (Builds.operate op hop).grows

theorem binary_slot (known : step? name op left right = some step)
    (h : instr linkage (.binary op left right ty) frame = .ok () after) :
    after.registers.slot name = frame.registers.slot name ∧
      name ∈ after.registers.names := by
  obtain ⟨additive, first, second, onLeft, onRight, _⟩ := step?_gives known 0
  obtain ⟨_, mid, hleft, h⟩ := Action.bind_eq_ok.mp h
  obtain ⟨_, last, hright, hop⟩ := Action.bind_eq_ok.mp h
  obtain ⟨line, emitted, _⟩ :=
    run_of_arithmetic (comparison?_of_additive additive) hop
  rw [emitted.registers]
  refine ⟨(load_slot onRight hright).trans (load_slot onLeft hleft), ?_⟩
  have met {frame after : Frame} {ty : Ty}
      (h : load (.var name ty) frame = .ok () after) :
      name ∈ after.registers.names := by
    obtain ⟨index, mid, hslot, h⟩ := Action.bind_eq_ok.mp h
    obtain ⟨_, rfl⟩ := slot_eq_ok hslot
    have grows := (Builds.slotLine (loadOp_effect? ty) index h).grows
    exact grows.registers.subset (mem_allocate _ name)
  obtain ⟨_, _, _, found⟩ := step?_eq_some known
  rcases found with ⟨_, rfl, _, _⟩ | ⟨_, _, rfl, _⟩ | ⟨_, rfl, _, _⟩
  · exact (Builds.load right hright).grows.registers.subset (met hleft)
  · exact met hright
  · exact (Builds.load right hright).grows.registers.subset (met hleft)

theorem step?_isSimple (known : step? name op left right = some step) :
    left.isSimple = true ∧ right.isSimple = true := by
  obtain ⟨_, _, _, found⟩ := step?_eq_some known
  rcases found with ⟨_, rfl, rfl, _⟩ | ⟨_, rfl, rfl, _⟩ | ⟨_, rfl, rfl, _⟩ <;>
    exact ⟨rfl, rfl⟩

theorem binary_addsNoIncrement (additive : op = .add ∨ op = .sub)
    (leftSimple : left.isSimple = true) (rightSimple : right.isSimple = true)
    (h : instr linkage (.binary op left right ty) frame = .ok () after) :
    AddsNoIncrement frame after := by
  obtain ⟨_, mid, hleft, h⟩ := Action.bind_eq_ok.mp h
  obtain ⟨_, last, hright, hop⟩ := Action.bind_eq_ok.mp h
  have loads : AddsNoIncrement frame last :=
    .trans (.of_addsLoad (load_addsLoad leftSimple hleft))
      (.of_addsLoad (load_addsLoad rightSimple hright))
  refine loads.trans ?_
  rcases additive with rfl | rfl
  · exact .of_emitted (emit_plain rfl hop) rfl
  · exact .of_emitted (emit_plain rfl hop) rfl

theorem step?_unique (known : step? name op left right = some step)
    {step' : Int} (known' : step? dest op left right = some step') :
    dest = name ∧ step' = step := by
  obtain ⟨_, _, _, found⟩ := step?_eq_some known
  obtain ⟨_, _, _, found'⟩ := step?_eq_some known'
  rcases found with ⟨rfl, rfl, rfl, rfl⟩ | ⟨rfl, rfl, rfl, rfl⟩ |
      ⟨rfl, rfl, rfl, rfl⟩ <;>
    simp_all

/-! ## Assignments to a variable -/

theorem increment?_of_step? (known : step? name op left right = some step)
    (ty : Ty) :
    increment? name .int (.binary op left right ty) =
      if -128 ≤ step ∧ step ≤ 127 then some (Int8.ofInt step) else none := by
  simp [increment?, known]

/--
The value of an assignment is computed from this frame, where the variable
may have been given a slot that is too large for an increment in place.
-/
def StartsAt (dest : String) (ty : Ty) (value : Instr)
    (frame start : Frame) : Prop :=
  increment? dest ty value = none ∧ start = frame ∨
    increment? dest ty value ≠ none ∧ ¬ frame.registers.slot dest ≤ 255 ∧
      start = { frame with registers := frame.registers.allocate dest }

theorem assign_eq_ok {value : Instr}
    (h : instr linkage (.assign (.var dest ty') ty value) frame =
      .ok () after) :
    (∃ delta, increment? dest ty value = some delta ∧
      frame.registers.slot dest ≤ 255 ∧
      Emitted (.apply .iinc (.step (frame.registers.slot dest) delta)) 0 0
        { frame with registers := frame.registers.allocate dest } after) ∨
    ∃ start last, StartsAt dest ty value frame start ∧
      instr linkage value start = .ok () last ∧
      store dest ty last = .ok () after := by
  rw [instr, tryIncrement] at h
  cases known : increment? dest ty value with
  | none =>
      rw [known] at h
      obtain ⟨done, mid, htry, h⟩ := Action.bind_eq_ok.mp h
      obtain ⟨rfl, rfl⟩ := Action.pure_eq_ok.mp htry
      obtain ⟨_, last, hvalue, hstore⟩ := Action.bind_eq_ok.mp h
      exact .inr ⟨_, last, .inl ⟨known, rfl⟩, hvalue, hstore⟩
  | some delta =>
      rw [known] at h
      obtain ⟨done, mid, htry, h⟩ := Action.bind_eq_ok.mp h
      obtain ⟨index, met, hslot, htry⟩ := Action.bind_eq_ok.mp htry
      obtain ⟨rfl, rfl⟩ := slot_eq_ok hslot
      split at htry
      next small =>
        obtain ⟨_, last, hadd, hdone⟩ := Action.bind_eq_ok.mp htry
        obtain ⟨rfl, rfl⟩ := Action.pure_eq_ok.mp hdone
        obtain ⟨_, rfl⟩ := Action.pure_eq_ok.mp h
        rw [Emit.increment, if_neg (by simpa using small)] at hadd
        exact .inl ⟨delta, rfl, small, emit_apply rfl hadd⟩
      next large =>
        -- the slot was drawn in order to compare it, and it stays drawn
        obtain ⟨rfl, rfl⟩ := Action.pure_eq_ok.mp htry
        obtain ⟨_, last, hvalue, hstore⟩ := Action.bind_eq_ok.mp h
        exact .inr ⟨_, last, .inr ⟨by simp [known], large, rfl⟩, hvalue,
          hstore⟩

theorem eq_of_increment? (known : step? name op left right = some step)
    {delta : Int8}
    (h : increment? dest ty (.binary op left right ty') = some delta) :
    dest = name ∧ delta.toInt32 = Int32.ofInt step := by
  obtain ⟨step', known', h⟩ := Option.bind_eq_some_iff.mp h
  obtain ⟨rfl, rfl⟩ := step?_unique known known'
  split at h
  next bounds =>
    cases h
    exact ⟨rfl, Int8.toInt32_ofInt bounds.2.1 bounds.2.2⟩
  next => contradiction

theorem StartsAt.keeps {start : Frame}
    (h : StartsAt dest ty (.binary op left right ty') frame start)
    (known : step? name op left right = some step) :
    start.registers.slot name = frame.registers.slot name ∧
      start.code = frame.code := by
  rcases h with ⟨_, rfl⟩ | ⟨increments, _, rfl⟩
  · exact ⟨rfl, rfl⟩
  · obtain ⟨delta, increments⟩ := Option.ne_none_iff_exists'.mp increments
    obtain ⟨rfl, _⟩ := eq_of_increment? known increments
    exact ⟨slot_allocate _ _, rfl⟩

theorem assign_conveys {ty'' : Ty}
    (known : step? name op left right = some step)
    (h : instr linkage (.assign (.var dest ty'') ty
      (.binary op left right ty')) frame = .ok () after)
    (inSlot : slots (frame.registers.slot name) = some (.word word)) :
    Conveys frame after stack slots stack
      (slots.set (after.registers.slot dest)
        (.word (moved word step))) := by
  rcases assign_eq_ok h with
    ⟨delta, increments, small, emitted⟩ | ⟨start, last, starts, hvalue, hstore⟩
  · -- only the variable that is read can be incremented in place
    obtain ⟨rfl, same⟩ := eq_of_increment? known increments
    rw [emitted.registers, slot_allocate, moved_eq, ← same]
    refine emitted.conveys fun runtime => ?_
    simp [Line.run, Opcode.runWith, addToSlot, inSlot, Effect.word, small]
  · obtain ⟨kept, same⟩ := starts.keeps known
    have computed : Conveys frame last stack slots
        (.word (moved word step) :: stack) slots := by
      rw [Conveys, ← same]
      exact binary_conveys known hvalue (kept ▸ inSlot)
    exact computed.trans (store_conveys hstore)
      (Builds.store dest ty hstore).grows

theorem assign_slot {ty'' : Ty}
    (known : step? name op left right = some step)
    (h : instr linkage (.assign (.var dest ty'') ty
      (.binary op left right ty')) frame = .ok () after) :
    after.registers.slot name = frame.registers.slot name ∧
      name ∈ after.registers.names ∧ dest ∈ after.registers.names := by
  rcases assign_eq_ok h with
    ⟨delta, increments, small, emitted⟩ | ⟨start, last, starts, hvalue, hstore⟩
  · obtain ⟨rfl, same⟩ := eq_of_increment? known increments
    rw [emitted.registers]
    exact ⟨slot_allocate _ _, mem_allocate _ _, mem_allocate _ _⟩
  · obtain ⟨kept, same⟩ := starts.keeps known
    obtain ⟨slot, member⟩ := binary_slot known hvalue
    rw [store_registers hstore]
    have front := prefix_allocate last.registers dest
    refine ⟨?_, front.subset member, mem_allocate _ _⟩
    rw [slot_of_front front member, slot, kept]

/-- The slot and the step decide whether there is an increment in place. -/
theorem assign_lines {ty'' : Ty}
    (known : step? name op left right = some step)
    (h : instr linkage (.assign (.var name ty'') .int
      (.binary op left right ty')) frame = .ok () after) :
    if (-128 ≤ step ∧ step ≤ 127) ∧ frame.registers.slot name ≤ 255 then
      after.code.lines.toList = frame.code.lines.toList ++
        [.apply .iinc (.step (frame.registers.slot name) (Int8.ofInt step))]
    else AddsNoIncrement frame after := by
  have decides := increment?_of_step? known ty'
  rcases assign_eq_ok h with
    ⟨delta, increments, small, emitted⟩ | ⟨start, last, starts, hvalue, hstore⟩
  · rw [decides] at increments
    split at increments
    next bounds =>
      cases increments
      rw [if_pos ⟨bounds, small⟩]
      simp [emitted.lines]
    next => contradiction
  · rw [if_neg]
    · obtain ⟨_, same⟩ := starts.keeps known
      obtain ⟨additive, _⟩ := step?_gives known 0
      obtain ⟨leftSimple, rightSimple⟩ := step?_isSimple known
      obtain ⟨lines, added, quiet⟩ :=
        (binary_addsNoIncrement additive leftSimple rightSimple hvalue).trans
          (store_addsNoIncrement hstore)
      exact ⟨lines, same ▸ added, quiet⟩
    · rintro ⟨bounds, small⟩
      rcases starts with ⟨increments, _⟩ | ⟨_, large, _⟩
      · rw [decides, if_pos bounds] at increments
        contradiction
      · exact large small

theorem assign_eq_ok_of_none {value : Instr}
    (h : instr linkage (.assign (.var dest ty') ty value) frame =
      .ok () after) (none : increment? dest ty value = none) :
    ∃ last, instr linkage value frame = .ok () last ∧
      store dest ty last = .ok () after := by
  rcases assign_eq_ok h with ⟨_, increments, _⟩ |
    ⟨start, last, ⟨_, rfl⟩ | ⟨increments, _⟩, hvalue, hstore⟩
  · cases none.symm.trans increments
  · exact ⟨last, hvalue, hstore⟩
  · exact absurd none increments

theorem copy_conveys {temp : String} {ty'' : Ty}
    (h : instr linkage (.assign (.var name ty'') ty
      (.single (.var temp ty'))) frame = .ok () after)
    (inSlot : slots (frame.registers.slot temp) = some (.word word)) :
    Conveys frame after stack slots stack
      (slots.set (after.registers.slot name) (.word word)) := by
  obtain ⟨last, hload, hstore⟩ := assign_eq_ok_of_none h rfl
  exact (load_conveys (.var ty') hload inSlot).trans (store_conveys hstore)
    (Builds.store name ty hstore).grows

/-- A variable is moved on through a temporary and gets the same value. -/
theorem assign_copy_conveys {temp : String} {ty'' : Ty}
    (known : step? name op left right = some step)
    (hmove : instr linkage (.assign (.var temp ty) ty
      (.binary op left right ty)) frame = .ok () mid)
    (hcopy : instr linkage (.assign (.var name ty'') ty''
      (.single (.var temp ty))) mid = .ok () after)
    (inSlot : slots (frame.registers.slot name) = some (.word word)) :
    Conveys frame after stack slots stack
      ((slots.set (after.registers.slot temp)
        (.word (moved word step))).set
        (frame.registers.slot name)
        (.word (moved word step))) := by
  -- both have their slots after the first instruction and keep them, even if
  -- the temporary is the variable itself
  have grows := (Builds.instr linkage _ hcopy).grows
  obtain ⟨kept, nameMet, tempMet⟩ := assign_slot known hmove
  have moves : Conveys frame mid stack slots stack _ :=
    assign_conveys known hmove inSlot
  rw [← slot_of_front grows.registers tempMet] at moves
  rw [← kept, ← slot_of_front grows.registers nameMet]
  refine moves.trans (copy_conveys hcopy ?_) grows
  rw [slot_of_front grows.registers tempMet]
  simp [Slots.set]

/-! ## Emission -/

theorem assign_passes (linkage : Linkage) (dest : String) (ty ty' ty'' : Ty)
    (known : step? name op left right = some step) :
    Passes (instr linkage (.assign (.var dest ty'') ty
      (.binary op left right ty'))) (dest :: left.variables ++ right.variables)
      0 0 := by
  obtain ⟨leftSimple, rightSimple⟩ := step?_isSimple known
  exact assignVar_passes linkage
    (binary_passes linkage op ty' leftSimple rightSimple (by decide))

theorem copy_passes (linkage : Linkage) (name temp : String)
    (ty ty' ty'' : Ty) :
    Passes (instr linkage (.assign (.var name ty'') ty
      (.single (.var temp ty')))) [name, temp] 0 0 :=
  assignVar_passes linkage (load_passes rfl (by decide))

theorem body_assign {target : Operand} {value : Instr}
    (h : instr linkage (.assign target ty value) frame = .ok () mid)
    (empty : mid.code.depth = 0) (method : String) (index : Nat)
    (rest : List Instr) :
    body linkage [] method index (.assign target ty value :: rest) frame =
      body linkage [] method (index + 1) rest mid := by
  have unlabelled : labels (Ir.Labels.before index []) frame =
      .ok () frame := rfl
  have dropped : dropResult (.assign target ty value) mid = .ok () mid := rfl
  have atEnd : depth mid = .ok 0 mid := by
    rw [← empty]
    rfl
  rw [body, Action.bind_of_ok unlabelled, Action.bind_of_ok h,
    Action.bind_of_ok dropped, Action.bind_of_ok atEnd]
  rfl

theorem body_moves (known : step? name op left right = some step)
    (linkage : Linkage) (method : String) (index : Nat)
    (empty : frame.code.depth = 0) :
    ∃ after,
      body linkage [] method index
        [.store (.var name .int) (.binary op left right .int)] frame =
          .ok () after ∧
      (if (-128 ≤ step ∧ step ≤ 127) ∧ frame.registers.slot name ≤ 255 then
        after.code.lines.toList = frame.code.lines.toList ++
          [.apply .iinc (.step (frame.registers.slot name) (Int8.ofInt step))]
      else AddsNoIncrement frame after) ∧
      ∀ stack slots word,
        slots (frame.registers.slot name) = some (.word word) →
        Conveys frame after stack slots stack
          (slots.set (frame.registers.slot name)
            (.word (moved word step))) := by
  obtain ⟨after, ok, atEnd, _⟩ :=
    assign_passes linkage name .int .int .int known frame empty
  refine ⟨after, body_assign ok atEnd method index [],
    assign_lines known ok, fun stack slots word inSlot => ?_⟩
  rw [← (assign_slot known ok).1]
  exact assign_conveys known ok inSlot

theorem body_copies (known : step? name op left right = some step)
    (linkage : Linkage) (method : String) (index : Nat) (temp : String)
    (ty : Ty) (empty : frame.code.depth = 0) :
    ∃ after,
      body linkage [] method index
        [.store (.var temp ty) (.binary op left right ty),
          .store (.var name .int) (.single (.var temp ty))] frame =
          .ok () after ∧
      ∀ stack slots word,
        slots (frame.registers.slot name) = some (.word word) →
        Conveys frame after stack slots stack
          ((slots.set (after.registers.slot temp)
            (.word (moved word step))).set
            (frame.registers.slot name)
            (.word (moved word step))) := by
  obtain ⟨mid, hmove, atMid, _⟩ :=
    assign_passes linkage temp ty ty ty known frame empty
  obtain ⟨after, hcopy, atEnd, _⟩ :=
    copy_passes linkage name temp .int ty .int mid atMid
  refine ⟨after, ?_, fun stack slots word inSlot =>
    assign_copy_conveys known hmove hcopy inSlot⟩
  exact (body_assign hmove atMid method index _).trans
    (body_assign hcopy atEnd method (index + 1) [])

/-- A variable that is subtracted is never moved on in place. -/
theorem body_subtracts (linkage : Linkage) (method : String) (index : Nat)
    (name temp : String) (word : Int32) (ty : Ty)
    (empty : frame.code.depth = 0) :
    ∃ after,
      body linkage [] method index
        [.store (.var temp ty)
          (.binary .sub (.int word) (.var name .int) ty),
          .store (.var name .int) (.single (.var temp ty))] frame =
          .ok () after ∧
      AddsNoIncrement frame after := by
  obtain ⟨mid, hmove, atMid, _⟩ : ∃ mid,
      instr linkage (.assign (.var temp ty) ty
        (.binary .sub (.int word) (.var name .int) ty)) frame =
          .ok () mid ∧ mid.code.depth = 0 ∧ _ :=
    assignVar_passes linkage
      (binary_passes linkage .sub ty rfl rfl (by decide)) frame empty
  obtain ⟨after, hcopy, atEnd, _⟩ :=
    copy_passes linkage name temp .int ty .int mid atMid
  refine ⟨after, (body_assign hmove atMid method index _).trans
    (body_assign hcopy atEnd method (index + 1) []), ?_⟩
  obtain ⟨last, hvalue, hstore⟩ := assign_eq_ok_of_none hmove rfl
  obtain ⟨loaded, hload, hstore'⟩ := assign_eq_ok_of_none hcopy rfl
  have moved : AddsNoIncrement frame mid :=
    (binary_addsNoIncrement (.inr rfl) rfl rfl hvalue).trans
      (store_addsNoIncrement hstore)
  exact moved.trans (.trans (.of_addsLoad (load_addsLoad rfl hload))
    (store_addsNoIncrement hstore'))

end Step

end Gen

end Jvm

namespace Tree.Stmt

open Jvm (Linkage Frame Conveys AddsNoIncrement)

def Compiles (linkage : Linkage) (method : String) (index : Nat)
    (code : List Fragment) (frame after : Frame) : Prop :=
  Jvm.Gen.body linkage [] method index (instrs code) frame = .ok () after

/--
An assignment that moves an int variable on is lowered to one instruction and
emitted as an increment in place exactly if the step is a signed byte and the
slot a byte.  Whichever lines are emitted, they leave the value of the tree in
the slot and everything else as it was, just as those do that compute the value
into a temporary first.  A variable that is subtracted from a literal always
goes through a temporary.
-/
theorem assign_moves_on {scope : Scope} {name : String} {target : Expr}
    (isInt : scope.IsInt name) (targets : target.reads name = true)
    (span : Span) (supply : Supply) (linkage : Linkage) (method : String)
    (index : Nat) :
    (∀ value step, value.MovesBy name step →
      (∃ code, (Stmt.assign span target value).lower scope supply =
          .ok code supply ∧
        ∀ frame, frame.code.depth = 0 →
          let slot := frame.registers.slot name
          ∃ after, Compiles linkage method index code frame after ∧
            (if (-128 ≤ step ∧ step ≤ 127) ∧ slot ≤ 255 then
              after.code.lines.toList = frame.code.lines.toList ++
                [.apply .iinc (.step slot (Int8.ofInt step))]
            else AddsNoIncrement frame after) ∧
            ∀ stack slots word, slots slot = some (.word word) →
              Conveys frame after stack slots stack
                (slots.set slot (.word (moved word step)))) ∧
      (∀ self oracle locals word, locals name = some (.word word) →
        value.eval (scope.setting self oracle) locals =
          pure (.word (moved word step))) ∧
      ((∃ code after, assignCopy scope name .int value supply =
          .ok code after) ↔ value.skipParens.ty ≠ .vararg) ∧
      ∀ code after, assignCopy scope name .int value supply =
          .ok code after →
        ∃ temp, ¬ supply.Kept temp ∧ ∀ frame, frame.code.depth = 0 →
          let slot := frame.registers.slot name
          ∃ after, Compiles linkage method index code frame after ∧
            ∀ stack slots word, slots slot = some (.word word) →
              Conveys frame after stack slots stack
                ((slots.set (after.registers.slot temp)
                  (.word (moved word step))).set slot
                  (.word (moved word step)))) ∧
    ∀ value word, value.SubtractsVar name word →
      (Stmt.assign span target value).lower scope supply =
        assignCopy scope name .int value supply ∧
      ∀ code after, assignCopy scope name .int value supply =
          .ok code after →
        ∀ frame, frame.code.depth = 0 → ∃ after,
          Compiles linkage method index code frame after ∧
          AddsNoIncrement frame after := by
  have lowers (value : Expr) :
      (Stmt.assign span target value).lower scope =
        assignVar scope name .int value := by
    rw [lower, assign_of_reads isInt targets]
  refine ⟨fun value step moves => ?_, fun value word subtracts => ?_⟩
  · obtain ⟨op, left, right, known, increments, throughTemp⟩ :=
      moves.lowers isInt
    refine ⟨⟨_, by rw [lowers, assignVar_of_some increments]; rfl, ?_⟩,
      fun self oracle locals word holds => moves.eval isInt self oracle holds,
      assignCopy_succeeds_iff (throughTemp _), ?_⟩
    · intro frame empty
      exact Jvm.Gen.body_moves known linkage method index empty
    · intro code after h
      obtain ⟨temp, drawn, rfl⟩ := assignCopy_eq_ok (throughTemp _) h
      refine ⟨temp, drawn.isNew, fun frame empty => ?_⟩
      exact Jvm.Gen.body_copies known linkage method index temp _ empty
  · obtain ⟨increments, throughTemp⟩ := subtracts.lowers isInt
    refine ⟨by rw [lowers, assignVar_of_none increments], ?_⟩
    intro code after h frame empty
    obtain ⟨temp, _, rfl⟩ := assignCopy_eq_ok (throughTemp _) h
    exact Jvm.Gen.body_subtracts linkage method index name temp word _ empty

def counting : Scope where
  table := {
    className := "A"
    methods := [
      { name := "g", params := [], locals := [⟨"x", .int⟩]
        returnTy := .int }] }
  method := "g"

theorem assign_moves_on_backwards :
    let x := Expr.paren ⟨.int, {}⟩ (.var ⟨.int, {}⟩ "x")
    let value := Expr.paren ⟨.int, {}⟩
      (.binary ⟨.int, {}⟩ .sub x (.int ⟨.int, {}⟩ 128))
    let frame : Frame := { registers := { names := ["this", "x"] } }
    let slots : Jvm.Slots := fun index =>
      if index = 1 then some (.word (-2147483648)) else none
    counting.IsInt "x" ∧ x.reads "x" = true ∧
    ∃ code, (Stmt.assign {} x value).lower counting {} = .ok code {} ∧
      ∃ after, Compiles ⟨"A", none, counting.table⟩ "g" 0 code frame after ∧
        after.code.lines.toList = [.apply .iinc (.step 1 (-128))] ∧
        Conveys frame after [] slots [] (slots.set 1 (.word 2147483520)) := by
  intro x value frame slots
  have isInt : counting.IsInt "x" := ⟨⟨"x", .int⟩, .inl rfl, rfl⟩
  have targets : x.reads "x" = true := rfl
  have moves : value.MovesBy "x" (-(128 : Int32).toInt) := .sub rfl rfl rfl
  obtain ⟨⟨code, lowered, compiles⟩, _⟩ := (assign_moves_on isInt targets {}
    {} ⟨"A", none, counting.table⟩ "g" 0).1 value _ moves
  obtain ⟨after, compiled, lines, conveys⟩ := compiles frame rfl
  rw [if_pos (by decide)] at lines
  exact ⟨isInt, targets, code, lowered, after, compiled, lines,
    conveys [] slots (-2147483648) rfl⟩

end Tree.Stmt

end JavaMinus
