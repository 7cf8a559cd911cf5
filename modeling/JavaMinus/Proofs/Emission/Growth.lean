import JavaMinus.Proofs.Emission.Frames
import Mathlib.Logic.Relation

/-!
# What instructions do to a frame

The code of an instruction is put together from single lines, new registers
and comparisons, so it only adds to the frame.  The depth that is kept with
the code tells apart the instructions that leave a value on the stack from
those that do not; hence only the former can be assigned.
-/

namespace JavaMinus.Jvm

open Ir (Operand Instr Call Registers)

/-! ## Comparisons -/

def comparisonLines (test : Test) (number : Nat) : List Line := [
  .plain .isub,
  .apply (.branchIf test) (.label ("cmp_true_" ++ toString number)),
  .plain (.truth false),
  .apply .goto (.label ("cmp_end_" ++ toString number)),
  .label ("cmp_true_" ++ toString number),
  .plain (.truth true),
  .label ("cmp_end_" ++ toString number)]

theorem endLabel_ne_trueLabel (number : Nat) :
    "cmp_end_" ++ toString number ≠ "cmp_true_" ++ toString number := by
  intro same
  have chars := congrArg String.toList same
  simp [String.toList_append] at chars

structure Compared (test : Test) (before after : Frame) : Prop where
  lines : after.code.lines.toList =
    before.code.lines.toList ++ comparisonLines test before.comparisons
  registers : after.registers = before.registers
  comparisons : after.comparisons = before.comparisons + 1
  enough : 2 ≤ before.code.depth
  depth : after.code.depth = before.code.depth - 1
  peak : after.code.peak = max before.code.peak after.code.depth

theorem Gen.compare_eq_ok {test : Test} {frame after : Frame}
    (h : Gen.compare test frame = .ok () after) :
    Compared test frame after := by
  obtain ⟨number, first, counted, h⟩ := Action.bind_eq_ok.mp h
  cases counted
  obtain ⟨_, second, hsub, h⟩ := Action.bind_eq_ok.mp h
  obtain ⟨_, third, hbranch, h⟩ := Action.bind_eq_ok.mp h
  obtain ⟨depth, third', hdepth, h⟩ := Action.bind_eq_ok.mp h
  cases hdepth
  obtain ⟨_, fourth, hfalse, h⟩ := Action.bind_eq_ok.mp h
  obtain ⟨_, fifth, hgoto, h⟩ := Action.bind_eq_ok.mp h
  obtain ⟨_, sixth, htrueLabel, h⟩ := Action.bind_eq_ok.mp h
  obtain ⟨_, seventh, hreset, h⟩ := Action.bind_eq_ok.mp h
  cases hreset
  obtain ⟨_, eighth, htrue, hendLabel⟩ := Action.bind_eq_ok.mp h
  have sub := emit_plain rfl hsub
  have branch := emit_apply rfl hbranch
  have onFalse := emit_plain rfl hfalse
  have goto := emit_apply rfl hgoto
  have trueLabel := emit_label htrueLabel
  have onTrue := emit_plain rfl htrue
  have endLabel := emit_label hendLabel
  have afterSub := sub.depth
  have afterBranch := branch.depth
  have afterFalse := onFalse.depth
  have afterGoto := goto.depth
  have afterTrue := onTrue.depth
  have atEnd := endLabel.depth
  have enough := sub.enough
  simp only at afterSub afterTrue enough
  constructor
  · simp [endLabel.lines, onTrue.lines, trueLabel.lines, goto.lines,
      onFalse.lines, branch.lines, sub.lines, comparisonLines]
  · rw [endLabel.registers, onTrue.registers, trueLabel.registers,
      goto.registers, onFalse.registers, branch.registers, sub.registers]
  · rw [endLabel.comparisons, onTrue.comparisons, trueLabel.comparisons,
      goto.comparisons, onFalse.comparisons, branch.comparisons,
      sub.comparisons]
  · exact sub.enough
  · omega
  · have peaks := endLabel.peak
    simp only [onTrue.peak, trueLabel.peak, goto.peak, onFalse.peak,
      branch.peak, sub.peak, Line.isLabel, if_true, Bool.false_eq_true,
      if_false] at peaks
    omega

/-! ## Lines -/

namespace Line

def effect : Line → Nat × Nat
  | .label _ => (0, 0)
  | .apply _ (.method _ popped pushed) => (popped, pushed)
  | .plain op | .apply op _ => op.effect?.getD (0, 0)

def popped (line : Line) : Nat := line.effect.1

def pushed (line : Line) : Nat := line.effect.2

def target? : Line → Option String
  | .apply _ (.label name) => some name
  | _ => none

def isReturn : Line → Bool
  | .plain .ireturn | .plain .areturn | .plain .vreturn => true
  | _ => false

def isCall : Line → Bool
  | .apply _ (.method _ _ _) => true
  | _ => false

/-- Whether the line only works on the stack and on the slots. -/
def isStraight (line : Line) : Bool :=
  !line.isLabel && line.target?.isNone && !line.isReturn && !line.isCall

def IsStraight (line : Line) : Prop := line.isStraight = true

end Line

def loaded (call : Call) : List Operand :=
  if call.kind = .static then call.args else call.target :: call.args

def Line.Calls (call : Call) (line : Line) : Prop :=
  ∃ op target, line = .apply op (.method target (loaded call).length
    (if call.returnTy.isVoid then 0 else 1))

/-- The lines within an instruction that makes this call, if any. -/
def Line.Suits (call : Option Call) (line : Line) : Prop :=
  line.IsStraight ∨ ∃ invocation, call = some invocation ∧
    line.Calls invocation

/-! ## Construction -/

inductive Step (allowed : Line → Prop) : Frame → Frame → Prop where
  | line {line : Line} {before after : Frame}
      (emitted : Emitted line line.popped line.pushed before after)
      (isInstr : line.isLabel = false) (isAllowed : allowed line) :
      Step allowed before after
  | slot (frame : Frame) (name : String) :
      Step allowed frame
        { frame with registers := frame.registers.allocate name }
  | compare {test : Test} {before after : Frame}
      (compared : Compared test before after) : Step allowed before after

def Built (allowed : Line → Prop) : Frame → Frame → Prop :=
  Relation.ReflTransGen (Step allowed)

theorem Step.grows {allowed : Line → Prop} {before after : Frame}
    (h : Step allowed before after) : Grows before after := by
  cases h with
  | line emitted isInstr =>
      refine emitted.grows fun name same => ?_
      simp [same, Line.isLabel] at isInstr
  | slot =>
      exact ⟨List.prefix_refl _, prefix_allocate _ _, Nat.le_refl _,
        fun _ member => .inl member⟩
  | compare compared =>
      refine ⟨by simp [compared.lines],
        compared.registers ▸ List.prefix_refl _,
        by simp [compared.comparisons], fun name member => ?_⟩
      rw [compared.lines, List.mem_append] at member
      refine member.imp_right fun member => ?_
      refine ⟨before.comparisons, Nat.le_refl _,
        by simp [compared.comparisons], ?_⟩
      simpa [comparisonLines, IsComparison] using member

namespace Built

variable {allowed allowed' : Line → Prop} {first second third : Frame}

theorem refl (frame : Frame) : Built allowed frame frame :=
  Relation.ReflTransGen.refl

theorem trans (h : Built allowed first second)
    (h' : Built allowed second third) : Built allowed first third :=
  Relation.ReflTransGen.trans h h'

theorem single (h : Step allowed first second) : Built allowed first second :=
  Relation.ReflTransGen.single h

/-- What every step preserves, the whole construction preserves. -/
theorem preserves {motive : Frame → Prop} (h : Built allowed first second)
    (step : ∀ ⦃before after⦄, Step allowed before after → motive before →
      motive after) (holds : motive first) : motive second := by
  induction h with
  | refl => exact holds
  | tail _ last ih => exact step last ih

theorem mono (h : Built allowed first second)
    (more : ∀ line, allowed line → allowed' line) :
    Built allowed' first second := by
  refine h.preserves (motive := Built allowed' first)
    (fun before after step built => built.trans (single ?_)) (refl first)
  cases step with
  | line emitted isInstr isAllowed =>
      exact .line emitted isInstr (more _ isAllowed)
  | slot => exact .slot _ _
  | compare compared => exact .compare compared

theorem suits {call : Option Call}
    (h : Built Line.IsStraight first second) :
    Built (Line.Suits call) first second :=
  h.mono fun _ => .inl

theorem grows (h : Built allowed first second) : Grows first second :=
  h.preserves (motive := Grows first)
    (fun _ _ step grows => grows.trans step.grows) (.refl first)

end Built

def Builds {α : Type} (allowed : Line → Prop) (action : Gen α) : Prop :=
  ∀ ⦃frame result after⦄, action frame = .ok result after →
    Built allowed frame after

namespace Builds

variable {α β : Type} {allowed allowed' : Line → Prop}

theorem pure (value : α) : Builds allowed (pure value : Gen α) := by
  intro frame result after h
  obtain ⟨_, rfl⟩ := Action.pure_eq_ok.mp h
  exact .refl frame

theorem throw (cause : Breach) : Builds allowed (throw cause : Gen α) :=
  fun _ _ _ h => absurd h Action.throw_ne_ok

theorem bind {first : Gen α} {second : α → Gen β} (h : Builds allowed first)
    (h' : ∀ value, Builds allowed (second value)) :
    Builds allowed (first >>= second) := by
  intro frame result after ran
  obtain ⟨value, mid, ranFirst, ranSecond⟩ := Action.bind_eq_ok.mp ran
  exact (h ranFirst).trans (h' value ranSecond)

theorem mono {action : Gen α} (h : Builds allowed action)
    (more : ∀ line, allowed line → allowed' line) :
    Builds allowed' action :=
  fun _ _ _ ran => (h ran).mono more

theorem suits {call : Option Call} {action : Gen α}
    (h : Builds Line.IsStraight action) : Builds (Line.Suits call) action :=
  fun _ _ _ ran => (h ran).suits

theorem of_emitted {line : Line} {action : Gen Unit} {popped pushed : Nat}
    (h : ∀ ⦃frame after⦄, action frame = .ok () after →
      Emitted line popped pushed frame after)
    (effect : line.effect = (popped, pushed)) (isInstr : line.isLabel = false)
    (isAllowed : allowed line) : Builds allowed action := by
  intro frame result after ran
  have emitted := h ran
  rw [show popped = line.popped by simp [Line.popped, effect],
    show pushed = line.pushed by simp [Line.pushed, effect]] at emitted
  exact .single (.line emitted isInstr isAllowed)

theorem plain {op : Opcode} {popped pushed : Nat}
    (known : op.effect? = some (popped, pushed))
    (isAllowed : allowed (.plain op)) :
    Builds allowed (Gen.emit (.plain op)) :=
  of_emitted (fun _ _ => Gen.emit_plain known) (by simp [Line.effect, known])
    rfl isAllowed

theorem apply {op : Opcode} {arg : Argument} {popped pushed : Nat}
    (known : op.effect? = some (popped, pushed))
    (noCall : (Line.apply op arg).isCall = false)
    (isAllowed : allowed (.apply op arg)) :
    Builds allowed (Gen.emit (.apply op arg)) := by
  refine of_emitted (fun _ _ => Gen.emit_apply known) ?_ rfl isAllowed
  cases arg with
  | method => contradiction
  | _ => simp [Line.effect, known]

theorem invoke {op : Opcode} {target : String} {popped pushed : Nat}
    (isAllowed : allowed (.apply op (.method target popped pushed))) :
    Builds allowed (Gen.emit (.invoke op target popped pushed)) :=
  of_emitted (fun _ _ => Gen.emit_invoke) rfl rfl isAllowed

theorem slotLine {op : Opcode} {popped pushed : Nat}
    (known : op.effect? = some (popped, pushed)) (index : UInt16) :
    Builds Line.IsStraight (Gen.emit (.slot op index)) := by
  rw [Emit.slot]
  split
  next short form =>
    have straight : (Line.plain short).IsStraight := by
      rw [Opcode.shortForm?] at form
      split at form
      · cases op <;> cases form <;> rfl
      · contradiction
    exact plain ((Gen.effect?_of_shortForm? form).trans known) straight
  next => exact apply known rfl rfl

theorem int (value : Int32) :
    Builds Line.IsStraight (Gen.emit (.int value)) := by
  rw [Emit.int]
  split
  · exact plain rfl rfl
  · split
    · exact apply rfl rfl rfl
    · split
      · exact apply rfl rfl rfl
      · exact apply rfl rfl rfl

theorem slot (name : String) : Builds Line.IsStraight (Gen.slot name) := by
  intro frame result after h
  cases h
  exact .single (.slot frame name)

theorem load (operand : Operand) :
    Builds Line.IsStraight (Gen.load operand) := by
  induction operand with
  | literal value ty => exact int value
  | var name ty =>
      exact bind (slot name) fun index => slotLine (Gen.loadOp_effect? ty) index
  | element array position ih =>
      exact bind (slot array) fun index =>
        bind (slotLine rfl index) fun _ => bind ih fun _ => plain rfl rfl
  | self className => exact plain rfl rfl
  | field ref => exact throw _

theorem loadAll (operands : List Operand) :
    Builds Line.IsStraight (Gen.loadAll operands) := by
  induction operands with
  | nil => exact pure ()
  | cons operand rest ih => exact bind (load operand) fun _ => ih

theorem store (name : String) (ty : Ty) :
    Builds Line.IsStraight (Gen.store name ty) :=
  bind (slot name) fun index => slotLine (Gen.storeOp_effect? ty) index

theorem compare (test : Test) : Builds allowed (Gen.compare test) :=
  fun _ _ _ h => .single (.compare (Gen.compare_eq_ok h))

theorem operate (op : Operator) :
    Builds Line.IsStraight (Gen.operate op) := by
  cases op with
  | add | sub | mul | div | and => exact plain rfl rfl
  | lt | gt | eq | ne => exact compare _

theorem allocate (linkage : Linkage) (call : Call) :
    Builds Line.IsStraight (Gen.allocate linkage call) := by
  rw [Gen.allocate]
  split
  · split
    · exact bind (load _) fun _ => apply rfl rfl rfl
    · exact throw _
  · split
    · exact throw _
    · split
      · exact apply rfl rfl rfl
      · exact throw _

theorem dispatch (linkage : Linkage) (call : Call) (own : Option Signature) :
    Builds allowed (Gen.dispatch linkage call own) := by
  rw [Gen.dispatch]
  split
  · split
    · exact pure _
    · split
      · exact pure _
      · exact throw _
  · split
    · exact pure _
    · exact throw _
  · split
    · split
      · exact pure _
      · exact pure _
    · exact throw _

theorem call (linkage : Linkage) (call : Call) :
    Builds (Line.Suits (some call)) (Gen.call linkage call) := by
  have invokes : Builds (Line.Suits (some call))
      (Gen.invoke linkage call) := by
    rw [Gen.invoke]
    split
    · exact throw _
    · exact bind (loadAll _).suits fun _ =>
        bind (dispatch _ _ _) fun _ => invoke (.inr ⟨call, rfl, _, _, rfl⟩)
  rw [Gen.call]
  split
  · exact (allocate linkage call).suits
  · exact bind (load _).suits fun _ => plain rfl (.inl rfl)
  · exact invokes
  · exact invokes
  · exact invokes

theorem tryIncrement (name : String) (ty : Ty) (value : Instr) :
    Builds Line.IsStraight (Gen.tryIncrement name ty value) := by
  rw [Gen.tryIncrement]
  split
  · refine bind (slot name) fun index => ?_
    split
    · refine bind ?_ fun _ => pure true
      rw [Emit.increment]
      split
      · intro frame result after h
        obtain ⟨code, failed, _⟩ := Gen.emit_eq_ok.mp h
        exact absurd failed Action.throw_ne_ok
      · exact apply rfl rfl rfl
    · exact pure false
  · exact pure false

theorem instr (linkage : Linkage) (code : Instr) :
    Builds (fun _ => True) (Gen.instr linkage code) := by
  have always {α : Type} {action : Gen α} {allowed : Line → Prop}
      (h : Builds allowed action) : Builds (fun _ => True) action :=
    h.mono fun _ _ => trivial
  induction code with
  | assign dest ty value ih =>
      cases dest with
      | element array position =>
          exact bind (always (slot array)) fun index =>
            bind (always (slotLine rfl index)) fun _ =>
            bind (always (load position)) fun _ =>
            bind ih fun _ => plain rfl trivial
      | var name ty' =>
          refine bind (always (tryIncrement name ty value)) fun done => ?_
          cases done with
          | true => exact pure ()
          | false => exact bind ih fun _ => always (store name ty)
      | literal word ty' => exact throw _
      | self className => exact throw _
      | field ref => exact throw _
  | single operand => exact always (load operand)
  | binary op left right ty =>
      exact always (bind (load left) fun _ =>
        bind (load right) fun _ => operate op)
  | not operand ty =>
      exact always (bind (load operand) fun _ =>
        bind (plain rfl rfl) fun _ => plain rfl rfl)
  | call invocation => exact always (call linkage invocation)
  | getField object field =>
      exact always (bind (load object) fun _ => apply rfl rfl rfl)
  | putField object field value =>
      exact always (bind (load object) fun _ =>
        bind (load value) fun _ => apply rfl rfl rfl)
  | branch condition label =>
      exact bind (always (load condition)) fun _ => apply rfl rfl trivial
  | goto label => exact apply rfl rfl trivial
  | ret ty operand =>
      cases operand with
      | none =>
          rw [Gen.instr, Gen.ret]
          split
          · exact plain rfl trivial
          · exact throw _
      | some operand =>
          refine bind (always (load operand)) fun _ => ?_
          split
          · exact plain rfl trivial
          · split
            · exact throw _
            · exact plain rfl trivial

theorem dropResult (code : Instr) :
    Builds Line.IsStraight (Gen.dropResult code) := by
  cases code with
  | call invocation =>
      rw [Gen.dropResult]
      split
      · exact pure ()
      · exact plain rfl rfl
  | _ => exact pure ()

end Builds

/-! ## Depth -/

def pushesResult (call : Call) : Bool :=
  match call.kind with
  | .new | .arrayLength => true
  | .special | .static | .virtual => !call.returnTy.isVoid

def isValue : Instr → Bool
  | .single _ | .binary _ _ _ _ | .not _ _ | .getField _ _ => true
  | .call invocation => pushesResult invocation
  | .assign _ _ _ | .putField _ _ _ | .branch _ _ | .goto _ | .ret _ _ =>
      false

namespace Gen

variable {frame after : Frame}

theorem slot_eq_ok {name : String} {index : UInt16}
    (h : slot name frame = .ok index after) :
    index = frame.registers.slot name ∧
      after = { frame with registers := frame.registers.allocate name } := by
  cases h
  exact ⟨rfl, rfl⟩

theorem slotLine_depth {op : Opcode} {index : UInt16} {popped pushed : Nat}
    (known : op.effect? = some (popped, pushed))
    (h : emit (.slot op index) frame = .ok () after) :
    popped ≤ frame.code.depth ∧
      after.code.depth = frame.code.depth - popped + pushed := by
  rcases emit_slot known h with ⟨short, _, emitted⟩ | emitted
  · exact ⟨emitted.enough, emitted.depth⟩
  · exact ⟨emitted.enough, emitted.depth⟩

theorem int_depth {value : Int32}
    (h : emit (.int value) frame = .ok () after) :
    after.code.depth = frame.code.depth + 1 := by
  rw [Emit.int] at h
  split at h
  · exact (emit_plain rfl h).depth
  · split at h
    · exact (emit_apply rfl h).depth
    · split at h
      · exact (emit_apply rfl h).depth
      · exact (emit_apply rfl h).depth

theorem load_depth {operand : Operand}
    (h : load operand frame = .ok () after) :
    after.code.depth = frame.code.depth + 1 := by
  induction operand generalizing frame after with
  | literal value ty => exact int_depth h
  | var name ty =>
      obtain ⟨index, mid, hslot, h⟩ := Action.bind_eq_ok.mp h
      obtain ⟨_, rfl⟩ := slot_eq_ok hslot
      exact (slotLine_depth (loadOp_effect? ty) h).2
  | element array position ih =>
      obtain ⟨index, first, hslot, h⟩ := Action.bind_eq_ok.mp h
      obtain ⟨_, rfl⟩ := slot_eq_ok hslot
      obtain ⟨_, second, harray, h⟩ := Action.bind_eq_ok.mp h
      obtain ⟨_, third, hposition, hload⟩ := Action.bind_eq_ok.mp h
      have atArray := (slotLine_depth rfl harray).2
      have atPosition := ih hposition
      have loaded := (emit_plain rfl hload).depth
      simp only at atArray
      omega
  | self className => exact (emit_plain rfl h).depth
  | field ref => exact absurd h Action.throw_ne_ok

theorem loadAll_depth {operands : List Operand}
    (h : loadAll operands frame = .ok () after) :
    after.code.depth = frame.code.depth + operands.length := by
  induction operands generalizing frame with
  | nil =>
      obtain ⟨_, rfl⟩ := Action.pure_eq_ok.mp h
      rfl
  | cons operand rest ih =>
      obtain ⟨_, mid, hload, hrest⟩ := Action.bind_eq_ok.mp h
      rw [ih hrest, load_depth hload, List.length_cons]
      omega

theorem store_depth {name : String} {ty : Ty}
    (h : store name ty frame = .ok () after) :
    1 ≤ frame.code.depth ∧ after.code.depth = frame.code.depth - 1 := by
  obtain ⟨index, mid, hslot, h⟩ := Action.bind_eq_ok.mp h
  obtain ⟨_, rfl⟩ := slot_eq_ok hslot
  have counted := slotLine_depth (storeOp_effect? ty) h
  exact counted

theorem operate_depth {op : Operator}
    (h : operate op frame = .ok () after) :
    2 ≤ frame.code.depth ∧ after.code.depth = frame.code.depth - 1 := by
  cases op with
  | add | sub | mul | div | and =>
      have emitted := emit_plain rfl h
      have enough := emitted.enough
      exact ⟨enough, by rw [emitted.depth]; omega⟩
  | lt | gt | eq | ne =>
      have compared := compare_eq_ok h
      exact ⟨compared.enough, compared.depth⟩

end Gen

end JavaMinus.Jvm
