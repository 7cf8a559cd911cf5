import JavaMinus.Proofs.Emission.Operations
import JavaMinus.Proofs.Emission.Progress
import JavaMinus.Proofs.Emission.Slots

/-!
# What comparisons leave on the stack

A comparison subtracts and then tests the sign.  The difference wraps around
where it is no word, and its sign is then the wrong one: the code answers
`<` and `>` correctly exactly if the difference is a word.
-/

namespace JavaMinus

def Operator.Relates : Operator → Int → Int → Prop
  | .lt, left, right => left < right
  | .gt, left, right => right < left
  | .eq, left, right => left = right
  | .ne, left, right => left ≠ right
  | .add, _, _ | .sub, _, _ | .mul, _, _ | .div, _, _ | .and, _, _ => False

instance (left right : Int) : (op : Operator) →
    Decidable (op.Relates left right)
  | .lt => inferInstanceAs (Decidable (left < right))
  | .gt => inferInstanceAs (Decidable (right < left))
  | .eq => inferInstanceAs (Decidable (left = right))
  | .ne => inferInstanceAs (Decidable (left ≠ right))
  | .add | .sub | .mul | .div | .and => inferInstanceAs (Decidable False)

namespace Jvm

open Ir (Operand Instr Registers)

/-! ## Signs of differences -/

def IsWord (value : Int) : Prop := -2147483648 ≤ value ∧ value ≤ 2147483647

instance (value : Int) : Decidable (IsWord value) :=
  inferInstanceAs (Decidable (_ ∧ _))

/-- The difference of two words is a word, or it wraps to the other sign. -/
theorem toInt_sub_cases (left right : Int32) :
    (IsWord (left.toInt - right.toInt) ∧
        (left - right).toInt = left.toInt - right.toInt) ∨
      (2147483647 < left.toInt - right.toInt ∧
        (left - right).toInt < 0) ∨
      (left.toInt - right.toInt < -2147483648 ∧
        0 < (left - right).toInt) := by
  have leftLow := Int32.minValue_le_toInt left
  have leftHigh := Int32.toInt_le left
  have rightLow := Int32.minValue_le_toInt right
  have rightHigh := Int32.toInt_le right
  simp only [IsWord, Int32.toInt_sub, Int.bmod_def, Int32.toInt_minValue,
    Int32.toInt_maxValue] at *
  split <;> omega

/-- The sign of the difference is the right one exactly if it is a word. -/
theorem holds_iff_relates {op : Operator} {test : Test}
    (compares : comparison? op = some test) (left right : Int32) :
    (test.holds (left - right) = true ↔
        op.Relates left.toInt right.toInt) ↔
      op = .eq ∨ op = .ne ∨ IsWord (left.toInt - right.toInt) := by
  have equal : left - right = 0 ↔ left.toInt = right.toInt := by
    rw [Int32.sub_eq_iff_eq_add, Int32.zero_add, Int32.toInt_inj]
  have wraps := toInt_sub_cases left right
  cases op with
  | lt =>
      cases compares
      simp only [Test.holds, decide_eq_true_eq, Int32.lt_iff_toInt_lt,
        Int32.toInt_zero, Operator.Relates, reduceCtorEq, false_or, IsWord]
        at wraps ⊢
      rcases wraps with ⟨isWord, value⟩ | far | far
      · exact iff_of_true (by omega) isWord
      · exact iff_of_false (fun same => by omega) (by omega)
      · exact iff_of_false (fun same => by omega) (by omega)
  | gt =>
      cases compares
      simp only [Test.holds, decide_eq_true_eq, Int32.lt_iff_toInt_lt,
        Int32.toInt_zero, Operator.Relates, reduceCtorEq, false_or, IsWord]
        at wraps ⊢
      rcases wraps with ⟨isWord, value⟩ | far | far
      · exact iff_of_true (by omega) isWord
      · exact iff_of_false (fun same => by omega) (by omega)
      · exact iff_of_false (fun same => by omega) (by omega)
  | eq =>
      cases compares
      simp [Test.holds, equal, Operator.Relates]
  | ne =>
      cases compares
      simp [Test.holds, equal, Operator.Relates]
  | add | sub | mul | div | and => cases compares

/-! ## Operands that hold words -/

/--
Loading the operand yields the word.  An element is read from the array that
its variable holds, which leaves a trace in the world.
-/
inductive Holds (registers : Registers) (slots : Slots) :
    Operand → Int32 → World → World → Prop where
  | literal (value : Int32) (ty : Ty) (world : World) :
      Holds registers slots (.literal value ty) value world world
  | var {name : String} {index : UInt16} {value : Int32} (ty : Ty)
      (world : World) (known : registers.slot? name = some index)
      (inSlot : slots index = some (.word value)) :
      Holds registers slots (.var name ty) value world world
  | element {array : String} {index : UInt16} {reference : Value}
      {position : Operand} {place value : Int32} {world mid final : World}
      (known : registers.slot? array = some index)
      (inSlot : slots index = some reference)
      (atPlace : Holds registers slots position place world mid)
      (loaded : Effect.load reference (.word place) mid =
        .ok (.word value) final) :
      Holds registers slots (.element array position) value world final

def heldIn (registers : Registers) (slots : Slots) : Locals := fun name =>
  (registers.slot? name).bind slots

namespace Holds

variable {registers : Registers} {slots : Slots} {operand : Operand}
  {word : Int32} {world final : World}

theorem usesSelf (h : Holds registers slots operand word world final) :
    operand.usesSelf = false := by
  induction h with
  | literal => rfl
  | var => rfl
  | element _ _ _ _ ih => exact ih

theorem read (h : Holds registers slots operand word world final)
    (setting : Ir.Setting) :
    operand.read setting (heldIn registers slots) world =
      .ok (.word word) final := by
  induction h with
  | literal => rfl
  | var ty world known inSlot =>
      simp only [Operand.read, Effect.read, heldIn, known, Option.bind_some,
        inSlot]
      rfl
  | @element array _ reference _ _ _ _ _ _ known inSlot _ loaded ih =>
      have isSet : Effect.read (heldIn registers slots) array =
          pure reference := by
        simp only [Effect.read, heldIn, known, Option.bind_some, inSlot]
      rw [Operand.read, isSet, pure_bind, Action.bind_of_ok ih]
      exact loaded

end Holds

namespace Execution

variable {exec : Execution} {frame after : Frame} {stack : List Value}
  {slots : Slots} {seen : List String} {start : State}

theorem held_heldIn (slots : Slots) :
    exec.Held (heldIn exec.registers slots) slots := by
  intro name value isSet
  obtain ⟨index, known, inSlot⟩ := Option.bind_eq_some_iff.mp isSet
  obtain ⟨member, rfl⟩ := Registers.mem_of_slot? known
  exact ⟨member, inSlot⟩

theorem load_reaches {operand : Operand} {word : Int32} {final : World}
    (h : Gen.load operand frame = .ok () after) (within : exec.Within after)
    (here : exec.At frame stack slots seen start)
    (holds : Holds exec.registers slots operand word start.world final) :
    ∃ reached, Reaches (step exec.runtime exec.lines) start reached ∧
      exec.At after (.word word :: stack) slots seen reached ∧
      reached.world = final := by
  have unused : operand.usesSelf = true → slots 0 = some exec.setting.self := by
    simp [holds.usesSelf]
  have runs : exec.Runs seen start
      ((operand.read exec.setting (heldIn exec.registers slots) >>= pure)
        start.world)
      (fun value _ reached => exec.At after (value :: stack) slots seen
        reached) :=
    load_runs h within here (held_heldIn slots) unused
      fun reached value past => .ok rfl past
  rw [bind_pure, holds.read exec.setting] at runs
  obtain ⟨reached, reaches, sees, past⟩ := runs
  exact ⟨reached, reaches, past, sees⟩

theorem comparison_reaches {linkage : Linkage} {op : Operator} {test : Test}
    {left right : Operand} {ty : Ty} {first second : Int32}
    {mid final : World} (compares : comparison? op = some test)
    (h : Gen.instr linkage (.binary op left right ty) frame = .ok () after)
    (within : exec.Within after) (fresh : frame.Fresh) (apart : exec.Apart)
    (here : exec.At frame stack slots seen start)
    (holdsLeft : Holds exec.registers slots left first start.world mid)
    (holdsRight : Holds exec.registers slots right second mid final) :
    ∃ reached, Reaches (step exec.runtime exec.lines) start reached ∧
      exec.At after (.ofBool (test.holds (first - second)) :: stack) slots
        seen reached ∧
      reached.world = final := by
  obtain ⟨_, afterLeft, hleft, h⟩ := Action.bind_eq_ok.mp h
  obtain ⟨_, afterRight, hright, hop⟩ := Action.bind_eq_ok.mp h
  have compared : Compared test afterRight after := by
    cases op <;> cases compares <;> exact Gen.compare_eq_ok hop
  have growsRight := (Builds.load right hright).grows
  have withinRight := within.before (Builds.operate op hop).grows
  have withinLeft := withinRight.before growsRight
  have freshRight := (fresh.after (Builds.load left hleft).grows).after
    growsRight
  obtain ⟨loaded, toLoaded, atLoaded, rfl⟩ :=
    load_reaches hleft withinLeft here holdsLeft
  obtain ⟨both, toBoth, atBoth, rfl⟩ :=
    load_reaches hright withinRight atLoaded holdsRight
  obtain ⟨reached, toEnd, atEnd, sees⟩ :=
    compare_reaches compared within freshRight apart atBoth
  exact ⟨reached, (toLoaded.trans toBoth).trans toEnd, atEnd, sees⟩

end Execution

/-! ## Exact comparisons -/

theorem Gen.binary_passes (linkage : Linkage) (op : Operator)
    {left right : Operand} (ty : Ty) {start : Nat}
    (leftSimple : left.isSimple = true) (rightSimple : right.isSimple = true)
    (room : start + 2 ≤ maxDepth) :
    Passes (Gen.instr linkage (.binary op left right ty))
      (left.variables ++ right.variables) start (start + 1) :=
  (load_passes leftSimple (by omega)).bind
    ((load_passes rightSimple (by omega)).andThen (operate_passes op room))

private def alone (runtime : Runtime) (after : Frame) (rest : List Line) :
    Execution where
  runtime
  lines := after.code.lines.toList ++ rest
  registers := after.registers
  labels := []
  hasSelf := false
  setting := .named .null runtime.oracle

theorem Gen.comparison_reaches {linkage : Linkage} {op : Operator}
    {test : Test} {left right : Operand} {ty : Ty} {frame after : Frame}
    (compares : comparison? op = some test) (fresh : frame.Fresh)
    (h : Gen.instr linkage (.binary op left right ty) frame = .ok () after)
    (runtime : Runtime) (rest : List Line) (stack : List Value)
    {slots : Slots} {first second : Int32} {world mid final : World}
    (jumps : List String)
    (holdsLeft : Holds after.registers slots left first world mid)
    (holdsRight : Holds after.registers slots right second mid final) :
    ∃ jumps', Reaches (step runtime (after.code.lines.toList ++ rest))
      ⟨frame.code.lines.size, stack, slots, world, jumps⟩
      ⟨after.code.lines.size,
        .ofBool (test.holds (first - second)) :: stack, slots, final,
        jumps'⟩ := by
  have within : (alone runtime after rest).Within after :=
    ⟨List.prefix_append _ _, List.prefix_refl _⟩
  have here : (alone runtime after rest).At frame stack slots []
      ⟨frame.code.lines.size, stack, slots, world, jumps⟩ :=
    ⟨rfl, rfl, rfl, by simp [Execution.visible, alone]⟩
  obtain ⟨reached, reaches, ⟨atEnd, onStack, inSlots, _⟩, sees⟩ :=
    Execution.comparison_reaches compares h within fresh (fun _ _ _ => rfl)
      here holdsLeft holdsRight
  obtain ⟨pc, values, held, world', jumps'⟩ := reached
  cases atEnd
  cases onStack
  cases inSlots
  cases sees
  exact ⟨jumps', reaches⟩

/--
The code of a comparison leaves one value above those that were there before.
It is the truth value of the relation exactly if the operator tests for
equality or the difference of the operands is a word.
-/
theorem Gen.comparison_exact_iff {op : Operator}
    (relational : op ∈ [.lt, .gt, .eq, .ne]) (linkage : Linkage)
    (left right : Operand) (ty : Ty) {frame : Frame} (fresh : frame.Fresh) :
    (left.isSimple = true → right.isSimple = true →
      frame.code.depth + 2 ≤ maxDepth →
      ∃ after,
        Gen.instr linkage (.binary op left right ty) frame = .ok () after) ∧
    ∀ after,
      Gen.instr linkage (.binary op left right ty) frame = .ok () after →
      after.code.depth = frame.code.depth + 1 ∧
      ∀ runtime rest stack slots first second world mid final jumps,
        Holds after.registers slots left first world mid →
        Holds after.registers slots right second mid final →
        ∃ truth jumps',
          Reaches (step runtime (after.code.lines.toList ++ rest))
            ⟨frame.code.lines.size, stack, slots, world, jumps⟩
            ⟨after.code.lines.size, .ofBool truth :: stack, slots, final,
              jumps'⟩ ∧
          ((truth = true ↔ op.Relates first.toInt second.toInt) ↔
            op = .eq ∨ op = .ne ∨ IsWord (first.toInt - second.toInt)) := by
  obtain ⟨test, compares⟩ : ∃ test, comparison? op = some test := by
    simp only [List.mem_cons, List.not_mem_nil, or_false] at relational
    rcases relational with rfl | rfl | rfl | rfl <;> exact ⟨_, rfl⟩
  refine ⟨fun leftSimple rightSimple room => ?_, fun after h => ⟨?_, ?_⟩⟩
  · obtain ⟨after, ok, _⟩ := Gen.binary_passes linkage op ty leftSimple
      rightSimple room frame rfl
    exact ⟨after, ok⟩
  · exact (Gen.instr_depth h).1 rfl
  · intro runtime rest stack slots first second world mid final jumps
      holdsLeft holdsRight
    obtain ⟨jumps', reaches⟩ := Gen.comparison_reaches compares fresh h runtime
      rest stack jumps holdsLeft holdsRight
    exact ⟨_, jumps', reaches, holds_iff_relates compares first second⟩

def waiting : Frame where
  registers := { names := ["this", "a", "b"] }
  code := { depth := 1, peak := 1, lines := #[.plain (.aloadAt ⟨0, by decide⟩)] }
  comparisons := 7

/-- The difference of these words is the least word. -/
def farSlots : Slots := fun index =>
  if index = 1 then some (.word (-6))
  else if index = 2 then some (.word 2147483642)
  else none

theorem Gen.comparison_exact_iff_waiting :
    waiting.Fresh ∧ ∀ linkage, ∃ after,
      Gen.instr linkage (.binary .lt (.var "a" .int) (.var "b" .int) .boolean)
        waiting = .ok () after ∧
      after.code.depth = 2 ∧
      ∀ runtime rest world, ∃ jumps',
        Reaches (step runtime (after.code.lines.toList ++ rest))
          ⟨1, [.null], farSlots, world, []⟩
          ⟨after.code.lines.size, [.word 1, .null], farSlots, world,
            jumps'⟩ := by
  have fresh : waiting.Fresh := by simp [Frame.Fresh, waiting]
  have relational : Operator.lt ∈ [.lt, .gt, .eq, .ne] := by decide
  refine ⟨fresh, fun linkage => ?_⟩
  have exact_iff := Gen.comparison_exact_iff relational linkage
    (.var "a" .int) (.var "b" .int) .boolean fresh
  obtain ⟨after, ok⟩ := exact_iff.1 rfl rfl (by decide)
  obtain ⟨depth, runs⟩ := exact_iff.2 after ok
  have registers : after.registers = waiting.registers := by
    cases ok
    rfl
  refine ⟨after, ok, depth, fun runtime rest world => ?_⟩
  have left : Holds after.registers farSlots (.var "a" .int) (-6) world
      world :=
    .var .int world (by rw [registers]; rfl) rfl
  have right : Holds after.registers farSlots (.var "b" .int) 2147483642 world
      world :=
    .var .int world (by rw [registers]; rfl) rfl
  obtain ⟨truth, jumps', reaches, right⟩ := runs runtime rest [.null] farSlots
    (-6) 2147483642 world world world [] left right
  have isWord : IsWord ((-6 : Int32).toInt - (2147483642 : Int32).toInt) := by
    decide
  obtain rfl : truth = true :=
    (right.mpr (.inr (.inr isWord))).mpr (by decide)
  exact ⟨jumps', reaches⟩

/-- The least word is taken not to be below one. -/
theorem Gen.least_not_below_one :
    (-2147483648 : Int32).toInt < (1 : Int32).toInt ∧
    ∀ linkage, ∃ after,
      Gen.instr linkage
        (.binary .lt (.literal (-2147483648) .int) (.literal 1 .int) .boolean)
        { registers := {} } = .ok () after ∧
      ∀ runtime rest world, ∃ jumps',
        Reaches (step runtime (after.code.lines.toList ++ rest))
          ⟨0, [], fun _ => none, world, []⟩
          ⟨after.code.lines.size, [.word 0], fun _ => none, world,
            jumps'⟩ := by
  refine ⟨by decide, fun linkage => ?_⟩
  have leftSimple : (Operand.literal (-2147483648) .int).isSimple = true := rfl
  have rightSimple : (Operand.literal 1 .int).isSimple = true := rfl
  obtain ⟨after, ok, _⟩ := Gen.binary_passes linkage .lt .boolean leftSimple
    rightSimple (by decide) { registers := {} } rfl
  refine ⟨after, ok, fun runtime rest world => ?_⟩
  have fresh : Frame.Fresh { registers := {} } := by simp [Frame.Fresh]
  have holdsLeft : Holds after.registers (fun _ => none)
      (.literal (-2147483648) .int) (-2147483648) world world :=
    .literal _ _ _
  exact Gen.comparison_reaches rfl fresh ok runtime rest [] [] holdsLeft
    (.literal 1 .int world)

end Jvm

end JavaMinus
