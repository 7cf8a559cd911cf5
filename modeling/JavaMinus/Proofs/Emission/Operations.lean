import JavaMinus.Proofs.Emission.Execution

/-!
# Running emitted operations

Arithmetic wraps around in the same way on both sides.  A comparison looks at
the sign of a difference, which is right as long as the difference fits a
word.
-/

namespace JavaMinus

/-! ## Exact comparisons -/

/-- An operation, unless it compares words whose difference is no word. -/
def Effect.operateExactly (op : Operator) (left right : Value) :
    Effect Value := do
  let left ← word left
  let right ← word right
  let difference := left.toInt - right.toInt
  if (op = .lt ∨ op = .gt) ∧
      (difference < -2147483648 ∨ 2147483647 < difference) then stuck
  else pure (.word (← op.apply left right))

namespace Jvm

open Ir (Operand Instr Call Registers)

def comparison? : Operator → Option Test
  | .lt => some .lt
  | .gt => some .gt
  | .eq => some .eq
  | .ne => some .ne
  | .add | .sub | .mul | .div | .and => none

theorem apply_of_comparison {op : Operator} {test : Test}
    {left right : Int32} (compares : comparison? op = some test)
    (exact : ¬ ((op = .lt ∨ op = .gt) ∧
      (left.toInt - right.toInt < -2147483648 ∨
        2147483647 < left.toInt - right.toInt))) :
    op.apply left right =
      pure (if test.holds (left - right) then 1 else 0) := by
  have equal : left - right = 0 ↔ left = right := by
    rw [Int32.sub_eq_iff_eq_add, Int32.zero_add]
  have fits (low : -2147483648 ≤ left.toInt - right.toInt)
      (high : left.toInt - right.toInt ≤ 2147483647) :
      (left - right).toInt = left.toInt - right.toInt := by
    rw [Int32.toInt_sub]
    exact Int.bmod_eq_of_le (by omega) (by omega)
  cases op with
  | lt =>
      cases compares
      simp only [true_or, true_and, not_or, Int.not_lt] at exact
      have less : left - right < 0 ↔ left.toInt < right.toInt := by
        rw [Int32.lt_iff_toInt_lt, fits exact.1 exact.2, Int32.toInt_zero]
        omega
      simp [Operator.apply, Test.holds, less]
  | gt =>
      cases compares
      simp only [or_true, true_and, not_or, Int.not_lt] at exact
      have greater : 0 < left - right ↔ right.toInt < left.toInt := by
        rw [Int32.lt_iff_toInt_lt, fits exact.1 exact.2, Int32.toInt_zero]
        omega
      simp [Operator.apply, Test.holds, greater]
  | eq =>
      cases compares
      simp [Operator.apply, Test.holds, equal]
  | ne =>
      cases compares
      simp [Operator.apply, Test.holds, equal]
  | add | sub | mul | div | and => cases compares

theorem run_of_arithmetic {op : Operator} {frame after : Frame}
    (arithmetic : comparison? op = none)
    (h : Gen.operate op frame = .ok () after) :
    ∃ line, Emitted line 2 1 frame after ∧
      ∀ runtime stack slots, line.run runtime stack slots =
        onWords stack slots fun left right => op.apply left right := by
  cases op with
  | add =>
      refine ⟨_, Gen.emit_plain rfl h, fun runtime stack slots => ?_⟩
      simp only [Operator.apply_add]
      rfl
  | sub =>
      refine ⟨_, Gen.emit_plain rfl h, fun runtime stack slots => ?_⟩
      simp only [Operator.apply_sub]
      rfl
  | mul =>
      refine ⟨_, Gen.emit_plain rfl h, fun runtime stack slots => ?_⟩
      simp only [Operator.apply_mul]
      rfl
  | div =>
      refine ⟨_, Gen.emit_plain rfl h, fun runtime stack slots => ?_⟩
      simp only [Operator.apply_div]
      rfl
  | and => exact ⟨_, Gen.emit_plain rfl h, fun _ _ _ => rfl⟩
  | lt | gt | eq | ne => cases arithmetic

/-! ## Steps -/

theorem step_of_ok {runtime : Runtime} {lines : List Line} {state : State}
    {line : Line} {control : Control} {world : World}
    (fetch : lines[state.pc]? = some line)
    (ran : line.run runtime state.stack state.slots state.world =
      .ok control world) :
    step runtime lines state = state.follow lines world control := by
  simp only [step, fetch, ran]

namespace Execution

variable {exec : Execution} {frame after : Frame} {stack : List Value}
  {slots : Slots} {seen : List String} {start : State} {β : Type}

def Apart (exec : Execution) : Prop :=
  ∀ number name, IsComparison number name → exec.labels.lookup name = none

theorem step_silent {line : Line} {state : State} {stack' : List Value}
    {slots' : Slots} (fetch : exec.lines[state.pc]? = some line)
    (ran : line.run exec.runtime state.stack state.slots =
      pure (.next stack' slots')) :
    step exec.runtime exec.lines state =
      .next { state with
        pc := state.pc + 1, stack := stack', slots := slots' } :=
  step_of_ok fetch (by rw [ran]; rfl)

theorem step_jump {line : Line} {state : State} {stack' : List Value}
    {name : String} (fetch : exec.lines[state.pc]? = some line)
    (ran : line.run exec.runtime state.stack state.slots =
      pure (.jump name stack'))
    (member : .label name ∈ exec.lines) :
    step exec.runtime exec.lines state =
      .next { state with
        pc := exec.lines.idxOf (.label name), stack := stack'
        jumps := state.jumps ++ [name] } := by
  have ran' : line.run exec.runtime state.stack state.slots state.world =
      .ok (.jump name stack') state.world := by
    rw [ran]
    rfl
  rw [step_of_ok fetch ran', State.follow, if_pos member]

/-! ## Comparisons -/

private theorem comparison_fetch {test : Test}
    (compared : Compared test frame after) (within : exec.Within after)
    (offset : Nat) (small : offset < 7) :
    exec.lines[frame.code.lines.size + offset]? =
      (comparisonLines test frame.comparisons)[offset]? := by
  obtain ⟨rest, whole⟩ := within.lines
  rw [compared.lines, List.append_assoc] at whole
  rw [← whole, List.getElem?_append_right (by simp),
    List.getElem?_append_left (by simpa [comparisonLines] using small)]
  simp

private theorem comparison_label {test : Test}
    (compared : Compared test frame after) (within : exec.Within after)
    (fresh : frame.Fresh) {name : String}
    (isComparison : IsComparison frame.comparisons name) :
    .label name ∈ exec.lines ∧
      exec.lines.idxOf (.label name) = frame.code.lines.size +
        (comparisonLines test frame.comparisons).idxOf (.label name) := by
  have isNew := fresh _ _ (Nat.le_refl _) isComparison
  have member : .label name ∈ comparisonLines test frame.comparisons := by
    simpa [comparisonLines, IsComparison] using isComparison
  obtain ⟨rest, whole⟩ := within.lines
  rw [compared.lines, List.append_assoc] at whole
  rw [← whole, List.idxOf_append_of_notMem isNew,
    List.idxOf_append_of_mem member, Array.length_toList]
  exact ⟨by simp [member], rfl⟩

private def comparing (frame : Frame) (slots : Slots) (world : World)
    (jumps : List String) (offset : Nat) (stack : List Value) : State :=
  ⟨frame.code.lines.size + offset, stack, slots, world, jumps⟩

variable {world : World} {jumps : List String} {difference : Int32}

private theorem compare_true {test : Test}
    (compared : Compared test frame after) (within : exec.Within after)
    (fresh : frame.Fresh) (holds : test.holds difference = true) :
    Reaches (step exec.runtime exec.lines)
      (comparing frame slots world jumps 1 (.word difference :: stack))
      (comparing frame slots world
        (jumps ++ ["cmp_true_" ++ toString frame.comparisons]) 7
        (.ofBool true :: stack)) := by
  have fetch := comparison_fetch compared within
  obtain ⟨there, found⟩ := comparison_label compared within fresh (.inl rfl)
  have branches : step exec.runtime exec.lines
      (comparing frame slots world jumps 1 (.word difference :: stack)) =
        .next (comparing frame slots world
          (jumps ++ ["cmp_true_" ++ toString frame.comparisons]) 4 stack) := by
    have ran : (Line.apply (.branchIf test)
        (.label ("cmp_true_" ++ toString frame.comparisons))).run
          exec.runtime (.word difference :: stack) slots =
        pure (.jump ("cmp_true_" ++ toString frame.comparisons) stack) := by
      simp [Line.run, Opcode.runWith, branchOn, Effect.word, holds]
    rw [step_jump (fetch 1 (by omega)) ran there, found]
    simp [comparing, comparisonLines]
  exact (Reaches.single branches).trans <|
    (Reaches.single (step_silent (fetch 4 (by omega)) rfl)).trans <|
    (Reaches.single (step_silent (fetch 5 (by omega)) rfl)).trans <|
    .single (step_silent (fetch 6 (by omega)) rfl)

private theorem compare_false {test : Test}
    (compared : Compared test frame after) (within : exec.Within after)
    (fresh : frame.Fresh) (fails : test.holds difference = false) :
    Reaches (step exec.runtime exec.lines)
      (comparing frame slots world jumps 1 (.word difference :: stack))
      (comparing frame slots world
        (jumps ++ ["cmp_end_" ++ toString frame.comparisons]) 7
        (.ofBool false :: stack)) := by
  have fetch := comparison_fetch compared within
  obtain ⟨there, found⟩ := comparison_label compared within fresh (.inr rfl)
  have ran : (Line.apply (.branchIf test)
      (.label ("cmp_true_" ++ toString frame.comparisons))).run
        exec.runtime (.word difference :: stack) slots =
      pure (.next stack slots) := by
    simp [Line.run, Opcode.runWith, branchOn, Effect.word, fails]
  have jumps : step exec.runtime exec.lines
      (comparing frame slots world jumps 3 (.ofBool false :: stack)) =
        .next (comparing frame slots world
          (jumps ++ ["cmp_end_" ++ toString frame.comparisons]) 6
          (.ofBool false :: stack)) := by
    rw [step_jump (fetch 3 (by omega)) rfl there, found]
    simp [comparing, comparisonLines]
  exact (Reaches.single (step_silent (fetch 1 (by omega)) ran)).trans <|
    (Reaches.single (step_silent (fetch 2 (by omega)) rfl)).trans <|
    (Reaches.single jumps).trans <|
    .single (step_silent (fetch 6 (by omega)) rfl)

theorem compare_reaches {test : Test} {left right : Int32}
    (compared : Compared test frame after) (within : exec.Within after)
    (fresh : frame.Fresh) (apart : exec.Apart)
    (here : exec.At frame (.word right :: .word left :: stack) slots seen
      start) :
    ∃ reached, Reaches (step exec.runtime exec.lines) start reached ∧
      exec.At after (.ofBool (test.holds (left - right)) :: stack) slots seen
        reached ∧ reached.world = start.world := by
  have size : after.code.lines.size = frame.code.lines.size + 7 := by
    rw [← Array.length_toList, compared.lines]
    simp [comparisonLines]
  obtain ⟨pc, stack', slots', world, jumps⟩ := start
  obtain ⟨rfl, rfl, rfl, rfl⟩ := here
  have hidden {name : String}
      (isComparison : IsComparison frame.comparisons name) :
      (jumps ++ [name]).filter (fun name => (exec.labels.lookup name).isSome) =
        jumps.filter fun name => (exec.labels.lookup name).isSome := by
    simp [apart _ _ isComparison]
  have subtracts : Reaches (step exec.runtime exec.lines)
      ⟨_, .word right :: .word left :: stack, slots', world, jumps⟩
      (comparing frame slots' world jumps 1 (.word (left - right) :: stack)) :=
    .single (step_silent (comparison_fetch compared within 0 (by omega)) rfl)
  cases holds : test.holds (left - right) with
  | true =>
      exact ⟨_, subtracts.trans (compare_true compared within fresh holds),
        ⟨size.symm, rfl, rfl, hidden (.inl rfl)⟩, rfl⟩
  | false =>
      exact ⟨_, subtracts.trans (compare_false compared within fresh holds),
        ⟨size.symm, rfl, rfl, hidden (.inr rfl)⟩, rfl⟩

/-! ## Operations -/

theorem operate_runs {op : Operator} {left right : Value}
    {next : Value → Effect β} {post : β → World → State → Prop}
    (h : Gen.operate op frame = .ok () after) (within : exec.Within after)
    (fresh : frame.Fresh) (apart : exec.Apart)
    (here : exec.At frame (right :: left :: stack) slots seen start)
    (rest : ∀ reached value, exec.At after (value :: stack) slots seen reached →
      exec.Runs seen reached (next value reached.world) post) :
    exec.Runs seen start
      ((Effect.operateExactly op left right >>= next) start.world) post := by
  cases kind : comparison? op with
  | none =>
      obtain ⟨line, emitted, runs⟩ := run_of_arithmetic kind h
      have plain : ¬ (op = .lt ∨ op = .gt) := by
        rintro (rfl | rfl) <;> cases kind
      refine line_runs (fun value => value :: stack) (fun _ => slots) emitted
        within here ?_ fun value reached past => rest reached value past
      rw [runs]
      simp [onWords, Effect.operateExactly, plain, push]
  | some test =>
      have compared : Compared test frame after := by
        cases op <;> cases kind <;> exact Gen.compare_eq_ok h
      cases left with
      | word left =>
          cases right with
          | word right =>
              rw [Effect.operateExactly]
              simp only [Effect.word, pure_bind]
              split
              · exact .stuck
              next exact =>
                obtain ⟨reached, reaches, past, world⟩ :=
                  compare_reaches compared within fresh apart here
                rw [apply_of_comparison kind exact, pure_bind, pure_bind,
                  ← world]
                exact .of_reaches reaches (rest reached _ past)
          | null | array | object => exact .stuck
      | null | array | object => exact .stuck

end Execution

end Jvm

end JavaMinus
