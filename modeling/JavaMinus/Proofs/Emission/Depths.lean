import JavaMinus.Proofs.Emission.Bodies
import JavaMinus.Proofs.Emission.Flow
import Mathlib.Data.List.Chain

/-!
# Simulated depths

The depth of the stack can be read off the lines of a method: go through them
in order, and at a label that was jumped to before, go on with the depth of
that jump.  The depth kept during the emission is this one.
-/

namespace JavaMinus.Jvm

open Ir (Instr Call Registers)

/-! ## Counting -/

def Line.name? : Line → Option String
  | .label name => some name
  | line => line.target?

theorem Line.name?_of_target? {line : Line} {name : String}
    (h : line.target? = some name) : line.name? = some name := by
  cases line with
  | label => simp [target?] at h
  | plain | apply => exact h

structure Visit where
  depth : Nat
  line : Line
  deriving DecidableEq

def Visit.after (visit : Visit) : Nat :=
  visit.depth - visit.line.popped + visit.line.pushed

structure Count where
  depth : Nat := 0
  jumps : List (String × Nat) := []

namespace Count

def arrive (count : Count) : Line → Visit
  | .label name => ⟨(count.jumps.lookup name).getD count.depth, .label name⟩
  | line => ⟨count.depth, line⟩

def pass (count : Count) (line : Line) : Count where
  depth := (count.arrive line).after
  jumps := (line.target?.map (·, (count.arrive line).after)).toList ++
    count.jumps

def passAll (count : Count) (lines : List Line) : Count :=
  lines.foldl pass count

def walk (count : Count) : List Line → List Visit
  | [] => []
  | line :: rest => count.arrive line :: (count.pass line).walk rest

variable (count : Count) (line : Line) (lines more : List Line)

@[simp] theorem walk_nil : count.walk [] = [] := rfl

@[simp] theorem walk_cons :
    count.walk (line :: lines) =
      count.arrive line :: (count.pass line).walk lines := rfl

@[simp] theorem passAll_nil : count.passAll [] = count := rfl

@[simp] theorem passAll_cons :
    count.passAll (line :: lines) = (count.pass line).passAll lines := rfl

@[simp] theorem line_arrive : (count.arrive line).line = line := by
  cases line <;> rfl

theorem walk_append :
    count.walk (lines ++ more) =
      count.walk lines ++ (count.passAll lines).walk more := by
  induction lines generalizing count with
  | nil => rfl
  | cons line lines ih => simp [ih]

theorem map_line_walk : (count.walk lines).map Visit.line = lines := by
  induction lines generalizing count with
  | nil => rfl
  | cons line lines ih => simp [ih]

theorem passAll_append :
    count.passAll (lines ++ more) = (count.passAll lines).passAll more :=
  List.foldl_append

variable {count lines}

theorem after_getLast {visit : Visit}
    (h : (count.walk lines).getLast? = some visit) :
    (count.passAll lines).depth = visit.after := by
  rcases List.eq_nil_or_concat lines with rfl | ⟨front, line, rfl⟩
  · simp at h
  · rw [List.concat_eq_append, walk_append] at h
    obtain rfl : (count.passAll front).arrive line = visit := by simpa using h
    simp [passAll_append, pass]

theorem visit_of_jump {name : String} {depth : Nat}
    (h : (name, depth) ∈ (count.passAll lines).jumps) :
    (name, depth) ∈ count.jumps ∨ ∃ visit ∈ count.walk lines,
      visit.line.target? = some name ∧ depth = visit.after := by
  induction lines generalizing count with
  | nil => exact .inl h
  | cons line lines ih =>
      rcases ih h with member | ⟨visit, member, target, known⟩
      · rw [pass, List.mem_append] at member
        rcases member with member | member
        · simp only [Option.mem_toList, Option.map_eq_some_iff,
            Prod.mk.injEq] at member
          obtain ⟨_, target, rfl, rfl⟩ := member
          exact .inr ⟨count.arrive line, by simp, by simpa using target, rfl⟩
        · exact .inl member
      · exact .inr ⟨visit, by simp [member], target, known⟩

end Count

def visits (lines : List Line) : List Visit := Count.walk {} lines

def depthAfter (lines : List Line) : Nat := (Count.passAll {} lines).depth

def deepest (visits : List Visit) : Nat :=
  (visits.map Visit.depth).foldr max 0

theorem deepest_append (front back : List Visit) :
    deepest (front ++ back) = max (deepest front) (deepest back) := by
  induction front with
  | nil => simp [deepest]
  | cons visit front ih =>
      simp only [deepest, List.cons_append, List.map_cons, List.foldr_cons]
        at ih ⊢
      rw [ih, Nat.max_assoc]

/-! ## Depths during the emission -/

/-- The line may be followed by a visit at the depth behind it. -/
def Visit.Falls (visit next : Visit) : Prop :=
  visit.line.continues = true → next.depth = visit.after

/--
The depth and the peak that are kept with some lines are the simulated ones,
and these fit all ways through the lines.  At a label of the method, and
behind a jump to one, the stack is empty.
-/
structure Sound (lines : List Line) (depth peak comparisons : Nat) :
    Prop where
  counted : depthAfter lines = depth
  highest : peak = max depth (deepest (visits lines))
  enough : ∀ visit ∈ visits lines, visit.line.popped ≤ visit.depth
  falls : (visits lines).IsChain Visit.Falls
  jumps : ∀ visit ∈ visits lines, ∀ goal ∈ visits lines, ∀ name,
    visit.line.target? = some name → goal.line = .label name →
    goal.depth = visit.after
  returns : ∀ visit ∈ visits lines, visit.line.isReturn = true →
    visit.depth = visit.line.popped
  named : ∀ visit ∈ visits lines, ∀ name, visit.line.name? = some name →
    (∃ number < comparisons, IsComparison number name) ∨
      visit.after = 0 ∧ ∀ number, ¬ IsComparison number name

namespace Sound

variable {lines : List Line} {depth peak comparisons : Nat} {line : Line}

theorem nil : Sound [] 0 0 0 :=
  ⟨rfl, rfl, by simp [visits], by simp [visits], by simp [visits],
    by simp [visits], by simp [visits]⟩

theorem visits_snoc :
    visits (lines ++ [line]) =
      visits lines ++ [(Count.passAll {} lines).arrive line] :=
  Count.walk_append {} lines [line]

theorem arrive_eq (sound : Sound lines depth peak comparisons)
    (apart : ∀ name, line.name? = some name →
      depth - line.popped + line.pushed = 0 ∧
        ∀ number, ¬ IsComparison number name) :
    (Count.passAll {} lines).arrive line = ⟨depth, line⟩ := by
  cases line with
  | plain | apply => exact congrArg (Visit.mk · _) sound.counted
  | label name =>
      obtain ⟨empty, other⟩ := apart name rfl
      have zero : depth = 0 := empty
      rw [Count.arrive]
      cases known : (Count.passAll {} lines).jumps.lookup name with
      | none => exact congrArg (Visit.mk · _) sound.counted
      | some behind =>
          obtain ⟨front, rest, whole, _⟩ := List.lookup_eq_some_iff.mp known
          have member : (name, behind) ∈ (Count.passAll {} lines).jumps := by
            simp [whole]
          rcases Count.visit_of_jump member with
            member | ⟨visit, passed, target, rfl⟩
          · simp at member
          · rcases sound.named visit passed name
              (Line.name?_of_target? target) with
              ⟨number, _, isComparison⟩ | ⟨isEmpty, _⟩
            · exact absurd isComparison (other number)
            · simp [isEmpty, zero]

theorem snoc (sound : Sound lines depth peak comparisons)
    (enough : line.popped ≤ depth)
    (apart : ∀ name, line.name? = some name →
      depth - line.popped + line.pushed = 0 ∧
        ∀ number, ¬ IsComparison number name)
    (returns : line.isReturn = true → depth = line.popped) :
    Sound (lines ++ [line]) (depth - line.popped + line.pushed)
      (max peak (depth - line.popped + line.pushed)) comparisons := by
  have arrives := sound.arrive_eq apart
  have all : visits (lines ++ [line]) = visits lines ++ [⟨depth, line⟩] := by
    rw [visits_snoc, arrives]
  have empty {visit : Visit} {name : String} (member : visit ∈ visits lines)
      (named : visit.line.name? = some name) (named' : line.name? = some name) :
      visit.after = 0 := by
    rcases sound.named visit member name named with
      ⟨number, _, isComparison⟩ | ⟨isEmpty, _⟩
    · exact absurd isComparison ((apart name named').2 number)
    · exact isEmpty
  constructor
  · rw [depthAfter, Count.passAll_append]
    simp [Count.pass, arrives, Visit.after]
  · have := sound.highest
    rw [all, deepest_append]
    simp only [deepest, List.map_cons, List.map_nil, List.foldr_cons,
      List.foldr_nil] at this ⊢
    omega
  · simp only [all, List.mem_append, List.mem_singleton]
    rintro visit (member | rfl)
    · exact sound.enough visit member
    · exact enough
  · rw [all, List.isChain_append]
    refine ⟨sound.falls, List.isChain_singleton _, ?_⟩
    intro last isLast next isNext _
    obtain rfl : ⟨depth, line⟩ = next := by simpa using isNext
    rw [← Count.after_getLast isLast]
    exact sound.counted.symm
  · simp only [all, List.mem_append, List.mem_singleton]
    rintro visit (member | rfl) goal (member' | rfl) name target isGoal
    · exact sound.jumps visit member goal member' name target isGoal
    · subst isGoal
      have isEmpty : depth = 0 := (apart name rfl).1
      exact isEmpty.trans
        (empty member (Line.name?_of_target? target) rfl).symm
    · have named := Line.name?_of_target? target
      have isEmpty := empty member' (by rw [isGoal]; rfl) named
      rw [Visit.after, isGoal] at isEmpty
      exact Eq.trans isEmpty (apart name named).1.symm
    · subst isGoal
      simp [Line.target?] at target
  · simp only [all, List.mem_append, List.mem_singleton]
    rintro visit (member | rfl) isReturn
    · exact sound.returns visit member isReturn
    · exact returns isReturn
  · simp only [all, List.mem_append, List.mem_singleton]
    rintro visit (member | rfl) name named
    · exact sound.named visit member name named
    · exact .inr (apart name named)

theorem labels {names : List String} (sound : Sound lines 0 peak comparisons)
    (apart : ∀ name ∈ names, ∀ number, ¬ IsComparison number name) :
    Sound (lines ++ names.map .label) 0 peak comparisons := by
  induction names generalizing lines with
  | nil => simpa using sound
  | cons name names ih =>
      have isApart : ∀ other, (Line.label name).name? = some other →
          0 - (Line.label name).popped + (Line.label name).pushed = 0 ∧
            ∀ number, ¬ IsComparison number other := by
        rintro _ ⟨⟩
        exact ⟨rfl, apart name (by simp)⟩
      have first := sound.snoc (Nat.zero_le _) isApart fun _ => rfl
      have rest := ih (by simpa [Line.popped, Line.pushed, Line.effect]
        using first) fun other member => apart other (by simp [member])
      simpa using rest

end Sound

/-! ## Comparisons -/

def comparisonVisits (test : Test) (number base : Nat) : List Visit := [
  ⟨base + 2, .plain .isub⟩,
  ⟨base + 1,
    .apply (.branchIf test) (.label ("cmp_true_" ++ toString number))⟩,
  ⟨base, .plain (.truth false)⟩,
  ⟨base + 1, .apply .goto (.label ("cmp_end_" ++ toString number))⟩,
  ⟨base, .label ("cmp_true_" ++ toString number)⟩,
  ⟨base, .plain (.truth true)⟩,
  ⟨base + 1, .label ("cmp_end_" ++ toString number)⟩]

theorem walk_comparison (test : Test) (number : Nat) {count : Count}
    {base : Nat} (deep : count.depth = base + 2) :
    count.walk (comparisonLines test number) =
        comparisonVisits test number base ∧
      (count.passAll (comparisonLines test number)).depth = base + 1 := by
  have apart := endLabel_ne_trueLabel number
  simp only [comparisonLines, comparisonVisits]
  generalize "cmp_true_" ++ toString number = trueLabel at apart ⊢
  generalize "cmp_end_" ++ toString number = endLabel at apart ⊢
  simp [Count.pass, Count.arrive, Visit.after, Line.popped, Line.pushed,
    Line.effect, Line.target?, Opcode.effect?, Opcode.truth,
    List.lookup_cons, beq_false_of_ne apart.symm, deep]

section Comparisons

variable {test : Test} {number base : Nat}

theorem deepest_comparison :
    deepest (comparisonVisits test number base) = base + 2 := by
  simp [comparisonVisits, deepest]

theorem comparison_enough {visit : Visit}
    (member : visit ∈ comparisonVisits test number base) :
    visit.line.popped ≤ visit.depth := by
  simp only [comparisonVisits, List.mem_cons, List.not_mem_nil, or_false]
    at member
  rcases member with rfl | rfl | rfl | rfl | rfl | rfl | rfl <;>
    simp [Line.popped, Line.effect, Opcode.effect?, Opcode.truth]

theorem comparison_falls :
    (comparisonVisits test number base).IsChain Visit.Falls := by
  simp [comparisonVisits, Visit.Falls, Visit.after, Line.continues,
    Line.isReturn, Line.popped, Line.pushed, Line.effect, Opcode.effect?,
    Opcode.truth]

theorem comparison_name {visit : Visit} {name : String}
    (member : visit ∈ comparisonVisits test number base)
    (named : visit.line.name? = some name) : IsComparison number name := by
  simp only [comparisonVisits, List.mem_cons, List.not_mem_nil, or_false]
    at member
  rcases member with rfl | rfl | rfl | rfl | rfl | rfl | rfl <;>
    simp_all [Line.name?, Line.target?, IsComparison]

theorem comparison_jumps {visit goal : Visit} {name : String}
    (member : visit ∈ comparisonVisits test number base)
    (member' : goal ∈ comparisonVisits test number base)
    (target : visit.line.target? = some name)
    (isGoal : goal.line = .label name) : goal.depth = visit.after := by
  have apart := endLabel_ne_trueLabel number
  simp only [comparisonVisits] at member member'
  generalize "cmp_true_" ++ toString number = trueLabel
    at apart member member'
  generalize "cmp_end_" ++ toString number = endLabel
    at apart member member'
  simp only [List.mem_cons, List.not_mem_nil, or_false] at member member'
  rcases member with rfl | rfl | rfl | rfl | rfl | rfl | rfl <;>
    simp only [Line.target?, Option.some.injEq, reduceCtorEq] at target <;>
    rcases member' with rfl | rfl | rfl | rfl | rfl | rfl | rfl <;>
    simp_all [Visit.after, Line.popped, Line.pushed, Line.effect,
      Opcode.effect?]

theorem comparison_isReturn {visit : Visit}
    (member : visit ∈ comparisonVisits test number base) :
    visit.line.isReturn = false := by
  simp only [comparisonVisits, List.mem_cons, List.not_mem_nil, or_false]
    at member
  rcases member with rfl | rfl | rfl | rfl | rfl | rfl | rfl <;> rfl

end Comparisons

/-- The labels of a comparison are new, so that only its own jumps use them. -/
theorem Sound.compared {lines : List Line} {base peak comparisons : Nat}
    (sound : Sound lines (base + 2) peak comparisons) (test : Test) :
    Sound (lines ++ comparisonLines test comparisons) (base + 1)
      (max peak (base + 1)) (comparisons + 1) := by
  obtain ⟨walked, behind⟩ := walk_comparison test comparisons sound.counted
  have all : visits (lines ++ comparisonLines test comparisons) =
      visits lines ++ comparisonVisits test comparisons base := by
    rw [visits, Count.walk_append, walked]
    rfl
  have isNew {visit : Visit} {name : String} (member : visit ∈ visits lines)
      (named : visit.line.name? = some name)
      (isComparison : IsComparison comparisons name) : False := by
    rcases sound.named visit member name named with
      ⟨number, earlier, isOther⟩ | ⟨_, other⟩
    · have := isComparison.numbered.unique isOther.numbered
      omega
    · exact other _ isComparison
  constructor
  · rw [depthAfter, Count.passAll_append, behind]
  · have := sound.highest
    rw [all, deepest_append, deepest_comparison]
    omega
  · simp only [all, List.mem_append]
    rintro visit (member | member)
    · exact sound.enough visit member
    · exact comparison_enough member
  · rw [all, List.isChain_append]
    refine ⟨sound.falls, comparison_falls, ?_⟩
    intro last isLast next isNext _
    obtain rfl : ⟨base + 2, .plain .isub⟩ = next := by
      simpa [comparisonVisits] using isNext
    rw [← Count.after_getLast isLast]
    exact sound.counted.symm
  · simp only [all, List.mem_append]
    rintro visit (member | member) goal (member' | member') name target isGoal
    · exact sound.jumps visit member goal member' name target isGoal
    · exact (isNew member (Line.name?_of_target? target)
        (comparison_name member' (by rw [isGoal]; rfl))).elim
    · exact (isNew member' (by rw [isGoal]; rfl)
        (comparison_name member (Line.name?_of_target? target))).elim
    · exact comparison_jumps member member' target isGoal
  · simp only [all, List.mem_append]
    rintro visit (member | member) isReturn
    · exact sound.returns visit member isReturn
    · simp [comparison_isReturn member] at isReturn
  · simp only [all, List.mem_append]
    rintro visit (member | member) name named
    · refine (sound.named visit member name named).imp_left ?_
      rintro ⟨number, earlier, isComparison⟩
      exact ⟨number, Nat.lt_succ_of_lt earlier, isComparison⟩
    · exact .inl ⟨comparisons, Nat.lt_succ_self _,
        comparison_name member named⟩

/-! ## Frames -/

namespace Leaves

variable {code : Instr} {line : Line} {name : String}

theorem isLabel (h : Leaves code line) : line.isLabel = false := by
  cases h <;> rfl

theorem target (h : Leaves code line) (named : line.name? = some name) :
    code.target? = some name := by
  cases h with
  | branch | goto => exact named
  | ret => simp [Line.name?, Line.target?] at named

end Leaves

namespace Frame

def Sound (frame : Frame) : Prop :=
  Jvm.Sound frame.code.lines.toList frame.code.depth frame.code.peak
    frame.comparisons

namespace Sound

variable {before after : Frame} {line : Line}

theorem start (registers : Registers) : Frame.Sound { registers } :=
  Jvm.Sound.nil

theorem emitted (sound : before.Sound)
    (emitted : Emitted line line.popped line.pushed before after)
    (isInstr : line.isLabel = false)
    (apart : ∀ name, line.name? = some name → after.code.depth = 0 ∧
      ∀ number, ¬ IsComparison number name)
    (returns : line.isReturn = true → before.code.depth = line.popped) :
    after.Sound := by
  rw [emitted.depth] at apart
  have sound := Jvm.Sound.snoc sound emitted.enough apart returns
  rw [← emitted.depth] at sound
  rw [Sound, emitted.lines, emitted.comparisons, emitted.peak, isInstr,
    Array.toList_push]
  exact sound

theorem step {call : Option Call} (h : Step (Line.Suits call) before after)
    (sound : before.Sound) : after.Sound := by
  cases h with
  | @line line _ _ emitted isInstr suits =>
      have noName : line.name? = none ∧ line.isReturn = false := by
        rcases suits with straight | ⟨_, _, op, target, rfl⟩
        · cases line <;>
            simp_all [Line.IsStraight, Line.isStraight, Line.name?,
              Line.isLabel]
        · exact ⟨rfl, rfl⟩
      exact sound.emitted emitted isInstr (by simp [noName])
        (by simp [noName])
  | slot => exact sound
  | @compare test _ _ compared =>
      obtain ⟨base, deep⟩ := Nat.exists_eq_add_of_le' compared.enough
      rw [Frame.Sound, deep] at sound
      have depth : after.code.depth = base + 1 := by
        rw [compared.depth, deep]
        rfl
      rw [Frame.Sound, compared.lines, compared.peak, depth,
        compared.comparisons]
      exact sound.compared test

theorem marked {names : List String} (sound : before.Sound)
    (marked : Marked names before after) (empty : before.code.depth = 0)
    (apart : ∀ name ∈ names, ∀ number, ¬ IsComparison number name) :
    after.Sound := by
  rw [Frame.Sound, empty] at sound
  rw [Frame.Sound, marked.lines, marked.depth, marked.peak,
    marked.comparisons, empty]
  exact Jvm.Sound.labels sound apart

theorem emits {linkage : Linkage} {code : Instr} (sound : before.Sound)
    (emits : Emits linkage code before after)
    (empty : before.code.depth = 0)
    (apart : ∀ name, code.target? = some name →
      ∀ number, ¬ IsComparison number name) : after.Sound := by
  obtain ⟨mid, built, rest⟩ := emits.cases empty
  have soundMid : mid.Sound := built.preserves (fun _ _ => step) sound
  rcases rest with rfl | ⟨line, leaves, emitted⟩
  · exact soundMid
  · obtain ⟨_, _, _, balanced⟩ := emits
    refine soundMid.emitted emitted leaves.isLabel (fun name named =>
      ⟨balanced, apart name (leaves.target named)⟩) fun _ => ?_
    have depth := emitted.depth
    have enough := emitted.enough
    omega

end Sound

end Frame

end JavaMinus.Jvm
