import JavaMinus.Proofs.Emission.Depths
import JavaMinus.Proofs.Emission.Methods

/-!
# Stack discipline

On every way through the lines of a method, jumps within comparisons included,
the stack has the simulated depth at each line.  So the machine never pops
more than there is, and the greatest simulated depth is room enough.
-/

namespace JavaMinus

structure Ir.Method.AvoidsComparisons (source : Ir.Method) : Prop where
  labels : ∀ entry ∈ source.labels, ∀ number,
    ¬ Jvm.IsComparison number entry.1
  targets : ∀ code ∈ source.instrs, ∀ name, code.target? = some name →
    ∀ number, ¬ Jvm.IsComparison number name

namespace Jvm

open Ir (Instr Call Labels)

/-! ## Depths on the way -/

theorem Arrives.passes {lines more : List Line} {position depth : Nat}
    (before : Arrives lines position depth)
    (stand : more <+: lines.drop position)
    (continues : ∀ line ∈ more, line.continues = true) :
    Arrives lines (position + more.length)
      (more.foldl (fun depth line => depth - line.popped + line.pushed)
        depth) := by
  induction more generalizing position depth with
  | nil => exact before
  | cons line more ih =>
      rw [List.forall_mem_cons] at continues
      obtain ⟨rest, whole⟩ := stand
      have fetch : lines[position]? = some line := by
        rw [← List.head?_drop, ← whole]
        rfl
      have next := before.step fetch (.next fetch continues.1)
      rw [List.length_cons, List.foldl_cons, Nat.add_comm more.length,
        ← Nat.add_assoc]
      refine ih next ⟨rest, ?_⟩ continues.2
      rw [← List.drop_drop, ← whole]
      rfl

theorem getElem?_visits {lines : List Line} {position : Nat} {visit : Visit}
    (h : (visits lines)[position]? = some visit) :
    lines[position]? = some visit.line := by
  have known := congrArg (·[position]?) (Count.map_line_walk {} lines)
  simp only [List.getElem?_map] at known
  rw [← known]
  exact congrArg (Option.map Visit.line) h

theorem length_visits (lines : List Line) :
    (visits lines).length = lines.length := by
  rw [← List.length_map Visit.line, visits, Count.map_line_walk]

namespace Sound

variable {lines : List Line} {depth peak comparisons position next : Nat}
  {visit visit' : Visit}

theorem flow (sound : Sound lines depth peak comparisons)
    (here : (visits lines)[position]? = some visit)
    (there : (visits lines)[next]? = some visit')
    (flows : Flows lines position next) : visit'.depth = visit.after := by
  cases flows with
  | next fetch continues =>
      obtain ⟨bound, rfl⟩ := List.getElem?_eq_some_iff.mp there
      obtain ⟨bound', rfl⟩ := List.getElem?_eq_some_iff.mp here
      have falls := List.isChain_iff_getElem.mp sound.falls position bound
      rw [getElem?_visits here, Option.some.injEq] at fetch
      exact falls (by rw [fetch]; exact continues)
  | jump fetch target isGoal =>
      rw [getElem?_visits here, Option.some.injEq] at fetch
      rw [getElem?_visits there, Option.some.injEq] at isGoal
      exact sound.jumps visit (List.mem_of_getElem? here) visit'
        (List.mem_of_getElem? there) _ (fetch ▸ target) isGoal

theorem arrives {depth' : Nat} (sound : Sound lines depth peak comparisons)
    (arrives : Arrives lines position depth')
    (here : (visits lines)[position]? = some visit) :
    depth' = visit.depth := by
  induction arrives generalizing visit with
  | start =>
      cases lines with
      | nil => simp [visits] at here
      | cons line lines =>
          obtain rfl : Count.arrive {} line = visit := by
            simpa [visits] using here
          cases line <;> rfl
  | step before fetch flows ih =>
      obtain ⟨bound, _⟩ := List.getElem?_eq_some_iff.mp fetch
      rw [← length_visits] at bound
      have there := List.getElem?_eq_getElem bound
      have same := getElem?_visits there
      rw [fetch, Option.some.injEq] at same
      rw [sound.flow there here flows, ih there, same]
      rfl

end Sound

/-! ## Methods -/

namespace Laid

variable {linkage : Linkage} {source : Ir.Method} {final : Frame}
  {index : Nat}

theorem empty (laid : Laid linkage source final)
    (avoids : source.AvoidsComparisons)
    (inside : index ≤ source.instrs.length) :
    (boundary linkage source index).code.depth = 0 :=
  (laid.orderly avoids.labels inside).depth

/-- Between any two instructions all depths are as simulated. -/
theorem sound (laid : Laid linkage source final)
    (avoids : source.AvoidsComparisons)
    (inside : index ≤ source.instrs.length) :
    (boundary linkage source index).Sound := by
  have apart (spot : Nat) : ∀ name ∈ source.labels.before spot,
      ∀ number, ¬ IsComparison number name := by
    intro name member
    exact avoids.labels (name, spot) (Labels.mem_before.mp member)
  induction index with
  | zero =>
      exact (Frame.Sound.start source.registers).marked laid.boundary_zero rfl
        (apart 0)
  | succ index ih =>
      have fetch := List.getElem?_eq_getElem inside
      obtain ⟨done, emits, marked⟩ := laid.boundary_succ fetch
      have here := Nat.le_of_lt inside
      have soundDone := (ih here).emits emits (laid.empty avoids here)
        (avoids.targets _ (List.mem_of_getElem? fetch))
      have isEmpty : done.code.depth = 0 := by
        obtain ⟨_, _, _, balanced⟩ := emits
        exact balanced
      exact soundDone.marked marked isEmpty (apart (index + 1))

theorem boundary_front {later : Nat} (laid : Laid linkage source final)
    (order : index ≤ later) (inside : later ≤ source.instrs.length) :
    (boundary linkage source index).code.lines.toList <+:
      (boundary linkage source later).code.lines.toList := by
  induction order with
  | refl => exact List.prefix_refl _
  | step _ ih =>
      obtain ⟨done, emits, marked⟩ :=
        laid.boundary_succ (List.getElem?_eq_getElem inside)
      have atDone := (ih (Nat.le_of_lt inside)).trans emits.grows.lines
      exact atDone.trans (marked.lines ▸ List.prefix_append _ _)

end Laid

def Adds (allowed : Line → Prop) (before after : Frame) : Prop :=
  ∃ added, after.code.lines.toList = before.code.lines.toList ++ added ∧
    ∀ line ∈ added, allowed line

namespace Adds

variable {allowed : Line → Prop} {first second third : Frame}

theorem refl (frame : Frame) : Adds allowed frame frame := ⟨[], by simp⟩

theorem trans (h : Adds allowed first second) (h' : Adds allowed second third) :
    Adds allowed first third := by
  obtain ⟨added, lines, all⟩ := h
  obtain ⟨added', lines', all'⟩ := h'
  refine ⟨added ++ added', by simp [lines', lines], ?_⟩
  simp only [List.mem_append]
  rintro line (member | member)
  · exact all line member
  · exact all' line member

theorem emitted {line : Line} {popped pushed : Nat}
    (h : Emitted line popped pushed first second) (isAllowed : allowed line) :
    Adds allowed first second :=
  ⟨[line], by simp [h.lines], by simpa using isAllowed⟩

end Adds

def Line.MakesOnly (call : Option Call) (line : Line) : Prop :=
  line.isCall = true → ∃ invocation, call = some invocation ∧
    line.Calls invocation

theorem Built.adds {call : Option Call} {before after : Frame}
    (h : Built (Line.Suits call) before after) :
    Adds (Line.MakesOnly call) before after := by
  refine h.preserves (motive := Adds (Line.MakesOnly call) before)
    (fun _ _ step adds => adds.trans ?_) (.refl before)
  cases step with
  | line emitted _ suits =>
      refine .emitted emitted fun isCall => suits.resolve_left fun straight => ?_
      simp_all [Line.IsStraight, Line.isStraight]
  | slot => exact .refl _
  | @compare test _ _ compared =>
      refine ⟨_, compared.lines, ?_⟩
      simp [comparisonLines, Line.MakesOnly, Line.isCall]

theorem Emits.adds {linkage : Linkage} {code : Instr} {before after : Frame}
    (h : Emits linkage code before after) (empty : before.code.depth = 0) :
    Adds (Line.MakesOnly code.call?) before after := by
  obtain ⟨mid, built, rfl | ⟨line, leaves, emitted⟩⟩ := h.cases empty
  · exact built.adds
  · refine built.adds.trans (.emitted emitted fun isCall => ?_)
    cases leaves <;> contradiction

/--
What is to be said of the stack in the lines of a method.  Calls are counted
as in the three-address code: receiver and arguments are popped, and a value
is pushed unless the call has none.
-/
structure Disciplined (linkage : Linkage) (source : Ir.Method)
    (target : Method) : Prop where
  enough : ∀ visit ∈ visits target.lines, visit.line.popped ≤ visit.depth
  flow : ∀ position next visit visit',
    (visits target.lines)[position]? = some visit →
    (visits target.lines)[next]? = some visit' →
    Flows target.lines position next → visit'.depth = visit.after
  paths : ∀ position depth visit,
    (visits target.lines)[position]? = some visit →
    Arrives target.lines position depth → depth = visit.depth
  runs : ∀ runtime : Runtime, runtime.Counts target.lines →
    ∀ start state visit, start.pc = 0 → start.stack = [] →
    Reaches (step runtime target.lines) start state →
    (visits target.lines)[state.pc]? = some visit →
    state.stack.length = visit.depth
  labels : ∀ entry ∈ source.labels, ∀ visit ∈ visits target.lines,
    visit.line = .label entry.1 → visit.depth = 0
  returns : ∀ visit ∈ visits target.lines, visit.line.isReturn = true →
    visit.depth = visit.line.popped
  between : ∀ index ≤ source.instrs.length,
    (boundary linkage source index).code.lines.toList <+: target.lines ∧
      depthAfter (boundary linkage source index).code.lines.toList = 0
  calls : ∀ index code, source.instrs[index]? = some code →
    Adds (Line.MakesOnly code.call?) (boundary linkage source index)
      (boundary linkage source (index + 1))
  -- There are no other calls before the first instruction or at the end.
  opening : (boundary linkage source 0).code.lines.toList =
    (source.labels.before 0).map .label
  closing : target.lines =
    (boundary linkage source source.instrs.length).code.lines.toList ++
      if source.returnTy.isVoid && !source.endsWithReturn then
        [.plain .vreturn]
      else []
  peak : target.maxStack = deepest (visits target.lines)

theorem Closes.sound {source : Ir.Method} {final after : Frame}
    (closes : Closes source final after) (sound : final.Sound)
    (empty : final.code.depth = 0) :
    after.Sound ∧ after.code.depth = 0 := by
  rw [Closes] at closes
  split at closes
  · refine ⟨sound.emitted closes rfl ?_ fun _ => empty, ?_⟩
    · simp [Line.name?, Line.target?]
    · rw [closes.depth, empty]
  · subst closes
    exact ⟨sound, empty⟩

theorem Closes.lines {source : Ir.Method} {final after : Frame}
    (closes : Closes source final after) :
    after.code.lines.toList = final.code.lines.toList ++
      if source.returnTy.isVoid && !source.endsWithReturn then
        [.plain .vreturn]
      else [] := by
  rw [Closes] at closes
  split at closes
  next returns => simp [closes.lines, returns]
  next open_ => rw [closes, if_neg open_, List.append_nil]

theorem Method.ofIr_disciplined {linkage : Linkage} {source : Ir.Method}
    {target : Method} (h : Method.ofIr linkage source = .ok target)
    (avoids : source.AvoidsComparisons) :
    Disciplined linkage source target := by
  obtain ⟨lines, _, final, laid, closes⟩ := Method.ofIr_eq_ok h
  have soundFinal := laid.sound avoids (Nat.le_refl _)
  have emptyFinal := laid.empty avoids (Nat.le_refl _)
  rw [laid.boundary_length] at soundFinal emptyFinal
  obtain ⟨sound, empty⟩ := closes.sound soundFinal emptyFinal
  rw [Frame.Sound, ← lines, empty] at sound
  have closing := closes.lines
  rw [← lines, ← laid.boundary_length] at closing
  constructor
  · exact sound.enough
  · intro position next visit visit' here there flows
    exact sound.flow here there flows
  · intro position depth visit here arrives
    exact sound.arrives arrives here
  · intro runtime counts start state visit atStart isEmpty reaches here
    exact sound.arrives (arrives_of_reaches counts atStart isEmpty reaches) here
  · rintro entry member visit visited isLabel
    rcases sound.named visit visited entry.1 (by rw [isLabel]; rfl) with
      ⟨number, _, isComparison⟩ | ⟨isEmpty, _⟩
    · exact absurd isComparison (avoids.labels entry member number)
    · rw [Visit.after, isLabel] at isEmpty
      exact isEmpty
  · exact sound.returns
  · intro index inside
    constructor
    · rw [closing]
      exact (laid.boundary_front inside (Nat.le_refl _)).trans
        (List.prefix_append _ _)
    · rw [(laid.sound avoids inside).counted, laid.empty avoids inside]
  · intro index code fetch
    obtain ⟨done, emits, marked⟩ := laid.boundary_succ fetch
    obtain ⟨bound, _⟩ := List.getElem?_eq_some_iff.mp fetch
    refine (emits.adds (laid.empty avoids (Nat.le_of_lt bound))).trans
      ⟨_, marked.lines, ?_⟩
    simp [Line.MakesOnly, Line.isCall]
  · simpa using laid.boundary_zero.lines
  · exact closing
  · rw [(Method.translated h).maxStack, sound.highest]
    simp

/--
The emitted code of a class keeps the discipline of the stack in every method,
whatever the instructions are that it was emitted for.
-/
theorem Class.ofIr_keeps_discipline {table : SymbolTable}
    {source : Ir.Class} {target : Class}
    (h : Class.ofIr table source = .ok target)
    (avoids : ∀ method ∈ source.methods, method.AvoidsComparisons) :
    List.Forall₂ (Disciplined (linkageOf table source)) source.methods
      target.methods := by
  have emitted := (List.forall₂_and_left _ _).mpr
    ⟨avoids, Class.ofIr_eq_ok h⟩
  exact emitted.imp fun _ _ both => Method.ofIr_disciplined both.2 both.1

def storesComparison : Ir.Class where
  name := "A"
  methods := [{
    name := "f"
    params := [{ name := "a", ty := .intArray }, { name := "b", ty := .boolean }]
    returnTy := .int
    registers := { names := ["this", "a", "b"] }
    labels := [("again", 0)]
    instrs := [
      .assign (.element "a" (.literal 0 .int)) .int
        (.binary .lt (.element "a" (.literal 1 .int)) (.literal 3 .int)
          .boolean),
      .branch (.var "b" .boolean) "again",
      .ret .int (some (.element "a" (.literal 0 .int)))] }]

theorem storesComparison_avoids :
    ∀ method ∈ storesComparison.methods, method.AvoidsComparisons := by
  have apart (number : Nat) : ¬ IsComparison number "again" :=
    fun isComparison => absurd isComparison.length (by decide)
  intro method member
  simp only [storesComparison, List.mem_singleton] at member
  subst member
  constructor
  · simpa using apart
  · simpa [Instr.target?] using apart

theorem ofIr_keeps_discipline_storesComparison :
    ∃ target, Class.ofIr { className := "A" } storesComparison = .ok target ∧
      target.methods.map Method.maxStack = [4] ∧
      List.Forall₂ (Disciplined (linkageOf { className := "A" }
        storesComparison)) storesComparison.methods target.methods := by
  have known : (Class.ofIr { className := "A" } storesComparison).toOption.map
      (·.methods.map Method.maxStack) = some [4] := by decide +kernel
  cases result : Class.ofIr { className := "A" } storesComparison with
  | error cause => simp [result, Except.toOption] at known
  | ok target =>
      exact ⟨target, rfl, by simpa [result, Except.toOption] using known,
        Class.ofIr_keeps_discipline result storesComparison_avoids⟩

/-- Jumps to where a comparison goes that stands before it. -/
def jumpsIntoComparison : Ir.Class where
  name := "A"
  methods := [{
    name := "f"
    params := [{ name := "a", ty := .intArray }]
    returnTy := .void
    registers := { names := ["this", "a"] }
    instrs := [
      .assign (.element "a" (.literal 0 .int)) .int
        (.binary .lt (.element "a" (.literal 1 .int)) (.literal 3 .int)
          .boolean),
      .goto "cmp_true_0"] }]

/--
It is not enough that no label has the name of a comparison.  A jump to such a
name gets there with nothing on the stack, under which the comparison keeps an
array and a position.
-/
theorem jumpsIntoComparison_breaks_discipline :
    (∀ method ∈ jumpsIntoComparison.methods, ∀ entry ∈ method.labels,
      ∀ number, ¬ IsComparison number entry.1) ∧
    ∃ target, Class.ofIr { className := "A" } jumpsIntoComparison =
        .ok target ∧
      (∃ method ∈ target.methods, ∃ position visit,
        (visits method.lines)[position]? = some visit ∧ visit.depth = 2 ∧
          Arrives method.lines position 0) ∧
      ¬ List.Forall₂ (Disciplined (linkageOf { className := "A" }
        jumpsIntoComparison)) jumpsIntoComparison.methods target.methods := by
  refine ⟨by simp [jumpsIntoComparison], ?_⟩
  have known : (Class.ofIr { className := "A" }
      jumpsIntoComparison).toOption.map (·.methods.map Method.lines) =
      some [[.plain (.aloadAt 1), .plain (.iconst 1), .plain (.aloadAt 1),
        .plain (.iconst 2), .plain .iaload, .plain (.iconst 4), .plain .isub,
        .apply (.branchIf .lt) (.label "cmp_true_0"), .plain (.iconst 1),
        .apply .goto (.label "cmp_end_0"), .label "cmp_true_0",
        .plain (.iconst 2), .label "cmp_end_0", .plain .iastore,
        .apply .goto (.label "cmp_true_0"), .plain .vreturn]] := by
    decide +kernel
  cases result : Class.ofIr { className := "A" } jumpsIntoComparison with
  | error cause => simp [result, Except.toOption] at known
  | ok target =>
      simp only [result, Except.toOption, Option.map_some, Option.some.injEq,
        List.map_eq_singleton_iff] at known
      obtain ⟨method, isOnly, lines⟩ := known
      have atGoto : Arrives method.lines 9 3 := by
        rw [lines]
        exact Arrives.start.passes (List.take_prefix 9 _) (by decide)
      have atEnd : Arrives method.lines 12 3 := by
        rw [lines] at atGoto ⊢
        exact atGoto.step rfl (.jump rfl rfl rfl)
      have atJump : Arrives method.lines 14 0 := by
        rw [lines] at atEnd ⊢
        exact atEnd.passes (List.take_prefix 2 _) (by decide)
      have arrives : Arrives method.lines 10 0 := by
        rw [lines] at atJump ⊢
        exact atJump.step rfl (.jump rfl rfl rfl)
      have here : (visits method.lines)[10]? =
          some ⟨2, .label "cmp_true_0"⟩ := by
        rw [lines]
        decide
      refine ⟨target, rfl, ⟨method, by simp [isOnly], 10, _, here, rfl,
        arrives⟩, fun disciplined => ?_⟩
      rw [isOnly] at disciplined
      cases disciplined with
      | cons keeps _ => exact absurd (keeps.paths 10 0 _ here arrives) (by simp)

end Jvm

end JavaMinus
