import JavaMinus.Proofs.Emission.Discipline
import JavaMinus.Proofs.Lists
import JavaMinus.Proofs.Lowering.LabelTables

/-!
# Targets of jumps

Every jump of an emitted method leads to a label that stands in exactly one
place.  For jumps within comparisons this is so because comparisons are
numbered; for all others it comes down to the label table of the method.
-/

namespace JavaMinus

namespace Jvm

open Ir (Instr Call Labels Registers)

/-! ## Labels in lines -/

def Line.label? : Line → Option String
  | .label name => some name
  | _ => none

def labelsOf (lines : List Line) : List String :=
  lines.filterMap Line.label?

@[simp] theorem labelsOf_nil : labelsOf [] = [] := rfl

@[simp] theorem labelsOf_label (name : String) (lines : List Line) :
    labelsOf (.label name :: lines) = name :: labelsOf lines := rfl

@[simp] theorem labelsOf_plain (op : Opcode) (lines : List Line) :
    labelsOf (.plain op :: lines) = labelsOf lines := rfl

@[simp] theorem labelsOf_apply (op : Opcode) (arg : Argument)
    (lines : List Line) : labelsOf (.apply op arg :: lines) = labelsOf lines :=
  rfl

@[simp] theorem labelsOf_append (first second : List Line) :
    labelsOf (first ++ second) = labelsOf first ++ labelsOf second :=
  List.filterMap_append

@[simp] theorem labelsOf_labels (names : List String) :
    labelsOf (names.map .label) = names := by
  induction names with
  | nil => rfl
  | cons name names ih => simp [ih]

theorem mem_labelsOf {name : String} {lines : List Line} :
    name ∈ labelsOf lines ↔ .label name ∈ lines := by
  simp only [labelsOf, List.mem_filterMap]
  constructor
  · rintro ⟨line, member, isLabel⟩
    cases line <;> simp_all [Line.label?]
  · intro member
    exact ⟨_, member, rfl⟩

theorem count_label (name : String) (lines : List Line) :
    lines.count (.label name) = (labelsOf lines).count name := by
  induction lines with
  | nil => rfl
  | cons line lines ih =>
      cases line <;> simp [ih, List.count_cons]

theorem labelsOf_comparison (test : Test) (number : Nat) :
    labelsOf (comparisonLines test number) =
      ["cmp_true_" ++ toString number, "cmp_end_" ++ toString number] := rfl

/-! ## Jumps during the emission -/

structure Resolved (known : String → Prop) (frame : Frame) : Prop where
  distinct : (labelsOf frame.code.lines.toList).Nodup
  defined : ∀ line ∈ frame.code.lines.toList, ∀ name,
    line.target? = some name →
    (∃ number, IsComparison number name) ∧
      .label name ∈ frame.code.lines.toList ∨ known name

namespace Resolved

variable {known : String → Prop} {before after : Frame} {line : Line}

theorem start (registers : Registers) : Resolved known { registers } :=
  ⟨by simp, by simp⟩

theorem emitted {popped pushed : Nat} (h : Resolved known before)
    (emitted : Emitted line popped pushed before after)
    (isInstr : line.isLabel = false)
    (isKnown : ∀ name, line.target? = some name → known name) :
    Resolved known after := by
  have lines : after.code.lines.toList =
      before.code.lines.toList ++ [line] := by simp [emitted.lines]
  constructor
  · rw [lines, labelsOf_append]
    cases line with
    | label => contradiction
    | plain | apply => simpa using h.distinct
  · simp only [lines, List.mem_append, List.mem_singleton]
    rintro line' (member | rfl) name target
    · exact (h.defined line' member name target).imp_left
        fun ⟨isComparison, stands⟩ => ⟨isComparison, .inl stands⟩
    · exact .inr (isKnown name target)

theorem compared {test : Test} (h : Resolved known before)
    (fresh : before.Fresh) (compared : Compared test before after) :
    Resolved known after := by
  have isNew {name : String}
      (isComparison : IsComparison before.comparisons name) :
      name ∉ labelsOf before.code.lines.toList := fun member =>
    fresh _ _ (Nat.le_refl _) isComparison (mem_labelsOf.mp member)
  constructor
  · rw [compared.lines, labelsOf_append, labelsOf_comparison,
      List.nodup_append]
    refine ⟨h.distinct, by simp, ?_⟩
    rintro name member _ member' rfl
    refine isNew ?_ member
    simpa [IsComparison] using member'
  · simp only [compared.lines, List.mem_append]
    rintro line (member | member) name target
    · exact (h.defined line member name target).imp_left
        (And.imp_right .inl)
    · left
      have isName : IsComparison before.comparisons name := by
        simp only [comparisonLines, List.mem_cons, List.not_mem_nil,
          or_false] at member
        rcases member with rfl | rfl | rfl | rfl | rfl | rfl | rfl <;>
          simp_all [Line.target?, IsComparison]
      refine ⟨⟨_, isName⟩, .inr ?_⟩
      rcases isName with rfl | rfl <;> simp [comparisonLines]

theorem built {call : Option Call} (h : Resolved known before)
    (fresh : before.Fresh) (built : Built (Line.Suits call) before after) :
    Resolved known after := by
  have both : after.Fresh ∧ Resolved known after := by
    refine built.preserves (motive := fun frame => frame.Fresh ∧ _) ?_
      ⟨fresh, h⟩
    rintro first second step ⟨fresh, resolved⟩
    refine ⟨fresh.after step.grows, ?_⟩
    cases step with
    | @line line _ _ emitted isInstr suits =>
        refine resolved.emitted emitted isInstr fun name target => ?_
        rcases suits with straight | ⟨_, _, op, text, rfl⟩
        · simp_all [Line.IsStraight, Line.isStraight]
        · simp [Line.target?] at target
    | slot => exact ⟨resolved.distinct, resolved.defined⟩
    | compare compared => exact resolved.compared fresh compared
  exact both.2

theorem emits {linkage : Linkage} {code : Instr} (h : Resolved known before)
    (fresh : before.Fresh) (empty : before.code.depth = 0)
    (emits : Emits linkage code before after)
    (isKnown : ∀ name, code.target? = some name → known name) :
    Resolved known after := by
  obtain ⟨mid, built, rest⟩ := emits.cases empty
  have resolved := h.built fresh built
  rcases rest with rfl | ⟨line, leaves, emitted⟩
  · exact resolved
  · exact resolved.emitted emitted leaves.isLabel fun name target =>
      isKnown name (leaves.target (Line.name?_of_target? target))

theorem marked {names : List String} (h : Resolved known before)
    (marked : Marked names before after) (distinct : names.Nodup)
    (areNew : ∀ name ∈ names, .label name ∉ before.code.lines.toList) :
    Resolved known after := by
  constructor
  · rw [marked.lines, labelsOf_append, labelsOf_labels, List.nodup_append]
    refine ⟨h.distinct, distinct, ?_⟩
    rintro name member _ member' rfl
    exact areNew name member' (mem_labelsOf.mp member)
  · simp only [marked.lines, List.mem_append]
    rintro line (member | member) name target
    · exact (h.defined line member name target).imp_left
        fun ⟨isComparison, stands⟩ => ⟨isComparison, .inl stands⟩
    · obtain ⟨_, _, rfl⟩ := List.mem_map.mp member
      simp [Line.target?] at target

end Resolved

/-! ## Methods -/

section Methods

variable {linkage : Linkage} {source : Ir.Method} {final : Frame}
  {index : Nat}

theorem Laid.resolved {known : String → Prop}
    (laid : Laid linkage source final) (avoids : source.AvoidsComparisons)
    (unique : (source.labels.map Prod.fst).Nodup)
    (areKnown : ∀ code ∈ source.instrs, ∀ name,
      code.target? = some name → known name)
    (inside : index ≤ source.instrs.length) :
    Resolved known (boundary linkage source index) := by
  have distinct (spot : Nat) : (source.labels.before spot).Nodup :=
    unique.sublist (List.filter_sublist.map Prod.fst)
  induction index with
  | zero =>
      have start : Orderly source.labels 0 { registers := source.registers } :=
        .start source.registers
      exact (Resolved.start _).marked laid.boundary_zero (distinct 0)
        (start.areNew avoids.labels unique)
  | succ index ih =>
      have fetch := List.getElem?_eq_getElem inside
      obtain ⟨done, emits, marked⟩ := laid.boundary_succ fetch
      have orderly := laid.orderly avoids.labels (Nat.le_of_lt inside)
      have resolved := (ih (Nat.le_of_lt inside)).emits orderly.fresh
        orderly.depth emits (areKnown _ (List.mem_of_getElem? fetch))
      exact resolved.marked marked (distinct _)
        ((orderly.emits emits).areNew avoids.labels unique)

theorem Laid.stands (laid : Laid linkage source final)
    (avoids : source.AvoidsComparisons) {name : String}
    (entry : (name, index) ∈ source.labels)
    (inside : index ≤ source.instrs.length) :
    .label name ∈ (boundary linkage source index).code.lines.toList := by
  obtain ⟨done, _, marked⟩ := laid.arrival avoids.labels inside
  rw [marked.lines]
  exact List.mem_append_right _
    (List.mem_map_of_mem (Labels.mem_before.mpr entry))

theorem Method.ofIr_resolved {target : Method}
    (h : Method.ofIr linkage source = .ok target)
    (avoids : source.AvoidsComparisons)
    (unique : (source.labels.map Prod.fst).Nodup)
    (jumps : ∀ code ∈ source.instrs, ∀ name, code.target? = some name →
      ∃ place ≤ source.instrs.length, (name, place) ∈ source.labels)
    {line : Line} (member : line ∈ target.lines) {name : String}
    (jumpsTo : line.target? = some name) :
    target.lines.count (.label name) = 1 ∧
      ((∃ number, IsComparison number name) ∨
        ∃ place, (name, place) ∈ source.labels) := by
  obtain ⟨lines, _, final, laid, closes⟩ := Method.ofIr_eq_ok h
  have resolved := laid.resolved avoids unique jumps (Nat.le_refl _)
  have whole := closes.lines
  rw [← lines, ← laid.boundary_length] at whole
  have same : labelsOf target.lines = labelsOf
      (boundary linkage source source.instrs.length).code.lines.toList := by
    rw [whole, labelsOf_append]
    split <;> simp
  have once : .label name ∈ (boundary linkage source
      source.instrs.length).code.lines.toList →
      target.lines.count (.label name) = 1 := by
    intro stands
    rw [count_label, same]
    exact List.count_eq_one_of_mem resolved.distinct (mem_labelsOf.mpr stands)
  have isOld : line ∈ (boundary linkage source
      source.instrs.length).code.lines.toList := by
    rw [whole, List.mem_append] at member
    refine member.resolve_right fun added => ?_
    split at added
    · simp_all [Line.target?]
    · simp at added
  rcases resolved.defined line isOld name jumpsTo with
    ⟨isComparison, stands⟩ | ⟨place, inside, entry⟩
  · exact ⟨once stands, .inl isComparison⟩
  · have front := laid.boundary_front inside (Nat.le_refl _)
    exact ⟨once (front.subset (laid.stands avoids entry inside)), .inr ⟨place, entry⟩⟩

end Methods

/-! ## Text -/

def startsPlain (text : String) : Bool :=
  text.toList.head?.any (· ≠ ' ')

theorem startsPlain_append {stem : String} (h : startsPlain stem = true)
    (rest : String) : startsPlain (stem ++ rest) = true := by
  unfold startsPlain at h ⊢
  rw [String.toList_append]
  cases chars : stem.toList with
  | nil => simp [chars] at h
  | cons char more => simpa [chars] using h

theorem IsComparison.startsPlain {number : Nat} {name : String}
    (h : IsComparison number name) : startsPlain name = true := by
  rcases h with rfl | rfl
  · exact startsPlain_append (by decide) _
  · exact startsPlain_append (by decide) _

theorem startsPlain_of_isLabel {number : Nat} {name : String}
    (h : IsLabel number name) : startsPlain name = true := by
  obtain ⟨stem, member, rfl⟩ := h
  have plain : ∀ stem ∈ labelStems, startsPlain stem = true := by decide
  exact startsPlain_append (plain stem member) _

theorem Line.text_eq_label {line : Line} {name : String}
    (plain : startsPlain name = true) :
    line.text = (Line.label name).text ↔ line = .label name := by
  constructor
  · intro same
    have chars := congrArg String.toList same
    have indented {rest : List Char} (h : ' ' :: rest = name.toList ++ [':']) :
        False := by
      unfold startsPlain at plain
      cases first : name.toList with
      | nil => simp [first] at plain
      | cons char more =>
          simp only [first, List.cons_append, List.cons.injEq] at h
          simp [first, ← h.1] at plain
    cases line with
    | label other =>
        simp only [text, String.toList_append, List.append_cancel_right_eq]
          at chars
        rw [String.toList_injective chars]
    | plain op =>
        simp only [text, String.toList_append] at chars
        exact (indented chars).elim
    | apply op arg =>
        simp only [text, String.toList_append] at chars
        exact (indented chars).elim
  · rintro rfl
    rfl

theorem count_text {name : String} (plain : startsPlain name = true)
    (lines : List Line) :
    (lines.map Line.text).count (Line.label name).text =
      lines.count (.label name) := by
  induction lines with
  | nil => rfl
  | cons line lines ih =>
      simp only [List.map_cons, List.count_cons, ih, beq_iff_eq,
        Line.text_eq_label plain]

end Jvm

/-! ## Programs -/

theorem IsLabel.not_isComparison {number other : Nat} {name : String}
    (h : IsLabel number name) : ¬ Jvm.IsComparison other name := by
  intro isComparison
  have same := h.numbered.unique isComparison.numbered
  subst same
  obtain ⟨stem, member, rfl⟩ := h
  have apart : ∀ stem ∈ labelStems,
      stem ≠ "cmp_true_" ∧ stem ≠ "cmp_end_" := by decide
  rcases isComparison with same | same
  · exact (apart stem member).1 (by simpa using same)
  · exact (apart stem member).2 (by simpa using same)

namespace Lowering.WellLabelled

variable {codes : List (List Ir.Fragment)} {code : List Ir.Fragment}
  {method : Ir.Method} {low high : Nat}

theorem isLabel (fits : WellLabelled code method)
    (labelled : Labelled low high codes.flatten) (member : code ∈ codes)
    {name : String} {place : Nat} (entry : (name, place) ∈ method.labels) :
    ∃ number, IsLabel number name := by
  obtain ⟨before, after, here, _⟩ := fits.placed name place entry
  have stands : name ∈ labelNames codes.flatten := by
    rw [mem_labelNames, List.mem_flatten]
    exact ⟨code, member, by simp [here]⟩
  obtain ⟨number, _, _, isLabel⟩ := labelled.numbered name stands
  exact ⟨number, isLabel⟩

theorem entry (fits : WellLabelled code method) {instr : Ir.Instr}
    {name : String} (member : instr ∈ method.instrs)
    (target : instr.target? = some name) :
    ∃ place ≤ method.instrs.length, (name, place) ∈ method.labels := by
  obtain ⟨place, bound, known⟩ := fits.jumps instr member name target
  exact ⟨place, bound, Ir.Labels.mem_of_lookup known⟩

/-- The labels of lowered code are never taken for those of comparisons. -/
theorem avoidsComparisons (fits : WellLabelled code method)
    (labelled : Labelled low high codes.flatten) (member : code ∈ codes) :
    method.AvoidsComparisons := by
  constructor
  · rintro ⟨name, place⟩ entry number
    obtain ⟨_, isLabel⟩ := fits.isLabel labelled member entry
    exact isLabel.not_isComparison
  · intro instr inside name target number
    obtain ⟨place, _, entry⟩ := fits.entry inside target
    obtain ⟨_, isLabel⟩ := fits.isLabel labelled member entry
    exact isLabel.not_isComparison

end Lowering.WellLabelled

namespace Tree.Program

open Lowering

/--
All labels of a program are distinct and every one that is kept leads to where
it stood.  Every jump has its label, and in a method without a result nothing
leads behind the last instruction, which returns.  In the emitted code, too,
every jump has exactly one place to go to.
-/
theorem lower_jumps_resolved {program : Program} {table : SymbolTable}
    {supply after : Supply} {cls : Ir.Class}
    (h : program.lower table supply = .ok cls after) :
    ∃ codes, program.fragments table supply = .ok codes after ∧
      (labelNames codes.flatten).Nodup ∧
      List.Forall₂ WellLabelled codes cls.methods ∧
      ∀ linked target, Jvm.Class.ofIr linked cls = .ok target →
        ∀ method ∈ target.methods, ∀ line ∈ method.lines, ∀ name,
          line.target? = some name →
          method.lines.count (.label name) = 1 ∧
            (method.lines.map Jvm.Line.text).count
              (Jvm.Line.label name).text = 1 := by
  obtain ⟨codes, hcodes, labelled, well⟩ := lower_wellLabelled h
  refine ⟨codes, hcodes, labelled.distinct, well, ?_⟩
  intro linked target emitted method member line inLines name jumpsTo
  obtain ⟨source, isSource, translated⟩ :=
    exists_of_forall₂ (Jvm.Class.ofIr_eq_ok emitted) member
  obtain ⟨code, isCode, fits⟩ := exists_of_forall₂ well isSource
  obtain ⟨once, origin⟩ := Jvm.Method.ofIr_resolved translated
    (fits.avoidsComparisons labelled isCode) fits.unique
    (fun _ inside _ => fits.entry inside) inLines jumpsTo
  have plain : Jvm.startsPlain name = true := by
    rcases origin with ⟨_, isComparison⟩ | ⟨place, entry⟩
    · exact isComparison.startsPlain
    · obtain ⟨_, isLabel⟩ := fits.isLabel labelled isCode entry
      exact Jvm.startsPlain_of_isLabel isLabel
  exact ⟨once, by rw [Jvm.count_text plain, once]⟩

/-- Jumps from within a loop, a conditional, a conjunction and a comparison. -/
def jumping : Program where
  declared := { name := "A", methods := [{
    name := "f"
    returnTy := .void
    params := [{ name := "c", ty := .boolean }, { name := "n", ty := .int }]
    body := [.loop {}
      (.binary ⟨.boolean, {}⟩ .and (.var ⟨.boolean, {}⟩ "c")
        (.binary ⟨.boolean, {}⟩ .lt (.var ⟨.int, {}⟩ "n")
          (.int ⟨.int, {}⟩ 9)))
      (.ifElse {} (.var ⟨.boolean, {}⟩ "c")
        (.assign {} (.var ⟨.int, {}⟩ "n") (.int ⟨.int, {}⟩ 4))
        (.ret {} none))] }] }

theorem lower_jumps_resolved_jumping :
    ∃ cls after codes target,
      jumping.lower (.ofProgram jumping) {} = .ok cls after ∧
      jumping.fragments (.ofProgram jumping) {} = .ok codes after ∧
      (labelNames codes.flatten).Nodup ∧
      List.Forall₂ WellLabelled codes cls.methods ∧
      Jvm.Class.ofIr (.ofProgram jumping) cls = .ok target ∧
      ∀ method ∈ target.methods, ∀ line ∈ method.lines, ∀ name,
        line.target? = some name → method.lines.count (.label name) = 1 := by
  have compiles : ((jumping.lower (.ofProgram jumping)).run' {}).any
      (fun cls => (Jvm.Class.ofIr (.ofProgram jumping) cls).isOk) = true := by
    decide +kernel
  cases lowered : jumping.lower (.ofProgram jumping) {} with
  | error cause after => simp [Action.run'_of_error lowered] at compiles
  | ok cls after =>
      rw [Action.run'_of_ok lowered, Option.any_some] at compiles
      obtain ⟨codes, hcodes, distinct, well, resolved⟩ :=
        lower_jumps_resolved lowered
      cases emitted : Jvm.Class.ofIr (.ofProgram jumping) cls with
      | error cause => simp [emitted, Except.isOk, Except.toBool] at compiles
      | ok target =>
          exact ⟨cls, after, codes, target, rfl, hcodes, distinct, well,
            emitted, fun method member line inLines name jumpsTo =>
              (resolved _ _ emitted method member line inLines name
                jumpsTo).1⟩

end Tree.Program

end JavaMinus
