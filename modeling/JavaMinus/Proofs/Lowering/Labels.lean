import JavaMinus.Lowering.Program
import JavaMinus.Proofs.Lowering.Names

/-!
# Labels of lowered code

The labels in a piece of code are numbered from a range that no other piece
of the same method uses.  Hence each stands in one place, and the label table
of the method leads there.
-/

namespace JavaMinus

open Ir (Instr Fragment Labels)

/-! ## Positions -/

namespace Lowering

/-- How many instructions come before what follows the code. -/
def position (code : List Fragment) : Nat := (instrs code).length

def labelNames (code : List Fragment) : List String :=
  code.filterMap fun
    | .label name => some name
    | .instr _ => none

@[simp] theorem instrs_nil : instrs [] = [] := rfl

@[simp] theorem instrs_instr (instr : Instr) (code : List Fragment) :
    instrs (.instr instr :: code) = instr :: instrs code := rfl

@[simp] theorem instrs_label (name : String) (code : List Fragment) :
    instrs (.label name :: code) = instrs code := rfl

@[simp] theorem instrs_append (first second : List Fragment) :
    instrs (first ++ second) = instrs first ++ instrs second :=
  List.filterMap_append

theorem mem_instrs {instr : Instr} {code : List Fragment} :
    instr ∈ instrs code ↔ .instr instr ∈ code := by
  induction code with
  | nil => simp
  | cons fragment rest ih =>
      cases fragment with
      | label name => simp [ih]
      | instr other => simp [ih]

@[simp] theorem position_nil : position [] = 0 := rfl

@[simp] theorem position_instr (instr : Instr) (code : List Fragment) :
    position (.instr instr :: code) = position code + 1 := rfl

@[simp] theorem position_label (name : String) (code : List Fragment) :
    position (.label name :: code) = position code := rfl

@[simp] theorem position_append (first second : List Fragment) :
    position (first ++ second) = position first + position second := by
  simp [position]

@[simp] theorem labelNames_nil : labelNames [] = [] := rfl

@[simp] theorem labelNames_instr (instr : Instr) (code : List Fragment) :
    labelNames (.instr instr :: code) = labelNames code := rfl

@[simp] theorem labelNames_label (name : String) (code : List Fragment) :
    labelNames (.label name :: code) = name :: labelNames code := rfl

@[simp] theorem labelNames_append (first second : List Fragment) :
    labelNames (first ++ second) = labelNames first ++ labelNames second :=
  List.filterMap_append

theorem mem_labelNames {name : String} {code : List Fragment} :
    name ∈ labelNames code ↔ .label name ∈ code := by
  induction code with
  | nil => simp
  | cons fragment rest ih =>
      cases fragment with
      | label other => simp [ih]
      | instr instr => simp [ih]

theorem labelNames_thenGoto (name : String) (code : List Fragment) :
    labelNames (thenGoto name code) = labelNames code := by
  rw [thenGoto]
  split <;> simp

def targets (code : List Fragment) : List String :=
  (instrs code).filterMap Instr.target?

@[simp] theorem targets_nil : targets [] = [] := rfl

@[simp] theorem targets_instr (instr : Instr) (code : List Fragment) :
    targets (.instr instr :: code) =
      instr.target?.toList ++ targets code := by
  cases target : instr.target? <;> simp [targets, target]

@[simp] theorem targets_label (name : String) (code : List Fragment) :
    targets (.label name :: code) = targets code := rfl

@[simp] theorem targets_append (first second : List Fragment) :
    targets (first ++ second) = targets first ++ targets second := by
  simp [targets]

theorem mem_targets {name : String} {code : List Fragment} :
    name ∈ targets code ↔
      ∃ instr, .instr instr ∈ code ∧ instr.target? = some name := by
  simp [targets, mem_instrs]

theorem mem_targets_thenGoto {name label : String} {code : List Fragment} :
    name ∈ targets (thenGoto label code) ↔
      name ∈ targets code ∨ name = label ∧ fallsThrough code = true := by
  rw [thenGoto]
  split
  next falls => simp [falls, Instr.target?]
  next stops => simp [stops]

end Lowering

/-! ## Numbered labels -/

open Lowering

structure Labelled (low high : Nat) (code : List Fragment) : Prop where
  distinct : (labelNames code).Nodup
  numbered : ∀ name ∈ labelNames code,
    ∃ number, low ≤ number ∧ number < high ∧ IsLabel number name

namespace Labelled

variable {low high low' high' : Nat} {code code' : List Fragment}

theorem of_noLabels (h : labelNames code = []) : Labelled low high code := by
  constructor <;> simp [h]

theorem of_perm (h : Labelled low high code)
    (perm : (labelNames code').Perm (labelNames code)) :
    Labelled low high code' := by
  refine ⟨perm.nodup_iff.mpr h.distinct, fun name member => ?_⟩
  exact h.numbered name (perm.mem_iff.mp member)

theorem mono (h : Labelled low high code) (lower : low' ≤ low)
    (upper : high ≤ high') : Labelled low' high' code := by
  refine ⟨h.distinct, fun name member => ?_⟩
  obtain ⟨number, atLeast, below, isLabel⟩ := h.numbered name member
  exact ⟨number, by omega, by omega, isLabel⟩

/-- Ranges that follow each other share no label. -/
theorem append {mid : Nat} (h : Labelled low mid code)
    (h' : Labelled mid high code') (lower : low ≤ mid) (upper : mid ≤ high) :
    Labelled low high (code ++ code') := by
  constructor
  · rw [labelNames_append, List.nodup_append]
    refine ⟨h.distinct, h'.distinct, fun name member name' member' same => ?_⟩
    subst same
    obtain ⟨number, _, _, isLabel⟩ := h.numbered name member
    obtain ⟨number', _, _, isLabel'⟩ := h'.numbered name member'
    have := isLabel.numbered.unique isLabel'.numbered
    omega
  · intro name member
    rw [labelNames_append, List.mem_append] at member
    rcases member with member | member
    · exact (h.mono (Nat.le_refl _) upper).numbered name member
    · exact (h'.mono lower (Nat.le_refl _)).numbered name member

end Labelled

/-! ## Code and the names drawn for it -/

/--
The code takes its labels from what was drawn between two supplies, and jumps
to no others.
-/
structure Draws (before after : Supply) (code : List Fragment) : Prop
    extends Supply.Extends before after where
  labelled : Labelled before.nextLabel after.nextLabel code
  closed : targets code ⊆ labelNames code

namespace Draws

variable {first second third : Supply} {code code' : List Fragment}

theorem nil (supply : Supply) : Draws supply supply [] :=
  ⟨.refl supply, .of_noLabels rfl, List.Subset.refl _⟩

theorem append (h : Draws first second code) (h' : Draws second third code') :
    Draws first third (code ++ code') where
  toExtends := h.toExtends.trans h'.toExtends
  labelled := h.labelled.append h'.labelled h.label h'.label
  closed := by
    rw [targets_append, labelNames_append]
    exact List.append_subset.mpr
      ⟨List.subset_append_of_subset_left _ h.closed,
        List.subset_append_of_subset_right _ h'.closed⟩

theorem of_perm (h : Draws first second code)
    (perm : (labelNames code').Perm (labelNames code))
    (jumps : ∀ name ∈ targets code',
      name ∈ targets code ∨ name ∈ labelNames code) :
    Draws first second code' where
  toExtends := h.toExtends
  labelled := h.labelled.of_perm perm
  closed name target := perm.mem_iff.mpr <|
    (jumps name target).elim (fun old => h.closed old) id

theorem of_straight (h : Supply.Extends first second)
    (none : labelNames code = []) (straight : targets code = []) :
    Draws first second code :=
  ⟨h, .of_noLabels none, by simp [straight]⟩

theorem extend (h : Draws first second code)
    (h' : Supply.Extends second third) : Draws first third code :=
  ⟨h.toExtends.trans h', h.labelled.mono (Nat.le_refl _) h'.label, h.closed⟩

theorem andStraight (h : Draws first second code)
    (h' : Supply.Extends second third) (none : labelNames code' = [])
    (straight : targets code' = []) : Draws first third (code ++ code') :=
  h.append (.of_straight h' none straight)

theorem not_target {name : String} (h : Draws first second code)
    (distinct : (labelNames code ++ labelNames code').Nodup)
    (there : name ∈ labelNames code') : name ∉ targets code := fun target =>
  (List.nodup_append.mp distinct).2.2 name (h.closed target) name there rfl

end Draws

theorem Lower.labelled_of_label {stem name : String} {before after : Supply}
    (h : Lower.label stem before = .ok name after)
    (isStem : stem ∈ labelStems) :
    Draws before after [.label name] := by
  obtain ⟨rfl, rfl⟩ := Lower.label_eq h
  refine ⟨⟨rfl, Nat.le_refl _, Nat.le_succ _⟩, ⟨by simp, ?_⟩, by simp⟩
  intro name member
  simp only [labelNames_label, labelNames_nil, List.mem_singleton] at member
  subst member
  exact ⟨before.nextLabel, Nat.le_refl _, Nat.lt_succ_self _, stem, isStem,
    rfl⟩

/-! ## Label tables -/

namespace Ir.Labels

theorem lookup_entry (name other : String) (spot : Nat) (rest : Labels) :
    List.lookup other ((name, spot) :: rest) =
      if other = name then some spot else rest.lookup other := by
  by_cases h : other = name
  · simp [h]
  · have : (other == name) = false := by simpa using h
    simp [List.lookup_cons, this, h]

theorem lookup_place (name other : String) (index : Nat) (labels : Labels) :
    (labels.place name index).lookup other =
      if other = name then some index else labels.lookup other := by
  induction labels with
  | nil => simp [place, lookup_entry]
  | cons entry rest ih =>
      obtain ⟨known, spot⟩ := entry
      rw [place]
      split
      · rw [lookup_entry]
      · split
        next same =>
          subst same
          rw [lookup_entry, lookup_entry]
          split <;> rfl
        next different =>
          rw [lookup_entry, lookup_entry, ih]
          split
          next same =>
            have : ¬ other = name := fun h => different (h.symm.trans same)
            rw [if_neg this]
          next => rfl

end Ir.Labels

namespace Lowering

theorem placeLabels_append (count : Nat) (first second : List Fragment)
    (labels : Labels) :
    placeLabels count (first ++ second) labels =
      placeLabels (count + position first) second
        (placeLabels count first labels) := by
  induction first generalizing count labels with
  | nil => rfl
  | cons fragment rest ih =>
      cases fragment with
      | label name => simpa [placeLabels] using ih count _
      | instr instr =>
          simpa [placeLabels, Nat.add_assoc, Nat.add_comm 1] using
            ih (count + 1) labels

theorem lookup_placeLabels_of_not_mem {name : String} {code : List Fragment}
    (absent : name ∉ labelNames code) (count : Nat) (labels : Labels) :
    (placeLabels count code labels).lookup name = labels.lookup name := by
  induction code generalizing count labels with
  | nil => rfl
  | cons fragment rest ih =>
      cases fragment with
      | label other =>
          simp only [labelNames_label, List.mem_cons, not_or] at absent
          rw [placeLabels, ih absent.2, Ir.Labels.lookup_place,
            if_neg absent.1]
      | instr instr => exact ih absent (count + 1) labels

theorem lookup_placeLabels {name : String} {before after : List Fragment}
    (once : name ∉ labelNames after) (count : Nat) (labels : Labels) :
    (placeLabels count (before ++ .label name :: after) labels).lookup name =
      some (count + position before) := by
  rw [placeLabels_append, placeLabels, lookup_placeLabels_of_not_mem once,
    Ir.Labels.lookup_place, if_pos rfl]

/-- What a jump leads to is never left out. -/
theorem lookup_pruneLabels {name : String} {code : List Instr}
    {instr : Instr} (member : instr ∈ code)
    (target : instr.target? = some name) (labels : Labels) :
    (pruneLabels code labels).lookup name = labels.lookup name := by
  have used : (code.any fun instr => instr.target? = some name) = true :=
    List.any_eq_true.mpr ⟨instr, member, by simpa using target⟩
  induction labels with
  | nil => rfl
  | cons entry rest ih =>
      obtain ⟨known, place⟩ := entry
      simp only [pruneLabels, List.filter_cons] at ih ⊢
      split
      · rw [Ir.Labels.lookup_entry, Ir.Labels.lookup_entry, ih]
      next dropped =>
        have : ¬ name = known := by
          rintro rfl
          simp [used] at dropped
        rw [Ir.Labels.lookup_entry, if_neg this, ih]

/-! ## Methods that run a piece of code -/

structure Holds (method : Ir.Method) (code : List Fragment) : Prop where
  fetch : ∀ {before instr after}, code = before ++ .instr instr :: after →
    method.instrs[position before]? = some instr
  jump : ∀ {before name after instr}, code = before ++ .label name :: after →
    .instr instr ∈ code → instr.target? = some name →
    method.labels.lookup name = some (position before)

theorem getElem?_close {returnTy : Ty} {code : List Instr} {labels : Labels}
    {index : Nat} {instr : Instr} (h : code[index]? = some instr) :
    (close returnTy code labels)[index]? = some instr := by
  simp only [close]
  generalize (returnTy.isVoid && _) = returns
  cases returns with
  | false => exact h
  | true =>
      obtain ⟨small, _⟩ := List.getElem?_eq_some_iff.mp h
      simpa [List.getElem?_append_left small] using h

theorem holds_of_distinct {method : Ir.Method} {code : List Fragment}
    {returnTy : Ty} (distinct : (labelNames code).Nodup)
    (labels : method.labels =
      pruneLabels (instrs code) (placeLabels 0 code []))
    (closed : method.instrs = close returnTy (instrs code) method.labels) :
    Holds method code where
  fetch := by
    rintro before instr after rfl
    rw [closed]
    apply getElem?_close
    simp [position]
  jump := by
    rintro before name after instr rfl member target
    rw [labels, lookup_pruneLabels (mem_instrs.mpr member) target,
      lookup_placeLabels, Nat.zero_add]
    intro again
    rw [labelNames_append, labelNames_label, List.nodup_append] at distinct
    exact (List.nodup_cons.mp distinct.2.1).1 again

end Lowering

end JavaMinus
