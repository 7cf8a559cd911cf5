import JavaMinus.Proofs.Emission.Refusals
import JavaMinus.Proofs.Lowering.LabelTables
import JavaMinus.Proofs.Lowering.Shapes
import Mathlib.Data.Set.Basic

/-!
# Variables that are set on every path

Control goes through a method from its first instruction on, to the next
instruction or to a label.  Which variables are set then is read off the code
piece by piece, once it is known what is set at each label; a variable that is
found to be set somewhere was assigned on every path that leads there.
-/

namespace JavaMinus

open Ir (Operand Instr Call Fragment)
open Lowering

/-! ## Paths -/

namespace Ir

namespace Instr

def reads : Instr → List String
  | .assign (.element array position) _ value =>
      array :: position.variables ++ value.reads
  | .assign _ _ value => value.reads
  | .single operand | .not operand _ | .branch operand _
  | .ret _ (some operand) => operand.variables
  | .binary _ left right _ => left.variables ++ right.variables
  | .call invocation => invocation.loads.flatMap Operand.variables
  | .getField object _ => object.variables
  | .putField object _ value => object.variables ++ value.variables
  | .goto _ | .ret _ none => []

end Instr

inductive Method.Path (method : Method) : List Instr → Nat → Prop where
  | start : Path method [] 0
  | next {passed : List Instr} {index : Nat} {code : Instr}
      (path : Path method passed index)
      (fetch : method.instrs[index]? = some code)
      (goesOn : code.isJump = false) :
      Path method (passed ++ [code]) (index + 1)
  | jump {passed : List Instr} {index place : Nat} {code : Instr}
      {label : String} (path : Path method passed index)
      (fetch : method.instrs[index]? = some code)
      (target : code.target? = some label)
      (found : method.labels.lookup label = some place) :
      Path method (passed ++ [code]) place

end Ir

/-! ## Certificates -/

abbrev Marks := String → Set String

namespace Ir.Fragment

/-- What is set behind a fragment; behind a jump nothing is excluded. -/
def after (marks : Marks) (known : Set String) : Fragment → Set String
  | .label name => marks name
  | .instr code =>
      if code.isJump then Set.univ
      else known ∪ { name | code.sets? = some name }

/-- The fragment reads only what is set, also where it goes on. -/
def Fits (marks : Marks) (known : Set String) : Fragment → Prop
  | .label name => marks name ⊆ known
  | .instr code => (∀ name ∈ code.reads, name ∈ known) ∧
      ∀ label, code.target? = some label → marks label ⊆ known

variable {marks : Marks} {known more : Set String} {fragment : Fragment}

theorem after_mono (less : known ⊆ more) :
    fragment.after marks known ⊆ fragment.after marks more := by
  cases fragment with
  | label name => exact subset_rfl
  | instr code =>
      cases jumps : code.isJump with
      | true => simp [after, jumps]
      | false =>
          simpa [after, jumps] using Set.union_subset_union_left _ less

theorem Fits.mono (h : fragment.Fits marks known) (less : known ⊆ more) :
    fragment.Fits marks more := by
  cases fragment with
  | label name => exact h.trans less
  | instr code =>
      exact ⟨fun name member => less (h.1 name member),
        fun label target => (h.2 label target).trans less⟩

end Ir.Fragment

namespace Lowering

def settled (marks : Marks) (known : Set String) (code : List Fragment) :
    Set String :=
  code.foldl (Fragment.after marks) known

def Certified (marks : Marks) : Set String → List Fragment → Prop
  | _, [] => True
  | known, fragment :: rest =>
      fragment.Fits marks known ∧
        Certified marks (fragment.after marks known) rest

variable {marks marks' : Marks} {known more : Set String}
  {code code' : List Fragment}

@[simp] theorem settled_nil : settled marks known [] = known := rfl

@[simp] theorem settled_cons (fragment : Fragment) :
    settled marks known (fragment :: code) =
      settled marks (fragment.after marks known) code := rfl

@[simp] theorem settled_append :
    settled marks known (code ++ code') =
      settled marks (settled marks known code) code' :=
  List.foldl_append

theorem certified_append :
    Certified marks known (code ++ code') ↔
      Certified marks known code ∧
        Certified marks (settled marks known code) code' := by
  induction code generalizing known with
  | nil => simp [Certified]
  | cons fragment rest ih => simp [Certified, ih, and_assoc]

theorem settled_mono (less : known ⊆ more) :
    settled marks known code ⊆ settled marks more code := by
  induction code generalizing known more with
  | nil => exact less
  | cons fragment rest ih => exact ih (Fragment.after_mono less)

theorem Certified.mono (h : Certified marks known code) (less : known ⊆ more) :
    Certified marks more code := by
  induction code generalizing known more with
  | nil => trivial
  | cons fragment rest ih =>
      exact ⟨h.1.mono less, ih h.2 (Fragment.after_mono less)⟩

theorem settled_congr
    (same : ∀ name ∈ labelNames code, marks name = marks' name) :
    settled marks known code = settled marks' known code := by
  induction code generalizing known with
  | nil => rfl
  | cons fragment rest ih =>
      cases fragment with
      | label name =>
          simp only [labelNames_label, List.forall_mem_cons] at same
          simp only [settled_cons, Fragment.after]
          rw [same.1]
          exact ih same.2
      | instr instr => exact ih same

theorem Certified.congr (h : Certified marks known code)
    (same : ∀ name ∈ labelNames code, marks name = marks' name)
    (sameTargets : ∀ name ∈ targets code, marks name = marks' name) :
    Certified marks' known code := by
  induction code generalizing known with
  | nil => trivial
  | cons fragment rest ih =>
      obtain ⟨fits, h⟩ := h
      cases fragment with
      | label name =>
          simp only [labelNames_label, List.forall_mem_cons] at same
          simp only [Certified, Fragment.Fits, Fragment.after] at fits h ⊢
          rw [← same.1]
          exact ⟨fits, ih h same.2 sameTargets⟩
      | instr instr =>
          simp only [targets_instr, List.mem_append, Option.mem_toList]
            at sameTargets
          refine ⟨⟨fits.1, fun label target => ?_⟩,
            ih h same fun name member => sameTargets name (.inr member)⟩
          rw [← sameTargets label (.inl target)]
          exact fits.2 label target

/-- Labels take nothing for granted that is not set before them. -/
theorem Certified.settled_subset (h : Certified marks known code)
    (labels : instrs code = []) : settled marks known code ⊆ known := by
  induction code generalizing known with
  | nil => exact subset_rfl
  | cons fragment rest ih =>
      cases fragment with
      | label name => exact (ih h.2 labels).trans h.1
      | instr instr => simp at labels

/-! ## Places in code -/

theorem exists_split {index : Nat} {instr : Instr}
    (fetch : (instrs code)[index]? = some instr) :
    ∃ before after, code = before ++ .instr instr :: after ∧
      position before = index := by
  induction code generalizing index with
  | nil => simp at fetch
  | cons fragment rest ih =>
      cases fragment with
      | label name =>
          obtain ⟨before, after, rfl, here⟩ := ih fetch
          exact ⟨.label name :: before, after, rfl, here⟩
      | instr first =>
          cases index with
          | zero =>
              obtain rfl : first = instr := by simpa using fetch
              exact ⟨[], rest, rfl, rfl⟩
          | succ index =>
              obtain ⟨before, after, rfl, here⟩ := ih (by simpa using fetch)
              exact ⟨.instr first :: before, after, rfl, by simp [here]⟩

/-- Between two places with the same number of instructions stand labels. -/
theorem labels_between {before after before' after' : List Fragment}
    {instr : Instr}
    (split : before ++ after = before' ++ .instr instr :: after')
    (same : position before = position before') :
    ∃ labels, before' = before ++ labels ∧ instrs labels = [] := by
  rcases List.append_eq_append_iff.mp split with
    ⟨more, rfl, _⟩ | ⟨more, rfl, rest⟩
  · refine ⟨more, rfl, List.eq_nil_of_length_eq_zero ?_⟩
    simpa [position] using same
  · cases more with
    | nil => exact ⟨[], by simp, rfl⟩
    | cons fragment more =>
        simp only [List.cons_append, List.cons.injEq] at rest
        simp [← rest.1] at same

/-! ## What paths have set -/

def assignedBy (passed : List Instr) : Set String :=
  { name | ∃ earlier ∈ passed, earlier.sets? = some name }

theorem assignedBy_append (passed : List Instr) (instr : Instr) :
    assignedBy (passed ++ [instr]) =
      assignedBy passed ∪ { name | instr.sets? = some name } := by
  ext name
  simp only [assignedBy, List.mem_append, List.mem_singleton,
    Set.mem_ofPred_eq, Set.mem_union]
  constructor
  · rintro ⟨earlier, member | rfl, sets⟩
    · exact .inl ⟨earlier, member, sets⟩
    · exact .inr sets
  · rintro (⟨earlier, member, sets⟩ | sets)
    · exact ⟨earlier, .inl member, sets⟩
    · exact ⟨instr, .inr rfl, sets⟩

variable {method : Ir.Method}

theorem getElem?_of_close {index : Nat} {instr : Instr} {returnTy : Ty}
    (body : method.instrs = close returnTy (instrs code) method.labels)
    (fetch : method.instrs[index]? = some instr) :
    (instrs code)[index]? = some instr ∨ instr = .ret .void none := by
  rw [body] at fetch
  rcases close_eq_or returnTy (instrs code) method.labels with same | more
  · exact .inl (same ▸ fetch)
  · rw [more, List.getElem?_append] at fetch
    split at fetch
    · exact .inl fetch
    · obtain ⟨_, rfl⟩ := List.getElem?_eq_some_iff.mp fetch
      exact .inr (by simp)

/--
Whatever is set at a place was assigned on the way there.  The induction is on
the path; between its end and the place there are only labels.
-/
theorem Certified.settled_of_path (h : Certified marks known code)
    (well : WellLabelled code method) {returnTy : Ty}
    (body : method.instrs = close returnTy (instrs code) method.labels)
    {passed : List Instr} {index : Nat} (path : method.Path passed index)
    {before after : List Fragment} {instr : Instr}
    (split : code = before ++ .instr instr :: after)
    (here : position before = index) :
    settled marks known before ⊆ known ∪ assignedBy passed := by
  induction path generalizing before after instr with
  | start =>
      rw [split] at h
      have labels : instrs before = [] := List.eq_nil_of_length_eq_zero here
      exact ((certified_append.mp h).1.settled_subset labels).trans
        Set.subset_union_left
  | @next passed index passing path fetch goesOn ih =>
      have isOld := (getElem?_of_close body fetch).resolve_right (by
        rintro rfl
        simp [Instr.isJump] at goesOn)
      obtain ⟨front, rest, split', there⟩ := exists_split isOld
      have between : front ++ [.instr passing] ++ rest =
          before ++ .instr instr :: after := by
        rw [← split, split']
        simp
      obtain ⟨labels, rfl, noInstr⟩ := labels_between between
        (by simp [here, there])
      have whole := h
      rw [split, certified_append, certified_append] at whole
      rw [settled_append, assignedBy_append, ← Set.union_assoc]
      refine (whole.1.2.settled_subset noInstr).trans ?_
      simpa [Fragment.after, goesOn] using
        Set.union_subset_union_left _ (ih split' there)
  | @jump passed index place passing label path fetch target found ih =>
      -- The mark of the label was no more than what is set at the jump.
      have isOld := (getElem?_of_close body fetch).resolve_right (by
        rintro rfl
        simp [Instr.target?] at target)
      obtain ⟨origin, others, split', leaves⟩ := exists_split isOld
      obtain ⟨front, rest, stands, there⟩ :=
        well.placed label place (Ir.Labels.mem_of_lookup found)
      have between : front ++ [.label label] ++ rest =
          before ++ .instr instr :: after := by
        rw [← split, stands]
        simp
      obtain ⟨labels, rfl, noInstr⟩ := labels_between between (by
        rw [here, there]
        simp [position])
      have whole := h
      rw [split, certified_append, certified_append] at whole
      rw [settled_append, assignedBy_append, ← Set.union_assoc]
      refine (whole.1.2.settled_subset noInstr).trans ?_
      have fits := h
      rw [split', certified_append] at fits
      have marked : marks label ⊆ settled marks known origin :=
        fits.2.1.2 label target
      simp only [settled_append, settled_cons, settled_nil, Fragment.after]
      exact marked.trans ((ih split' leaves).trans Set.subset_union_left)

/-- An instruction reads only what was assigned on the way to it. -/
theorem Certified.reads_of_path (h : Certified marks known code)
    (well : WellLabelled code method) {returnTy : Ty}
    (body : method.instrs = close returnTy (instrs code) method.labels)
    {passed : List Instr} {index : Nat} (path : method.Path passed index)
    {instr : Instr} (fetch : method.instrs[index]? = some instr)
    {name : String} (reads : name ∈ instr.reads) :
    name ∈ known ∪ assignedBy passed := by
  have isOld := (getElem?_of_close body fetch).resolve_right (by
    rintro rfl
    simp [Instr.reads] at reads)
  obtain ⟨before, after, split, here⟩ := exists_split isOld
  have fits := h
  rw [split, certified_append] at fits
  exact h.settled_of_path well body path split here
    (fits.2.1.1 name reads)

end Lowering

end JavaMinus
