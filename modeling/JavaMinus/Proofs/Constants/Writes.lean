import JavaMinus.Proofs.Constants.Propagation
import JavaMinus.Proofs.Lowering.Shapes

/-!
# Assignments seen by propagation and stores made by lowering

Two passes ask which variables a statement writes.  Lowering looks through the
parentheses around an assigned expression and propagation does not, so facts
about a variable that is only assigned in parentheses outlive a loop.
-/

namespace JavaMinus

namespace Lowering

open Ir (Fragment Instr)

def stored (code : List Fragment) : List String :=
  (instrs code).filterMap Instr.sets?

theorem mem_stored {name : String} {code : List Fragment} :
    name ∈ stored code ↔
      ∃ ty ty' value, .assign (.var name ty) ty' value ∈ instrs code := by
  simp only [stored, List.mem_filterMap]
  constructor
  · rintro ⟨instr, member, isStore⟩
    simp only [Instr.sets?] at isStore
    split at isStore
    · cases isStore
      exact ⟨_, _, _, member⟩
    · cases isStore
  · rintro ⟨ty, ty', value, member⟩
    exact ⟨_, member, rfl⟩

theorem stored_subset {part code : List Fragment}
    (h : ∀ instr ∈ instrs part, instr ∈ instrs code) :
    stored part ⊆ stored code :=
  List.filterMap_subset _ h

theorem mem_instrs_of_thenGoto {instr : Instr} {label : String}
    {code : List Fragment} (h : instr ∈ instrs code) :
    instr ∈ instrs (thenGoto label code) := by
  rw [thenGoto]
  split
  · simp [h]
  · exact h

end Lowering

theorem Tree.Facts.lookup_without (names : List String) (facts : Facts)
    (name : String) :
    (facts.without names).lookup name =
      if name ∈ names then none else facts.lookup name := by
  induction facts with
  | nil => simp [without]
  | cons entry rest ih =>
      obtain ⟨known, value⟩ := entry
      by_cases same : name = known
      · subst same
        by_cases isOne : name ∈ names
        · simpa [without, isOne] using ih
        · simp [without, isOne]
      · have other : (name == known) = false := beq_false_of_ne same
        by_cases isOne : known ∈ names <;>
          simpa [without, isOne, List.lookup_cons, other] using ih

namespace Tree.Stmt

open Ir (Fragment Instr)
open Lowering

variable {scope : Scope} {supply after : Supply} {code : List Fragment}
  {stmt : Stmt} {name : String}

/-! ## Lowering -/

theorem store_of_assigns (isVariable : scope.IsVariable name)
    (assigns : stmt.Assigns name)
    (h : stmt.lower scope supply = .ok code after) :
    name ∈ stored code := by
  induction h using lower_induction with
  | nil =>
      cases assigns with
      | block member => simp at member
  | cons _ _ ihFirst ihRest =>
      cases assigns with
      | block member inside =>
          rcases List.mem_cons.mp member with rfl | member
          · exact stored_subset (fun instr here => by simp [here])
              (ihFirst inside)
          · exact stored_subset (fun instr here => by simp [here])
              (ihRest (.block member inside))
  | increment form | assignVar form =>
      cases assigns with
      | assign isVar =>
          cases isVar.symm.trans form
          simp [stored, Instr.sets?, Instr.store]
  | assignField form isField =>
      cases assigns with
      | assign isVar =>
          cases isVar.symm.trans form
          obtain ⟨symbol, origin | origin⟩ := isVariable <;>
            cases origin.symm.trans isField
  | assignElement form =>
      cases assigns with
      | assign isVar => cases isVar.symm.trans form
  | expr | retVoid | ret => cases assigns
  | ifThen _ _ _ _ ih =>
      cases assigns with
      | ifThen inside =>
          exact stored_subset (fun instr here => by simp [here]) (ih inside)
  | ifElse _ _ _ _ _ ihFalse ihTrue =>
      cases assigns with
      | onTrue inside =>
          exact stored_subset (fun instr here => by simp [here])
            (ihTrue inside)
      | onFalse inside =>
          refine stored_subset (fun instr here => ?_) (ihFalse inside)
          simp only [instrs_append, List.mem_append]
          exact .inl (.inl (mem_instrs_of_thenGoto (by simp [here])))
  | loop _ _ _ _ _ ih =>
      cases assigns with
      | loop inside =>
          refine stored_subset (fun instr here => ?_) (ih inside)
          simp only [instrs_append, List.mem_append]
          exact .inl (mem_instrs_of_thenGoto (by simp [here]))

/-- Apart from its temporaries, the code stores what the statement assigns. -/
theorem mem_stored_iff_assigns (h : stmt.lower scope supply = .ok code after)
    (isVariable : scope.IsVariable name)
    (notTemp : ¬ supply.Drawn after name) :
    name ∈ stored code ↔ stmt.Assigns name := by
  constructor
  · intro member
    obtain ⟨ty, ty', value, member⟩ := mem_stored.mp member
    cases (lower_implements h).each _ member with
    | evaluates evaluates =>
        cases evaluates with
        | store drawn => exact absurd drawn notTemp
    | assign _ assigns _ => exact assigns
  · exact fun assigns => store_of_assigns isVariable assigns h

/-! ## Propagation -/

def AssignsInParens (stmt : Stmt) (name : String) : Prop :=
  ∃ span attr inner attr' value,
    .assign span (.paren attr inner) value ∈ stmt.preorder ∧
      inner.skipParens = .var attr' name

theorem assigns_of_mem_preorder {part : Stmt}
    (member : part ∈ stmt.preorder) (assigns : part.Assigns name) :
    stmt.Assigns name := by
  induction stmt with
  | block span body ih =>
      rcases List.mem_cons.mp member with rfl | member
      · exact assigns
      · obtain ⟨inner, isPart, member⟩ := mem_preorderAll.mp member
        exact .block isPart (ih inner isPart member)
  | ifThen span cond onTrue ih =>
      rcases List.mem_cons.mp member with rfl | member
      · exact assigns
      · exact .ifThen (ih member)
  | ifElse span cond onTrue onFalse ihTrue ihFalse =>
      rcases List.mem_cons.mp member with rfl | member
      · exact assigns
      · rcases List.mem_append.mp member with member | member
        · exact .onTrue (ihTrue member)
        · exact .onFalse (ihFalse member)
  | loop span cond body ih =>
      rcases List.mem_cons.mp member with rfl | member
      · exact assigns
      · exact .loop (ih member)
  | assign | expr | ret => rwa [List.mem_singleton.mp member] at assigns

theorem assigns_of_mem_assigned (h : name ∈ stmt.assigned) :
    stmt.Assigns name := by
  induction stmt with
  | block span body ih =>
      obtain ⟨inner, member, inside⟩ := mem_assignedAll.mp h
      exact .block member (ih inner member inside)
  | assign span target value =>
      cases target with
      | var attr other =>
          rw [assigned, List.mem_singleton] at h
          subst h
          exact .assign rfl
      | _ => simp [assigned] at h
  | expr | ret => simp [assigned] at h
  | ifThen span cond onTrue ih => exact .ifThen (ih h)
  | ifElse span cond onTrue onFalse ihTrue ihFalse =>
      rcases List.mem_append.mp h with h | h
      · exact .onTrue (ihTrue h)
      · exact .onFalse (ihFalse h)
  | loop span cond body ih => exact .loop (ih h)

theorem AssignsInParens.of_part {part : Stmt}
    (parts : ∀ inner ∈ part.preorder, inner ∈ stmt.preorder)
    (h : part.AssignsInParens name) : stmt.AssignsInParens name := by
  obtain ⟨span, attr, inner, attr', value, member, isVar⟩ := h
  exact ⟨span, attr, inner, attr', value, parts _ member, isVar⟩

/-- Propagation misses the assignments in parentheses and no others. -/
theorem assigns_iff :
    stmt.Assigns name ↔ name ∈ stmt.assigned ∨ stmt.AssignsInParens name := by
  constructor
  · intro assigns
    induction assigns with
    | @assign span target value attr name isVar =>
        cases target with
        | var attr' other =>
            cases isVar
            exact .inl (by simp [assigned])
        | paren attr' inner =>
            exact .inr ⟨span, attr', inner, attr, value,
              by simp [preorder], isVar⟩
        | _ => cases isVar
    | block member _ ih =>
        exact ih.imp
          (fun here => mem_assignedAll.mpr ⟨_, member, here⟩)
          (.of_part fun inner inside => List.mem_cons_of_mem _
            (mem_preorderAll.mpr ⟨_, member, inside⟩))
    | ifThen _ ih | loop _ ih =>
        exact ih.imp id (.of_part fun inner => List.mem_cons_of_mem _)
    | onTrue _ ih =>
        exact ih.imp (List.mem_append_left _)
          (.of_part fun inner inside => by simp [preorder, inside])
    | onFalse _ ih =>
        exact ih.imp (List.mem_append_right _)
          (.of_part fun inner inside => by simp [preorder, inside])
  · rintro (here | ⟨span, attr, inner, attr', value, member, isVar⟩)
    · exact assigns_of_mem_assigned here
    · exact assigns_of_mem_preorder member (.assign isVar)

/-! ## Loops -/

/--
The code of a statement stores the variables that propagation takes for
assigned, and those that are assigned in parentheses.  Behind a loop nothing
is known of the former, and of the latter what was known before it.
-/
theorem lower_stored_iff (h : stmt.lower scope supply = .ok code after)
    (isVariable : scope.IsVariable name)
    (notTemp : ¬ supply.Drawn after name) :
    (name ∈ stored code ↔
      name ∈ stmt.assigned ∨ stmt.AssignsInParens name) ∧
      ∀ tracked span cond facts,
        ((Stmt.loop span cond stmt).propagate tracked facts).value.2.lookup
            name =
          if name ∈ stmt.assigned then none else facts.lookup name := by
  refine ⟨(mem_stored_iff_assigns h isVariable notTemp).trans assigns_iff, ?_⟩
  intro tracked span cond facts
  exact facts.lookup_without stmt.assigned name

def reset (target : Expr) : Stmt :=
  .assign {} target (.int ⟨.int, {}⟩ 2)

def plainX : Expr := .var ⟨.int, {}⟩ "x"

def parenX : Expr := .paren ⟨.int, {}⟩ plainX

def resetting (target : Expr) : Method where
  name := "f"
  returnTy := .int
  params := [{ name := "c", ty := .boolean }]
  locals := [{ name := "x", ty := .int }]
  body := [.assign {} plainX (.int ⟨.int, {}⟩ 1),
    .loop {} (.var ⟨.boolean, {}⟩ "c") (reset target),
    .ret {} (some plainX)]

def resettingScope : Scope where
  table := { className := "A", methods := [(resetting parenX).signature] }
  method := "f"

theorem lower_stored_plain :
    ∃ code after,
      (reset plainX).lower resettingScope { reserved := ["c", "x"] } =
        .ok code after ∧
      "x" ∈ stored code ∧
      ∀ facts, ((Stmt.loop {} (.var ⟨.boolean, {}⟩ "c")
        (reset plainX)).propagate ["x"] facts).value.2.lookup "x" = none := by
  obtain ⟨code, after, h⟩ : ∃ code after,
      (reset plainX).lower resettingScope { reserved := ["c", "x"] } =
        .ok code after := ⟨_, _, rfl⟩
  have isAssigned : "x" ∈ (reset plainX).assigned := by decide
  have isVariable : resettingScope.IsVariable "x" := ⟨_, .inl rfl⟩
  obtain ⟨stores, looks⟩ := lower_stored_iff h isVariable
    fun drawn => drawn.isNew (.inl (by decide))
  exact ⟨code, after, h, stores.mpr (.inl isAssigned), fun facts =>
    (looks _ _ _ facts).trans (if_pos isAssigned)⟩

/-- With parentheses the old value is returned, whatever the loop did. -/
theorem fact_outlives_store_in_loop :
    ∃ code after,
      (reset parenX).lower resettingScope { reserved := ["c", "x"] } =
        .ok code after ∧
      "x" ∈ stored code ∧ "x" ∉ (reset parenX).assigned ∧
      ((Stmt.loop {} (.var ⟨.boolean, {}⟩ "c") (reset parenX)).propagate
        ["x"] [("x", 1)]).value.2.lookup "x" = some 1 ∧
      (resetting parenX).propagate.value.body.getLast? =
        some (.ret {} (some (.int ⟨.int, {}⟩ 1))) :=
  ⟨_, _, rfl, by decide, by decide, by decide, rfl⟩

end Tree.Stmt

end JavaMinus
