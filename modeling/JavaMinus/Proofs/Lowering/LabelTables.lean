import JavaMinus.Proofs.Lowering.Returns

/-!
# Label tables of lowered programs

All labels of a program are distinct, since one counter numbers them.  Hence
each one that is left in the table of its method leads to the place where it
stood, and every jump has such a label to go to.
-/

namespace JavaMinus

open Ir (Instr Fragment Labels)
open Lowering

/-! ## Tables -/

theorem Ir.Labels.keys_place {labels : Labels} {name : String}
    (absent : name ∉ labels.map Prod.fst) (index : Nat) :
    ((labels.place name index).map Prod.fst).Perm
      (name :: labels.map Prod.fst) := by
  induction labels with
  | nil => simp [place]
  | cons entry rest ih =>
      obtain ⟨other, spot⟩ := entry
      simp only [List.map_cons, List.mem_cons, not_or] at absent
      rw [place]
      split
      · simp
      · rw [if_neg absent.1]
        exact ((ih absent.2).cons other).trans (.swap name other _)

namespace Lowering

theorem keys_placeLabels {code : List Fragment} {labels : Labels}
    (distinct : (labelNames code ++ labels.map Prod.fst).Nodup)
    (count : Nat) :
    ((placeLabels count code labels).map Prod.fst).Perm
      (labelNames code ++ labels.map Prod.fst) := by
  induction code generalizing count labels with
  | nil => simp [placeLabels]
  | cons fragment rest ih =>
      cases fragment with
      | instr instr => exact ih distinct (count + 1)
      | label name =>
          simp only [labelNames_label, List.cons_append, List.nodup_cons,
            List.mem_append, not_or] at distinct ⊢
          obtain ⟨⟨_, absent⟩, distinct⟩ := distinct
          have keys := (Ir.Labels.keys_place absent count).append_left
            (labelNames rest)
          have placed : (labelNames rest ++
              (labels.place name count).map Prod.fst).Perm
              (name :: (labelNames rest ++ labels.map Prod.fst)) :=
            keys.trans List.perm_middle
          rw [placeLabels]
          refine (ih (placed.nodup_iff.mpr ?_) count).trans placed
          simp_all

theorem keys_nodup {code : List Fragment}
    (distinct : (labelNames code).Nodup) :
    ((pruneLabels (instrs code) (placeLabels 0 code [])).map
      Prod.fst).Nodup := by
  have alone : (labelNames code ++ List.map Prod.fst ([] : Labels)).Nodup := by
    simpa using distinct
  have whole := (keys_placeLabels alone 0).nodup_iff.mpr alone
  exact whole.sublist (List.filter_sublist.map Prod.fst)

structure WellLabelled (code : List Fragment) (method : Ir.Method) :
    Prop where
  front : instrs code <+: method.instrs
  unique : (method.labels.map Prod.fst).Nodup
  placed : ∀ name place, (name, place) ∈ method.labels →
    ∃ before after, code = before ++ .label name :: after ∧
      place = (instrs before).length
  jumps : ∀ instr ∈ method.instrs, ∀ name, instr.target? = some name →
    ∃ place ≤ method.instrs.length, method.labels.lookup name = some place
  closed : method.returnTy.isVoid = true →
    (∀ entry ∈ method.labels, entry.2 < method.instrs.length) ∧
      ∃ last, method.instrs.getLast? = some last ∧ last.isReturn = true

theorem close_eq_or (returnTy : Ty) (code : List Instr) (labels : Labels) :
    close returnTy code labels = code ∨
      close returnTy code labels = code ++ [.ret .void none] := by
  simp only [close]
  generalize (returnTy.isVoid && _) = returns
  cases returns <;> simp

theorem front_close (returnTy : Ty) (code : List Instr) (labels : Labels) :
    code <+: close returnTy code labels := by
  rcases close_eq_or returnTy code labels with same | more
  · exact same.symm ▸ List.prefix_refl code
  · exact more.symm ▸ List.prefix_append code _

theorem mem_close {returnTy : Ty} {code : List Instr} {labels : Labels}
    {instr : Instr} (member : instr ∈ close returnTy code labels) :
    instr ∈ code ∨ instr = .ret .void none := by
  rcases close_eq_or returnTy code labels with same | more
  · rw [same] at member
    exact .inl member
  · simpa [more] using member

/-- A method without a result ends with a return, behind all labels. -/
theorem closed_of_isVoid {code : List Fragment} {method : Ir.Method}
    (labels : method.labels =
      pruneLabels (instrs code) (placeLabels 0 code []))
    (body : method.instrs =
      close method.returnTy (instrs code) method.labels)
    (isVoid : method.returnTy.isVoid = true) :
    (∀ entry ∈ method.labels, entry.2 < method.instrs.length) ∧
      ∃ last, method.instrs.getLast? = some last ∧ last.isReturn = true := by
  have bound : ∀ entry ∈ method.labels, entry.2 ≤ (instrs code).length := by
    intro entry member
    rw [labels] at member
    rcases mem_placeLabels (mem_targets_of_pruneLabels member).1 with
      none | ⟨before, after, rfl, place⟩
    · simp at none
    · rw [place]
      simp [position]
  rw [body]
  rcases close_of_isVoid (instrs code) method.labels isVoid with
    closed | ⟨closed, returns, unlabelled⟩
  · rw [closed]
    refine ⟨fun entry member => ?_, _, List.getLast?_concat, rfl⟩
    have := bound entry member
    simp only [List.length_append, List.length_singleton]
    omega
  · rw [closed]
    refine ⟨fun entry member => ?_, returns⟩
    exact Nat.lt_of_le_of_ne (bound entry member) (unlabelled entry member)

theorem wellLabelled {code : List Fragment} {method : Ir.Method}
    (distinct : (labelNames code).Nodup)
    (inside : targets code ⊆ labelNames code)
    (labels : method.labels =
      pruneLabels (instrs code) (placeLabels 0 code []))
    (body : method.instrs =
      close method.returnTy (instrs code) method.labels) :
    WellLabelled code method := by
  have front : instrs code <+: method.instrs :=
    body ▸ front_close method.returnTy (instrs code) method.labels
  constructor
  · exact front
  · rw [labels]
    exact keys_nodup distinct
  · intro name place member
    rw [labels] at member
    rcases mem_placeLabels (mem_targets_of_pruneLabels member).1 with
      none | ⟨before, after, here, there⟩
    · simp at none
    · exact ⟨before, after, here, by simpa [position] using there⟩
  · intro instr member name target
    have isOld : instr ∈ instrs code := by
      rw [body] at member
      rcases mem_close member with member | rfl
      · exact member
      · simp [Instr.target?] at target
    have stands := inside (mem_targets.mpr
      ⟨instr, mem_instrs.mp isOld, target⟩)
    obtain ⟨before, after, here⟩ :=
      List.append_of_mem (mem_labelNames.mp stands)
    have known := (holds_of_distinct distinct labels body).jump here
      (mem_instrs.mp isOld) target
    refine ⟨_, Nat.le_trans ?_ front.length_le, known⟩
    simp [here, position]
  · exact closed_of_isVoid labels body

end Lowering

/-! ## Programs -/

namespace Tree

def Method.fragments (table : SymbolTable) (method : Method) :
    Lower (List Fragment) := do
  modify (Supply.reserve (reservedNames table method))
  Stmt.lowerAll { table, method := method.name } method.body

def Method.fragmentsAll (table : SymbolTable) :
    List Method → Lower (List (List Fragment))
  | [] => pure []
  | method :: rest => do
      let code ← method.fragments table
      let codes ← fragmentsAll table rest
      pure (code :: codes)

def Program.fragments (table : SymbolTable) (program : Program) :
    Lower (List (List Fragment)) := do
  let codes ← Method.fragmentsAll table program.declared.methods
  pure (codes ++
    [(defaultConstructor program.declared.name).instrs.map .instr])

variable {table : SymbolTable} {supply after : Supply}

theorem Method.lower_wellLabelled {method : Method} {lowered : Ir.Method}
    (h : method.lower table supply = .ok lowered after) :
    ∃ code, method.fragments table supply = .ok code after ∧
      Labelled supply.nextLabel after.nextLabel code ∧
      supply.nextLabel ≤ after.nextLabel ∧ WellLabelled code lowered := by
  obtain ⟨code, hcode, labels, body⟩ := lower_eq_ok h
  have draws := Stmt.lowerAll_draws hcode
  rw [← (lower_fields h).returnTy] at body
  exact ⟨code, hcode, draws.labelled, draws.label,
    wellLabelled draws.labelled.distinct draws.closed labels body⟩

theorem Method.lowerAll_wellLabelled {methods : List Method}
    {lowered : List Ir.Method}
    (h : Method.lowerAll table methods supply = .ok lowered after) :
    ∃ codes, fragmentsAll table methods supply = .ok codes after ∧
      Labelled supply.nextLabel after.nextLabel codes.flatten ∧
      supply.nextLabel ≤ after.nextLabel ∧
      List.Forall₂ WellLabelled codes lowered := by
  induction methods generalizing supply lowered with
  | nil =>
      obtain ⟨rfl, rfl⟩ := Action.pure_eq_ok.mp h
      exact ⟨[], rfl, .of_noLabels rfl, Nat.le_refl _, .nil⟩
  | cons method methods ih =>
      obtain ⟨first, mid, hfirst, h⟩ := Action.bind_eq_ok.mp h
      obtain ⟨rest, last, hrest, h⟩ := Action.bind_eq_ok.mp h
      obtain ⟨rfl, rfl⟩ := Action.pure_eq_ok.mp h
      obtain ⟨code, hcode, labelled, more, well⟩ := lower_wellLabelled hfirst
      obtain ⟨codes, hcodes, labelled', more', well'⟩ := ih hrest
      refine ⟨code :: codes, ?_, labelled.append labelled' more more',
        Nat.le_trans more more', .cons well well'⟩
      rw [fragmentsAll, Action.bind_of_ok hcode, Action.bind_of_ok hcodes]
      rfl

theorem constructor_wellLabelled (className : String) :
    WellLabelled ((defaultConstructor className).instrs.map .instr)
      (defaultConstructor className) := by
  constructor <;> simp [defaultConstructor, Instr.target?, Instr.isReturn]

/-- The labels of a program are distinct and lead to where they stood. -/
theorem Program.lower_wellLabelled {program : Program} {cls : Ir.Class}
    (h : program.lower table supply = .ok cls after) :
    ∃ codes, program.fragments table supply = .ok codes after ∧
      Labelled supply.nextLabel after.nextLabel codes.flatten ∧
      List.Forall₂ WellLabelled codes cls.methods := by
  obtain ⟨lowered, mid, hlowered, h⟩ := Action.bind_eq_ok.mp h
  obtain ⟨rfl, rfl⟩ := Action.pure_eq_ok.mp h
  obtain ⟨codes, hcodes, labelled, _, well⟩ :=
    Method.lowerAll_wellLabelled hlowered
  refine ⟨codes ++
    [(defaultConstructor program.declared.name).instrs.map .instr], ?_,
    labelled.of_perm ?_, ?_⟩
  · rw [fragments, Action.bind_of_ok hcodes]
    rfl
  · simp [defaultConstructor]
  · exact List.rel_append well (.cons (constructor_wellLabelled _) .nil)

end Tree

end JavaMinus
