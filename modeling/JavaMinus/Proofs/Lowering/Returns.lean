import JavaMinus.Proofs.Lowering.Methods

/-!
# Bodies that always return

The code of a statement that returns on every way ends with a return, and only
labels may come after it.  They stand behind the last instruction, so a method
with a result must not jump to any of them.  It does so exactly where a
conditional at its end has a second branch that ends with a conditional too:
what that branch leaves behind is a label, and a jump over the first branch is
put there that is never taken.
-/

namespace JavaMinus

open Ir (Instr Fragment Labels)
open Lowering

/-! ## Statements -/

namespace Tree.Stmt

inductive Returns : Stmt → Prop where
  | ret {span : Span} {value : Expr} : Returns (.ret span (some value))
  | block {span : Span} {body : List Stmt} {last : Stmt}
      (isLast : body.getLast? = some last) (returns : Returns last) :
      Returns (.block span body)
  | ifElse {span : Span} {cond : Expr} {onTrue onFalse : Stmt}
      (onTrueReturns : Returns onTrue) (onFalseReturns : Returns onFalse) :
      Returns (.ifElse span cond onTrue onFalse)

inductive EndsInReturn : Stmt → Prop where
  | ret {span : Span} {value : Expr} : EndsInReturn (.ret span (some value))
  | block {span : Span} {body : List Stmt} {last : Stmt}
      (isLast : body.getLast? = some last) (ends : EndsInReturn last) :
      EndsInReturn (.block span body)

/--
The second branch of every conditional at the end of the statement ends in a
return.  The end of a conditional is that of its first branch.
-/
inductive Sealed : Stmt → Prop where
  | ret {span : Span} {value : Expr} : Sealed (.ret span (some value))
  | block {span : Span} {body : List Stmt} {last : Stmt}
      (isLast : body.getLast? = some last) (ends : Sealed last) :
      Sealed (.block span body)
  | ifElse {span : Span} {cond : Expr} {onTrue onFalse : Stmt}
      (ends : Sealed onTrue) (returns : EndsInReturn onFalse) :
      Sealed (.ifElse span cond onTrue onFalse)

variable {span : Span} {body : List Stmt} {last : Stmt}

theorem endsInReturn_block (isLast : body.getLast? = some last) :
    (Stmt.block span body).EndsInReturn ↔ last.EndsInReturn := by
  refine ⟨fun h => ?_, .block isLast⟩
  cases h with
  | block isLast' ends =>
      cases isLast.symm.trans isLast'
      exact ends

theorem sealed_block (isLast : body.getLast? = some last) :
    (Stmt.block span body).Sealed ↔ last.Sealed := by
  refine ⟨fun h => ?_, .block isLast⟩
  cases h with
  | block isLast' ends =>
      cases isLast.symm.trans isLast'
      exact ends

theorem sealed_ifElse {cond : Expr} {onTrue onFalse : Stmt} :
    (Stmt.ifElse span cond onTrue onFalse).Sealed ↔
      onTrue.Sealed ∧ onFalse.EndsInReturn := by
  refine ⟨fun h => ?_, fun h => .ifElse h.1 h.2⟩
  cases h with
  | ifElse ends returns => exact ⟨ends, returns⟩

end Tree.Stmt

/-! ## Code -/

namespace Lowering

@[simp] theorem instrs_labels (names : List String) :
    instrs (names.map .label) = [] := by
  simp [instrs, List.filterMap_map]

@[simp] theorem labelNames_labels (names : List String) :
    labelNames (names.map .label) = names := by
  simp [labelNames, List.filterMap_map]

def EndsWithReturn (code : List Fragment) (ends : List String) : Prop :=
  ∃ front instr, code = front ++ .instr instr :: ends.map .label ∧
    instr.isReturn = true

namespace EndsWithReturn

variable {code : List Fragment} {ends : List String}

theorem prepend (before : List Fragment) (h : EndsWithReturn code ends) :
    EndsWithReturn (before ++ code) ends := by
  obtain ⟨front, instr, rfl, isReturn⟩ := h
  exact ⟨before ++ front, instr, by simp, isReturn⟩

theorem andLabel (name : String) (h : EndsWithReturn code ends) :
    EndsWithReturn (code ++ [.label name]) (ends ++ [name]) := by
  obtain ⟨front, instr, rfl, isReturn⟩ := h
  exact ⟨front, instr, by simp, isReturn⟩

theorem ne_nil (h : EndsWithReturn code ends) : code ≠ [] := by
  obtain ⟨front, instr, rfl, _⟩ := h
  simp

theorem getLast?_instrs (h : EndsWithReturn code ends) :
    ∃ instr, (instrs code).getLast? = some instr ∧
      instr.isReturn = true := by
  obtain ⟨front, instr, rfl, isReturn⟩ := h
  exact ⟨instr, by simp, isReturn⟩

/-- A label at the end makes the code look as if control got past it. -/
theorem fallsThrough_eq (h : EndsWithReturn code ends) :
    fallsThrough code = !ends.isEmpty := by
  obtain ⟨front, instr, rfl, isReturn⟩ := h
  rcases List.eq_nil_or_concat' ends with rfl | ⟨names, name, rfl⟩
  · cases instr with
    | ret ty operand => exact fallsThrough_instr front _
    | _ => contradiction
  · rw [List.map_append, List.map_singleton, ← List.cons_append,
      ← List.append_assoc, fallsThrough_label]
    simp

theorem subset_labelNames (h : EndsWithReturn code ends) :
    ends ⊆ labelNames code := by
  obtain ⟨front, instr, rfl, _⟩ := h
  simp

theorem position_lt_or_mem (h : EndsWithReturn code ends)
    {before after : List Fragment} {name : String}
    (here : code = before ++ .label name :: after) :
    position before < position code ∨ name ∈ ends := by
  obtain ⟨front, instr, whole, _⟩ := h
  rw [whole] at here
  rcases List.append_eq_append_iff.mp here with
    ⟨more, rfl, rest⟩ | ⟨more, rfl, rest⟩
  · cases more with
    | nil => simp at rest
    | cons fragment more =>
        simp only [List.cons_append, List.cons.injEq] at rest
        have : Fragment.label name ∈ ends.map Fragment.label := by
          simp [rest.2]
        exact .inr (by simpa using this)
  · left
    rw [whole]
    simp only [position_append, position_instr]
    omega

theorem exists_position (h : EndsWithReturn code ends) {name : String}
    (member : name ∈ ends) :
    ∃ before after, code = before ++ .label name :: after ∧
      position before = position code := by
  obtain ⟨front, instr, rfl, _⟩ := h
  obtain ⟨names, rest, rfl⟩ := List.append_of_mem member
  exact ⟨front ++ .instr instr :: names.map .label, rest.map .label,
    by simp, by simp [position]⟩

end EndsWithReturn

end Lowering

/-! ## Lowered statements -/

namespace Tree.Stmt

variable {scope : Scope}

/--
The code ends with a return; nothing follows it if the statement ends in one,
and nothing leads behind it if the statement is sealed.
-/
private def Finishes (stmt : Stmt) (code : List Fragment) : Prop :=
  ∃ ends, EndsWithReturn code ends ∧ (ends = [] ↔ stmt.EndsInReturn) ∧
    ((∀ name ∈ ends, name ∉ targets code) ↔ stmt.Sealed)

private theorem lowerAll_finishes {body : List Stmt} {last : Stmt}
    (isLast : body.getLast? = some last)
    (each : ∀ ⦃supply code after⦄,
      last.lower scope supply = .ok code after → Finishes last code)
    {supply after : Supply} {code : List Fragment}
    (h : lowerAll scope body supply = .ok code after) :
    Finishes last code := by
  induction body generalizing supply code with
  | nil => simp at isLast
  | cons stmt rest ih =>
      have whole := lowerAll_draws h
      obtain ⟨stmtCode, mid, restCode, hstmt, hrest, rfl⟩ :=
        lowerAll_cons_eq_ok h
      cases rest with
      | nil =>
          obtain ⟨rfl, rfl⟩ := Action.pure_eq_ok.mp hrest
          cases isLast
          simpa using each hstmt
      | cons next rest =>
          rw [List.getLast?_cons_cons] at isLast
          obtain ⟨ends, returns, plain, unused⟩ := ih isLast hrest
          refine ⟨ends, returns.prepend stmtCode, plain, ?_⟩
          -- what comes before has its own labels, and jumps to no others
          have apart : ∀ name ∈ ends, name ∉ targets stmtCode :=
            fun name member =>
              (lower_draws hstmt).not_target
                (by simpa using whole.labelled.distinct)
                (returns.subset_labelNames member)
          rw [← unused]
          simp only [targets_append, List.mem_append]
          grind

private theorem apart_of_nodup {cond onFalse onTrue : List String}
    {thenLabel endLabel : String}
    (distinct :
      (cond ++ onFalse ++ thenLabel :: onTrue ++ [endLabel]).Nodup) :
    (∀ name ∈ onTrue, name ∉ cond ∧ name ∉ onFalse ∧ name ≠ thenLabel ∧
      name ≠ endLabel) ∧
      endLabel ∉ cond ∧ endLabel ∉ onFalse ∧ endLabel ≠ thenLabel ∧
        endLabel ∉ onTrue := by
  simp only [List.nodup_append, List.nodup_cons, List.mem_append,
    List.mem_cons] at distinct
  grind

private theorem ifElse_finishes {span : Span} {cond : Expr}
    {onTrue onFalse : Stmt}
    (ihTrue : ∀ ⦃supply code after⦄,
      onTrue.lower scope supply = .ok code after → Finishes onTrue code)
    (ihFalse : ∀ ⦃supply code after⦄,
      onFalse.lower scope supply = .ok code after → Finishes onFalse code)
    {supply after : Supply} {code : List Fragment}
    (h : (Stmt.ifElse span cond onTrue onFalse).lower scope supply =
      .ok code after) :
    Finishes (.ifElse span cond onTrue onFalse) code := by
  have distinct := (lower_draws h).labelled.distinct
  obtain ⟨op, condCode, first, thenLabel, second, endLabel, third, falseCode,
    fourth, trueCode, hcond, _, _, hfalse, htrue, rfl⟩ :=
    lower_ifElse_eq_ok h
  obtain ⟨ends, returns, _, unused⟩ := ihTrue htrue
  obtain ⟨falseEnds, falseReturns, plain, _⟩ := ihFalse hfalse
  refine ⟨ends ++ [endLabel], ?_, ?_, ?_⟩
  · rw [List.append_assoc, List.cons_append]
    exact ((returns.andLabel endLabel).prepend [.label thenLabel]).prepend _
  · exact ⟨fun empty => by simp at empty, fun ends => nomatch ends⟩
  · have falls : fallsThrough
        (condCode ++ .instr (.branch op thenLabel) :: falseCode) =
          !falseEnds.isEmpty := by
      rw [List.append_cons, fallsThrough_append _ falseReturns.ne_nil,
        falseReturns.fallsThrough_eq]
    have closedCond : targets condCode ⊆ labelNames condCode :=
      (Expr.lower_draws hcond).closed
    have closedFalse := (lower_draws hfalse).closed
    have closedTrue := (lower_draws htrue).closed
    simp only [labelNames_append, labelNames_thenGoto, labelNames_instr,
      labelNames_label, labelNames_nil] at distinct
    obtain ⟨apart, apartEnd⟩ := apart_of_nodup distinct
    -- only the first branch jumps to its labels
    have inner : ∀ name ∈ ends, name ∉ targets condCode ∧
        name ∉ targets falseCode ∧ name ≠ thenLabel ∧ name ≠ endLabel := by
      intro name member
      have ⟨noCond, noFalse, rest⟩ :=
        apart name (returns.subset_labelNames member)
      exact ⟨mt (closedCond ·) noCond, mt (closedFalse ·) noFalse, rest⟩
    -- only the jump behind the second branch leads to the end
    have outer : endLabel ∉ targets condCode ∧ endLabel ∉ targets falseCode ∧
        endLabel ≠ thenLabel ∧ endLabel ∉ targets trueCode :=
      ⟨mt (closedCond ·) apartEnd.1, mt (closedFalse ·) apartEnd.2.1,
        apartEnd.2.2.1, mt (closedTrue ·) apartEnd.2.2.2⟩
    rw [sealed_ifElse, ← unused, ← plain, ← List.isEmpty_iff,
      List.forall_mem_append, List.forall_mem_singleton]
    simp only [targets_append, mem_targets_thenGoto, targets_instr,
      targets_label, targets_nil, falls, Instr.target?, List.mem_append,
      Option.mem_toList]
    grind

private theorem finishes {stmt : Stmt} (returns : stmt.Returns)
    {supply after : Supply} {code : List Fragment}
    (h : stmt.lower scope supply = .ok code after) : Finishes stmt code := by
  induction returns generalizing supply code after with
  | ret =>
      rw [lower] at h
      obtain ⟨op, valueCode, _, rfl⟩ := ret_some_eq_ok h
      exact ⟨[], ⟨valueCode, _, rfl, rfl⟩, ⟨fun _ => .ret, fun _ => rfl⟩,
        ⟨fun _ => .ret, fun _ => by simp⟩⟩
  | block isLast _ ih =>
      rw [lower] at h
      obtain ⟨ends, returns, plain, unused⟩ :=
        lowerAll_finishes isLast (fun _ _ _ => ih) h
      exact ⟨ends, returns, plain.trans (endsInReturn_block isLast).symm,
        unused.trans (sealed_block isLast).symm⟩
  | ifElse _ _ ihTrue ihFalse =>
      exact ifElse_finishes (fun _ _ _ => ihTrue) (fun _ _ _ => ihFalse) h

end Tree.Stmt

/-! ## Label tables -/

theorem Ir.Labels.mem_place {labels : Labels} {name : String} {index : Nat}
    {entry : String × Nat} (h : entry ∈ labels.place name index) :
    entry = (name, index) ∨ entry ∈ labels := by
  induction labels with
  | nil => simpa [place] using h
  | cons known rest ih =>
      obtain ⟨other, spot⟩ := known
      rw [place] at h
      grind

namespace Lowering

theorem mem_placeLabels {code : List Fragment} {count : Nat}
    {labels : Labels} {name : String} {place : Nat}
    (h : (name, place) ∈ placeLabels count code labels) :
    (name, place) ∈ labels ∨
      ∃ before after, code = before ++ .label name :: after ∧
        place = count + position before := by
  induction code generalizing count labels with
  | nil => exact .inl h
  | cons fragment rest ih =>
      cases fragment with
      | label other =>
          rcases ih h with old | ⟨before, after, rfl, rfl⟩
          · rcases Ir.Labels.mem_place old with here | old
            · cases here
              exact .inr ⟨[], rest, rfl, rfl⟩
            · exact .inl old
          · exact .inr ⟨.label other :: before, after, rfl, rfl⟩
      | instr instr =>
          rcases ih h with old | ⟨before, after, rfl, rfl⟩
          · exact .inl old
          · refine .inr ⟨.instr instr :: before, after, rfl, ?_⟩
            rw [position_instr]
            omega

theorem mem_targets_of_pruneLabels {code : List Fragment} {labels : Labels}
    {name : String} {place : Nat}
    (h : (name, place) ∈ pruneLabels (instrs code) labels) :
    (name, place) ∈ labels ∧
      (place = position code → name ∈ targets code) := by
  simp only [pruneLabels, List.mem_filter, Bool.or_eq_true,
    decide_eq_true_eq, List.any_eq_true] at h
  refine ⟨h.1, fun atEnd => ?_⟩
  rcases h.2 with before | ⟨instr, member, target⟩
  · exact absurd atEnd before
  · exact mem_targets.mpr ⟨instr, mem_instrs.mp member, target⟩

end Lowering

/-! ## Methods -/

namespace Ir.Method

def LabelsInside (method : Method) : Prop :=
  ∀ name place, (name, place) ∈ method.labels → place < method.instrs.length

def JumpsInside (method : Method) : Prop :=
  ∀ instr ∈ method.instrs, ∀ name, instr.target? = some name →
    ∃ place, method.labels.lookup name = some place ∧
      place < method.instrs.length

variable {method : Method} {code : List Fragment} {ends : List String}

theorem labelsInside_of_unused (returns : EndsWithReturn code ends)
    (body : method.instrs = Lowering.instrs code)
    (labels : method.labels =
      pruneLabels (Lowering.instrs code) (placeLabels 0 code []))
    (unused : ∀ name ∈ ends, name ∉ targets code) : method.LabelsInside := by
  intro name place h
  rw [labels] at h
  obtain ⟨placed, used⟩ := mem_targets_of_pruneLabels h
  rcases mem_placeLabels placed with none | ⟨before, after, here, rfl⟩
  · simp at none
  · rw [Nat.zero_add] at used
    rw [body, Nat.zero_add]
    change position before < position code
    rcases returns.position_lt_or_mem here with inside | atEnd
    · exact inside
    · have bound : position before ≤ position code := by
        rw [here, position_append]
        omega
      exact Nat.lt_of_le_of_ne bound fun same =>
        unused name atEnd (used same)

theorem jumpsInside_of_labelsInside (holds : Holds method code)
    (body : method.instrs = Lowering.instrs code)
    (closed : targets code ⊆ labelNames code)
    (inside : method.LabelsInside) : method.JumpsInside := by
  intro instr member name target
  rw [body, mem_instrs] at member
  have labelled := closed (mem_targets.mpr ⟨instr, member, target⟩)
  obtain ⟨before, after, here⟩ :=
    List.append_of_mem (mem_labelNames.mp labelled)
  have known := holds.jump here member target
  exact ⟨position before, known, inside _ _ (Labels.mem_of_lookup known)⟩

theorem unused_of_jumpsInside (holds : Holds method code)
    (returns : EndsWithReturn code ends)
    (body : method.instrs = Lowering.instrs code)
    (inside : method.JumpsInside) : ∀ name ∈ ends, name ∉ targets code := by
  intro name atEnd used
  obtain ⟨instr, member, target⟩ := mem_targets.mp used
  obtain ⟨before, after, here, last⟩ := returns.exists_position atEnd
  obtain ⟨place, known, small⟩ :=
    inside instr (body ▸ mem_instrs.mpr member) name target
  rw [holds.jump here member target, Option.some.injEq] at known
  rw [body] at small
  change place < position code at small
  omega

end Ir.Method

namespace Tree.Method

variable {table : SymbolTable} {method : Method} {supply after : Supply}
  {lowered : Ir.Method} {last : Stmt}

/--
A method with a result whose body always returns ends with a return.  Its
labels and its jumps stay inside the code exactly if the body is sealed.
-/
theorem lower_inside_iff_sealed
    (h : method.lower table supply = .ok lowered after)
    (hasResult : method.returnTy.isVoid = false)
    (isLast : method.body.getLast? = some last) (returns : last.Returns) :
    (∃ instr, lowered.instrs.getLast? = some instr ∧
      instr.isReturn = true) ∧
      (lowered.LabelsInside ↔ last.Sealed) ∧
      (lowered.JumpsInside ↔ last.Sealed) := by
  obtain ⟨code, hcode, labels, closed⟩ := lower_eq_ok h
  have draws := Stmt.lowerAll_draws hcode
  have holds := holds_of_distinct draws.labelled.distinct labels closed
  have body : lowered.instrs = instrs code := by
    simpa [close, hasResult] using closed
  obtain ⟨ends, atEnd, _, unused⟩ :=
    Stmt.lowerAll_finishes isLast (fun _ _ _ => Stmt.finishes returns) hcode
  have jumps := Ir.Method.jumpsInside_of_labelsInside holds body draws.closed
  have fromJumps := Ir.Method.unused_of_jumpsInside holds atEnd body
  have toLabels := Ir.Method.labelsInside_of_unused atEnd body labels
  refine ⟨body ▸ atEnd.getLast?_instrs, ?_, ?_⟩
  · rw [← unused]
    exact ⟨fun inside => fromJumps (jumps inside), toLabels⟩
  · rw [← unused]
    exact ⟨fromJumps, fun unused => jumps (toLabels unused)⟩

def choosing (onTrue onFalse : Stmt) : Method where
  name := "f"
  returnTy := .int
  params := [{ name := "c", ty := .boolean }, { name := "d", ty := .boolean }]
  body := [.ifElse {} (.var ⟨.boolean, {}⟩ "c") onTrue onFalse]

def returnOne : Stmt := .ret {} (some (.int ⟨.int, {}⟩ 1))

def returnTwoOrThree : Stmt :=
  .ifElse {} (.var ⟨.boolean, {}⟩ "d")
    (.ret {} (some (.int ⟨.int, {}⟩ 2)))
    (.ret {} (some (.int ⟨.int, {}⟩ 3)))

def choosingTable : SymbolTable where
  className := "A"
  methods := [(choosing returnOne returnTwoOrThree).signature]

theorem lower_inside_choosing_first :
    ∃ lowered after,
      (choosing returnTwoOrThree returnOne).lower choosingTable {} =
        .ok lowered after ∧
      lowered.LabelsInside ∧ lowered.JumpsInside := by
  obtain ⟨lowered, after, h⟩ : ∃ lowered after,
      (choosing returnTwoOrThree returnOne).lower choosingTable {} =
        .ok lowered after := ⟨_, _, rfl⟩
  obtain ⟨_, labels, jumps⟩ := lower_inside_iff_sealed h rfl rfl
    (.ifElse (.ifElse .ret .ret) .ret)
  have isSealed : (Stmt.ifElse {} (.var ⟨.boolean, {}⟩ "c")
      returnTwoOrThree returnOne).Sealed := .ifElse (.ifElse .ret .ret) .ret
  exact ⟨lowered, after, h, labels.mpr isSealed, jumps.mpr isSealed⟩

/-- The other way round, a jump leads behind the last instruction. -/
theorem lower_jump_behind_last :
    ∃ lowered after,
      (choosing returnOne returnTwoOrThree).lower choosingTable {} =
        .ok lowered after ∧
      (choosing returnOne returnTwoOrThree).returnTy.isVoid = false ∧
      (Stmt.block {} (choosing returnOne returnTwoOrThree).body).Returns ∧
      Instr.goto "endif1" ∈ lowered.instrs ∧
      lowered.labels.lookup "endif1" = some lowered.instrs.length :=
  ⟨_, _, rfl, rfl, .block rfl (.ifElse .ret (.ifElse .ret .ret)),
    by decide, by decide⟩

end Tree.Method

end JavaMinus
