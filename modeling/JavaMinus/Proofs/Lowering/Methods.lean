import JavaMinus.Proofs.Lowering.Statements

/-!
# Lowered methods

The code of a method ends as its body does.  A body that completes gets behind
the last instruction; where no return was added there, no instruction leads to
that place, so that this never happens.
-/

namespace JavaMinus

open Ir (Instr Fragment Labels)
open Lowering

/-! ## Closed code -/

namespace Lowering

/-- A return is added, or no label stands behind the last instruction. -/
theorem close_of_isVoid {returnTy : Ty} (code : List Instr) (labels : Labels)
    (isVoid : returnTy.isVoid = true) :
    close returnTy code labels = code ++ [.ret .void none] ∨
      close returnTy code labels = code ∧
        (∃ instr, code.getLast? = some instr ∧ instr.isReturn = true) ∧
        ∀ entry ∈ labels, entry.2 ≠ code.length := by
  cases last : code.getLast? with
  | none =>
      left
      simp [close, isVoid, last]
  | some instr =>
      by_cases open_ : instr.isReturn = true ∧
          ∀ entry ∈ labels, entry.2 ≠ code.length
      · obtain ⟨isReturn, unlabelled⟩ := open_
        refine .inr ⟨?_, ⟨instr, rfl, isReturn⟩, unlabelled⟩
        simpa [close, isVoid, last, isReturn] using
          fun name member => unlabelled (name, code.length) member rfl
      · left
        rw [close]
        simp only [isVoid, last, Bool.true_and]
        rw [if_pos]
        simp only [Bool.or_eq_true, Bool.not_eq_true', List.any_eq_true,
          decide_eq_true_eq]
        simp only [not_and_or, Bool.not_eq_true, not_forall] at open_
        rcases open_ with continues | ⟨entry, member, here⟩
        · exact .inl continues
        · exact .inr ⟨entry, member, not_not.mp here⟩

theorem close_cases {returnTy : Ty} (code : List Instr) (labels : Labels)
    (isVoid : returnTy.isVoid = true) :
    close returnTy code labels = code ++ [.ret .void none] ∨
      close returnTy code labels = code ∧
        (∃ instr, code.getLast? = some instr ∧ instr.isReturn = true) ∧
        ∀ name, labels.lookup name ≠ some code.length := by
  refine (close_of_isVoid code labels isVoid).imp_right ?_
  rintro ⟨same, returns, unlabelled⟩
  exact ⟨same, returns, fun name known =>
    unlabelled _ (Ir.Labels.mem_of_lookup known) rfl⟩

end Lowering

namespace Ir

theorem Method.step_eq_next {setting : Setting} {method : Method}
    {state after : State} (h : method.step setting state = .next after) :
    (after.pc = state.pc + 1 ∧
      ∃ instr, method.instrs[state.pc]? = some instr ∧
        instr.isReturn = false) ∨
      ∃ name, method.labels.lookup name = some after.pc := by
  rw [step] at h
  cases fetch : method.instrs[state.pc]? with
  | none =>
      rw [fetch] at h
      dsimp only at h
      split at h <;> cases h
  | some instr =>
      rw [fetch] at h
      dsimp only at h
      split at h
      next control world ran =>
        cases control with
        | next vars =>
            cases h
            refine .inl ⟨rfl, instr, rfl, ?_⟩
            cases instr with
            | ret ty operand =>
                cases operand with
                | none => cases ran
                | some operand =>
                    obtain ⟨value, mid, _, returned⟩ :=
                      Action.bind_eq_ok.mp ran
                    cases returned
            | _ => rfl
        | jump name =>
            simp only [State.follow] at h
            split at h
            next place known =>
              cases h
              exact .inr ⟨name, known⟩
            next => cases h
        | ret value => cases h
      next => cases h

theorem Method.not_reaches_end {setting : Setting} {method : Method}
    {start reached : State} (atStart : start.pc = 0)
    (returns : ∃ instr, method.instrs.getLast? = some instr ∧
      instr.isReturn = true)
    (unlabelled : ∀ name,
      method.labels.lookup name ≠ some method.instrs.length)
    (reaches : Reaches (method.step setting) start reached) :
    reached.pc ≠ method.instrs.length := by
  intro atEnd
  obtain ⟨last, isLast, isReturn⟩ := returns
  have nonempty : method.instrs.length ≠ 0 := by
    intro empty
    simp [List.length_eq_zero_iff.mp empty] at isLast
  rcases Relation.ReflTransGen.cases_tail reaches with
    rfl | ⟨before, _, stepped⟩
  · exact nonempty (atEnd.symm.trans atStart)
  · rcases Method.step_eq_next stepped with
      ⟨next, instr, fetch, continues⟩ | ⟨name, known⟩
    · have here : before.pc = method.instrs.length - 1 := by omega
      rw [List.getLast?_eq_getElem?, ← here, fetch] at isLast
      cases isLast
      simp [isReturn] at continues
    · exact unlabelled name (atEnd ▸ known)

end Ir

/-! ## Methods -/

theorem Scope.declared_of_isVariable {scope : Scope} {name : String}
    (h : scope.IsVariable name) :
    (∃ symbol ∈ scope.table.locals scope.method, symbol.name = name) ∨
      ∃ symbol ∈ scope.table.params scope.method, symbol.name = name := by
  obtain ⟨symbol, origin⟩ := h
  have found {symbols : List Symbol} {symbol : Symbol}
      (h : symbols.find? (·.name = name) = some symbol) :
      ∃ symbol ∈ symbols, symbol.name = name :=
    ⟨symbol, List.mem_of_find?_eq_some h,
      by simpa using List.find?_some h⟩
  rw [resolve] at origin
  split at origin
  · simp at origin
  · split at origin
    next known => exact .inl (found known)
    next =>
      split at origin
      next known => exact .inr (found known)
      next =>
        split at origin
        · simp at origin
        · split at origin
          · simp at origin
          · split at origin <;> simp at origin

namespace Tree.Method

variable {table : SymbolTable} {method : Method} {supply after : Supply}
  {lowered : Ir.Method}

def reservedNames (table : SymbolTable) (method : Method) : List String :=
  ((match table.method? method.name with
    | some signature => signature.params
    | none => method.params.map Variable.symbol).map Symbol.name) ++
    (table.locals method.name).map Symbol.name ++
    method.locals.map Variable.name

theorem lower_eq_ok (h : method.lower table supply = .ok lowered after) :
    ∃ code,
      Stmt.lowerAll { table, method := method.name } method.body
        (supply.reserve (reservedNames table method)) = .ok code after ∧
      lowered.labels = pruneLabels (instrs code) (placeLabels 0 code []) ∧
      lowered.instrs =
        close method.returnTy (instrs code) lowered.labels := by
  obtain ⟨_, reserved, hreserve, h⟩ := Action.bind_eq_ok.mp h
  obtain ⟨code, mid, hcode, h⟩ := Action.bind_eq_ok.mp h
  obtain ⟨rfl, rfl⟩ := Action.pure_eq_ok.mp h
  cases hreserve
  exact ⟨code, hcode, rfl, rfl⟩

structure Declares (method : Method) (lowered : Ir.Method) : Prop where
  returnTy : lowered.returnTy = method.returnTy
  registers : lowered.registers =
    .ofMethod lowered.isStatic (lowered.params.map Symbol.name)

theorem lower_fields (h : method.lower table supply = .ok lowered after) :
    method.Declares lowered := by
  obtain ⟨_, reserved, hreserve, h⟩ := Action.bind_eq_ok.mp h
  obtain ⟨code, mid, hcode, h⟩ := Action.bind_eq_ok.mp h
  obtain ⟨rfl, rfl⟩ := Action.pure_eq_ok.mp h
  exact ⟨rfl, rfl⟩

theorem reserved_of_variable (supply : Supply) :
    ({ table, method := method.name } : Scope).Reserved
      (supply.reserve (reservedNames table method)) := by
  intro name isVariable
  simp only [Supply.reserve, reservedNames, List.mem_append, List.mem_map]
  rcases Scope.declared_of_isVariable isVariable with
    ⟨symbol, member, rfl⟩ | ⟨symbol, member, rfl⟩
  · exact .inl (.inr ⟨symbol, member, rfl⟩)
  · rw [SymbolTable.params] at member
    cases known : table.method? method.name with
    | none => simp [known] at member
    | some signature =>
        rw [known] at member
        exact .inl (.inl ⟨symbol, member, rfl⟩)

/--
Lowering preserves meaning: whenever the body of a method ends with an
outcome, so does the lowered method, with all that was done on the way.
-/
theorem lower_ends (h : method.lower table supply = .ok lowered after)
    (self : Value) (oracle : Oracle) {start final : State} {exit : Exit}
    (ends : method.Ends
      (({ table, method := method.name } : Scope).setting self oracle)
      start exit final)
    (outcome : exit.IsOutcome) :
    ∃ last, JavaMinus.Ends (lowered.step (.named self oracle))
        { pc := 0, vars := start.locals, world := start.world } exit last ∧
      last.world = final.world := by
  obtain ⟨code, hcode, labels, closed⟩ := lower_eq_ok h
  have holds : Holds lowered code :=
    holds_of_distinct (Stmt.lowerAll_draws hcode).labelled.distinct labels
      closed
  have placed : Placed lowered 0 code := ⟨[], [], by simpa using holds, rfl⟩
  let run : Activation :=
    { scope := { table, method := method.name }, method := lowered, self
      oracle }
  let begin_ : Ir.State :=
    { pc := 0, vars := start.locals, world := start.world }
  obtain ⟨_, fuel, ran⟩ := ends
  have runs : Runs run.code lowered begin_
      (Stmt.execAll run.tree fuel method.body start)
      fun _ state => run.Past (0 + position code) state :=
    Activation.body_performs (reserved_of_variable supply) hcode placed
      (fun _ _ => rfl) rfl
  change (Stmt.execAll run.tree fuel method.body >>= fun _ =>
    throw _) start = _ at ran
  cases body : Stmt.execAll run.tree fuel method.body start with
  | error exit' final' =>
      rw [Action.bind_of_error body] at ran
      cases ran
      rw [body] at runs
      obtain ⟨last, ends, sees, _⟩ := runs outcome
      exact ⟨last, ends, sees⟩
  | ok _ final' =>
      rw [Action.bind_of_ok body] at ran
      cases ran
      rw [body] at runs
      obtain ⟨reached, reaches, sees, past⟩ := runs
      have isVoid : method.returnTy.isVoid = true := by
        by_contra notVoid
        simp [notVoid, Exit.IsOutcome] at outcome
      have atEnd : reached.pc = (instrs code).length := by
        simpa [position] using past.1
      rw [if_pos isVoid]
      rcases close_cases (instrs code) lowered.labels isVoid with
        added | ⟨unchanged, returns, unlabelled⟩
      · have fetch : lowered.instrs[reached.pc]? =
            some (.ret .void none) := by
          simp [closed, added, atEnd]
        exact ⟨_, ⟨reached, reaches, Ir.Method.step_of_ok fetch rfl⟩, sees⟩
      · rw [← closed] at unchanged
        rw [← unchanged] at returns unlabelled atEnd
        exact absurd atEnd
          (Ir.Method.not_reaches_end rfl returns unlabelled reaches)

def countToTwo : Method where
  name := "count"
  returnTy := .int
  params := [{ name := "n", ty := .int }]
  body := [
    .loop {}
      (.binary ⟨.boolean, {}⟩ .and
        (.binary ⟨.boolean, {}⟩ .lt (.var ⟨.int, {}⟩ "n")
          (.int ⟨.int, {}⟩ 2))
        (.bool ⟨.boolean, {}⟩ true))
      (.assign {} (.var ⟨.int, {}⟩ "n")
        (.binary ⟨.int, {}⟩ .add (.var ⟨.int, {}⟩ "n")
          (.int ⟨.int, {}⟩ 1))),
    .ret {} (some (.var ⟨.int, {}⟩ "n"))]

theorem lower_ends_countToTwo :
    ∃ lowered after last,
      countToTwo.lower
        { className := "Counter", methods := [countToTwo.signature] } {} =
          .ok lowered after ∧
      JavaMinus.Ends
        (lowered.step (.named .null fun _ _ world => (.ok .null, world.1)))
        { pc := 0, vars := fun _ => some (.word 0)
          world := ⟨⟨fun _ _ => .null, []⟩, []⟩ }
        (.returned (some (.word 2))) last := by
  obtain ⟨lowered, after, h⟩ : ∃ lowered after,
      countToTwo.lower
        { className := "Counter", methods := [countToTwo.signature] } {} =
          .ok lowered after := ⟨_, _, rfl⟩
  obtain ⟨final, ran⟩ : ∃ final : State,
      countToTwo.run
        (({ table := { className := "Counter"
                       methods := [countToTwo.signature] }
            method := "count" } : Scope).setting .null
          fun _ _ world => (.ok .null, world.1)) 3
        ⟨fun _ => some (.word 0), ⟨⟨fun _ _ => .null, []⟩, []⟩⟩ =
          .error (.returned (some (.word 2))) final := ⟨_, rfl⟩
  obtain ⟨last, ends, _⟩ := lower_ends h .null
    (fun _ _ world => (.ok .null, world.1)) ⟨by decide, 3, ran⟩ trivial
  exact ⟨lowered, after, last, h, ends⟩

end Tree.Method

end JavaMinus
