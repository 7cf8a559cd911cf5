import JavaMinus.Proofs.Constants.Congruence

/-!
# Propagation keeps the meaning

Along every run the recorded facts are true of the variables.  A statement
changes only the variables that it assigns, which is why a loop may use the
facts about all variables that its body does not name.
-/

namespace JavaMinus.Tree

/-! ## Facts -/

def Setting.IsVariable (setting : Setting) (name : String) : Prop :=
  ∃ symbol, setting.resolve name = .localVar symbol ∨
    setting.resolve name = .param symbol

namespace Facts

def Hold (setting : Setting) (facts : Facts) (locals : Locals) : Prop :=
  ∀ entry ∈ facts, setting.IsVariable entry.1 ∧
    locals entry.1 = some (.word entry.2)

variable {setting : Setting} {facts others : Facts} {locals : Locals}
  {name : String}

namespace Hold

theorem lookup {value : Int32} (hold : facts.Hold setting locals)
    (known : facts.lookup name = some value) :
    setting.IsVariable name ∧ locals name = some (.word value) := by
  obtain ⟨front, rest, whole, _⟩ := List.lookup_eq_some_iff.mp known
  exact hold (name, value) (by simp [whole])

theorem change {locals' : Locals} (hold : facts.Hold setting locals)
    (kept : ∀ entry ∈ facts, locals' entry.1 = locals entry.1) :
    facts.Hold setting locals' := by
  intro entry member
  obtain ⟨isVariable, known⟩ := hold entry member
  exact ⟨isVariable, (kept entry member).trans known⟩

theorem forget (hold : facts.Hold setting locals) (name : String)
    (value : Value) :
    (facts.forget name).Hold setting (locals.set name value) := by
  intro entry member
  obtain ⟨member, other⟩ := List.mem_filter.mp member
  rw [Locals.set_of_ne _ _ (by simpa using other)]
  exact hold entry member

theorem learn (hold : facts.Hold setting locals)
    (isVariable : setting.IsVariable name) (value : Int32) :
    (facts.learn name value).Hold setting (locals.set name (.word value)) := by
  intro entry member
  rcases List.mem_cons.mp member with rfl | member
  · exact ⟨isVariable, Locals.set_self _ _ _⟩
  · exact hold.forget name _ entry member

theorem filter (hold : facts.Hold setting locals)
    (test : String × Int32 → Bool) :
    Hold setting (facts.filter test) locals :=
  fun entry member => hold entry (List.mem_filter.mp member).1

theorem agreeing (hold : others.Hold setting locals) :
    (others.agreeing facts).Hold setting locals := by
  intro entry member
  obtain ⟨_, known⟩ := List.mem_filter.mp member
  exact hold.lookup (by simpa using known)

end Hold

end Facts

/-! ## Expressions -/

namespace Expr

variable {setting : Setting} {facts : Facts} {locals : Locals}

theorem same_literal {attr : Attr} {name : String} {value : Int32}
    (isVariable : setting.IsVariable name)
    (known : locals name = some (.word value)) :
    Same setting locals (.var attr name) (.int attr value) := by
  obtain ⟨symbol, origin⟩ := isVariable
  refine ⟨rfl, ?_, ?_⟩
  · rcases origin with origin | origin <;>
      simp [Setting.classOf?, skipParens, origin]
  · rcases origin with origin | origin <;>
      simp [eval, Setting.read, origin, Effect.read, known]

theorem sameAll_propagateAll {exprs : List Expr}
    (h : ∀ expr ∈ exprs,
      Same setting locals expr (expr.propagate facts).value) :
    SameAll setting locals exprs (propagateAll facts exprs).value := by
  induction exprs with
  | nil => exact .nil
  | cons expr rest ih =>
      exact .cons (h expr (by simp))
        (ih fun expr member => h expr (by simp [member]))

theorem same_propagate (typed : setting.typeOf = Expr.ty)
    (hold : facts.Hold setting locals) (expr : Expr) :
    Same setting locals expr (expr.propagate facts).value := by
  induction expr with
  | var attr name =>
      rw [propagate]
      split
      next value known =>
        obtain ⟨isVariable, isSet⟩ := hold.lookup known
        exact same_literal isVariable isSet
      next => exact .refl _
  | binary attr op left right ihLeft ihRight =>
      exact .binary attr op ihLeft ihRight
  | not attr operand ih => exact .not attr ih
  | paren attr inner ih => exact .paren attr ih
  | call attr receiver method args ih ihArgs =>
      exact .call typed attr method ih (sameAll_propagateAll ihArgs)
  | newArray attr size ih => exact .newArray attr ih
  | arrayLiteral attr elements ih =>
      exact .arrayLiteral attr (sameAll_propagateAll ih)
  | index attr array position ihArray ihPosition =>
      exact .index attr ihArray ihPosition
  | length attr array ih => exact .length attr ih
  | int | bool | self | newObject => exact .refl _

end Expr

/-! ## Loops -/

namespace Exec

variable {cond cond' : Exec Bool} {body body' : Exec Unit}

theorem loop_keeps (invariant : State → Prop) {fuel : Nat} {state after : State}
    (keepsCond : ∀ ⦃state truth after⦄, invariant state →
      cond state = .ok truth after → invariant after)
    (keepsBody : ∀ ⦃state after⦄, invariant state →
      body state = .ok () after → invariant after)
    (holds : invariant state)
    (h : loop cond body fuel state = .ok () after) : invariant after := by
  induction fuel generalizing state with
  | zero => exact absurd h Action.throw_ne_ok
  | succ fuel ih =>
      obtain ⟨truth, mid, tested, h⟩ := Action.bind_eq_ok.mp h
      have holdsMid := keepsCond holds tested
      cases truth with
      | true =>
          obtain ⟨_, next, ran, h⟩ := Action.bind_eq_ok.mp h
          exact ih (keepsBody holdsMid ran) h
      | false =>
          obtain ⟨_, rfl⟩ := Action.pure_eq_ok.mp h
          exact holdsMid

theorem loop_congr (invariant : State → Prop) {fuel : Nat} {state : State}
    (keepsCond : ∀ ⦃state truth after⦄, invariant state →
      cond state = .ok truth after → invariant after)
    (keepsBody : ∀ ⦃state after⦄, invariant state →
      body state = .ok () after → invariant after)
    (sameCond : ∀ ⦃state⦄, invariant state → cond' state = cond state)
    (sameBody : ∀ ⦃state⦄, invariant state → body' state = body state)
    (holds : invariant state) :
    loop cond' body' fuel state = loop cond body fuel state := by
  induction fuel generalizing state with
  | zero => rfl
  | succ fuel ih =>
      refine Action.bind_congr (sameCond holds) fun truth mid tested => ?_
      rw [sameCond holds] at tested
      have holdsMid := keepsCond holds tested
      cases truth with
      | true =>
          refine Action.bind_congr (sameBody holdsMid) fun _ next ran => ?_
          rw [sameBody holdsMid] at ran
          exact ih (keepsBody holdsMid ran)
      | false => rfl

end Exec

/-! ## What a statement changes -/

namespace Stmt

variable {setting : Setting} {state after : State}

theorem execAssign_var_eq_ok {attr : Attr} {name : String} {value : Expr}
    (h : execAssign setting (.var attr name) value state = .ok () after) :
    (setting.IsVariable name ∧ ∃ result mid,
      value.eval setting state.locals state.world = .ok result mid ∧
      after.locals = state.locals.set name result) ∨
    ((∃ symbol, setting.resolve name = .field symbol) ∧
      after.locals = state.locals) := by
  have onVariable (h : (do
      let value ← Exec.effect fun locals => value.eval setting locals
      Exec.setLocal name value : Exec Unit) state = .ok () after) :
      ∃ result mid,
        value.eval setting state.locals state.world = .ok result mid ∧
        after.locals = state.locals.set name result := by
    obtain ⟨result, mid, evaluated, stored⟩ := Action.bind_eq_ok.mp h
    have kept := Exec.locals_of_effect evaluated
    cases stored
    rw [Exec.effect] at evaluated
    split at evaluated
    next result' world ran =>
      cases evaluated
      exact ⟨_, world, ran, rfl⟩
    next => contradiction
  simp only [execAssign, Expr.skipParens] at h
  cases origin : setting.resolve name with
  | localVar symbol =>
      simp only [origin] at h
      exact .inl ⟨⟨symbol, .inl origin⟩, onVariable h⟩
  | param symbol =>
      simp only [origin] at h
      exact .inl ⟨⟨symbol, .inr origin⟩, onVariable h⟩
  | field symbol =>
      simp only [origin] at h
      exact .inr ⟨⟨symbol, rfl⟩, Exec.locals_of_effect h⟩
  | imported | enclosing | unknown =>
      simp only [origin] at h
      exact absurd h Action.throw_ne_ok

theorem locals_of_execAssign {span : Span} {target value : Expr}
    {name : String} (plain : (Stmt.assign span target value).Plain)
    (kept : name ∉ (Stmt.assign span target value).assigned)
    (h : execAssign setting target value state = .ok () after) :
    after.locals name = state.locals name := by
  cases target with
  | var attr other =>
      have apart : name ≠ other := by simpa [assigned] using kept
      rcases execAssign_var_eq_ok h with
        ⟨_, result, _, _, changed⟩ | ⟨_, unchanged⟩
      · rw [changed, Locals.set_of_ne _ _ apart]
      · rw [unchanged]
  | index attr array position =>
      simp only [execAssign, Expr.skipParens] at h
      rw [Exec.locals_of_effect h]
  | paren attr inner => simp [plain_assign, hasPlainTarget] at plain
  | _ => exact absurd h Action.throw_ne_ok

theorem mem_assignedAll {name : String} {stmts : List Stmt} :
    name ∈ assignedAll stmts ↔ ∃ stmt ∈ stmts, name ∈ stmt.assigned := by
  induction stmts with
  | nil => simp [assignedAll]
  | cons stmt rest ih => simp [assignedAll, ih]

theorem locals_of_execAll {fuel : Nat} {stmts : List Stmt} {name : String}
    (kept : ∀ stmt ∈ stmts, ∀ ⦃state after⦄,
      stmt.exec setting fuel state = .ok () after →
      after.locals name = state.locals name)
    (h : execAll setting fuel stmts state = .ok () after) :
    after.locals name = state.locals name := by
  induction stmts generalizing state with
  | nil =>
      obtain ⟨_, rfl⟩ := Action.pure_eq_ok.mp h
      rfl
  | cons stmt rest ih =>
      obtain ⟨_, mid, ran, h⟩ := Action.bind_eq_ok.mp h
      rw [ih (fun stmt member => kept stmt (by simp [member])) h,
        kept stmt (by simp) ran]

theorem locals_of_exec {fuel : Nat} {stmt : Stmt} {name : String}
    (plain : stmt.Plain) (kept : name ∉ stmt.assigned)
    (h : stmt.exec setting fuel state = .ok () after) :
    after.locals name = state.locals name := by
  induction stmt generalizing state after with
  | block span body ih =>
      simp only [assigned, mem_assignedAll, not_exists, not_and] at kept
      exact locals_of_execAll (fun stmt member _ _ ran => ih stmt member
        (plain_block.mp plain stmt member) (kept stmt member) ran) h
  | assign span target value => exact locals_of_execAssign plain kept h
  | expr span value => rw [Exec.locals_of_effect h]
  | ret span value =>
      cases value with
      | none => exact absurd h Action.throw_ne_ok
      | some value => rw [Exec.locals_of_effect h]
  | ifThen span cond onTrue ih =>
      obtain ⟨truth, mid, tested, h⟩ := Action.bind_eq_ok.mp h
      rw [← Exec.locals_of_effect tested]
      cases truth with
      | true => exact ih (plain_ifThen.mp plain) kept h
      | false =>
          obtain ⟨_, rfl⟩ := Action.pure_eq_ok.mp h
          rfl
  | ifElse span cond onTrue onFalse ihTrue ihFalse =>
      obtain ⟨truth, mid, tested, h⟩ := Action.bind_eq_ok.mp h
      obtain ⟨plainTrue, plainFalse⟩ := plain_ifElse.mp plain
      simp only [assigned, List.mem_append, not_or] at kept
      rw [← Exec.locals_of_effect tested]
      cases truth with
      | true => exact ihTrue plainTrue kept.1 h
      | false => exact ihFalse plainFalse kept.2 h
  | loop span cond body ih =>
      refine Exec.loop_keeps
        (fun other => other.locals name = state.locals name) ?_ ?_ rfl h
      · intro state truth after holds tested
        rw [Exec.locals_of_effect tested, holds]
      · intro state after holds ran
        rw [ih (plain_loop.mp plain) kept ran, holds]

theorem mem_namesAll {name : String} {stmts : List Stmt} :
    name ∈ namesAll stmts ↔ ∃ stmt ∈ stmts, name ∈ stmt.names := by
  induction stmts with
  | nil => simp [namesAll]
  | cons stmt rest ih => simp [namesAll, ih]

theorem mem_names_of_assigned {name : String} {stmt : Stmt}
    (h : name ∈ stmt.assigned) : name ∈ stmt.names := by
  induction stmt with
  | block span body ih =>
      obtain ⟨stmt, member, inside⟩ := mem_assignedAll.mp h
      exact mem_namesAll.mpr ⟨stmt, member, ih stmt member inside⟩
  | assign span target value =>
      cases target with
      | var attr other => simp_all [assigned, names, Expr.names]
      | _ => simp [assigned] at h
  | expr | ret => simp [assigned] at h
  | ifThen span cond onTrue ih => simp [names, ih h]
  | ifElse span cond onTrue onFalse ihTrue ihFalse =>
      rcases List.mem_append.mp h with h | h
      · simp [names, ihTrue h]
      · simp [names, ihFalse h]
  | loop span cond body ih => simp [names, ih h]

end Stmt

/-! ## Statements -/

/--
From every state that the facts fit, the second action does what the first one
does, and behind it the later facts fit.
-/
def Carries (setting : Setting) (facts : Facts) (action action' : Exec Unit)
    (later : Facts) : Prop :=
  ∀ ⦃state⦄, facts.Hold setting state.locals → action' state = action state ∧
    ∀ after, action state = .ok () after → later.Hold setting after.locals

namespace Carries

variable {setting : Setting} {facts later last : Facts}

theorem nothing : Carries setting facts (pure ()) (pure ()) facts := by
  intro state hold
  refine ⟨rfl, fun after h => ?_⟩
  obtain ⟨_, rfl⟩ := Action.pure_eq_ok.mp h
  exact hold

theorem weaken {action action' : Exec Unit}
    (h : Carries setting facts action action' later)
    (drops : ∀ ⦃locals⦄, later.Hold setting locals →
      last.Hold setting locals) :
    Carries setting facts action action' last :=
  fun _ hold => ⟨(h hold).1, fun after ran => drops ((h hold).2 after ran)⟩

theorem andThen {first first' second second' : Exec Unit}
    (h : Carries setting facts first first' later)
    (h' : Carries setting later second second' last) :
    Carries setting facts (do first; second) (do first'; second') last := by
  intro state hold
  obtain ⟨same, holds⟩ := h hold
  constructor
  · refine Action.bind_congr same fun _ mid ran => ?_
    rw [same] at ran
    exact (h' (holds mid ran)).1
  · intro after ran
    obtain ⟨_, mid, ranFirst, ranSecond⟩ := Action.bind_eq_ok.mp ran
    exact (h' (holds mid ranFirst)).2 after ranSecond

theorem effect {action action' : Locals → Effect Unit}
    (same : ∀ ⦃locals⦄, facts.Hold setting locals →
      action' locals = action locals) :
    Carries setting facts (Exec.effect action) (Exec.effect action')
      facts := by
  intro state hold
  refine ⟨Exec.effect_congr (same hold), fun after h => ?_⟩
  rw [Exec.locals_of_effect h]
  exact hold

theorem branch (typed : setting.typeOf = Expr.ty) {cond : Expr}
    {onTrue onTrue' onFalse onFalse' : Exec Unit}
    (carriesTrue : Carries setting facts onTrue onTrue' later)
    (carriesFalse : Carries setting facts onFalse onFalse' later) :
    Carries setting facts
      (do if ← cond.holds setting then onTrue else onFalse)
      (do if ← (cond.propagate facts).value.holds setting then onTrue'
          else onFalse')
      later := by
  intro state hold
  have sameCond := (Expr.same_propagate typed hold cond).holds
  have holdMid {truth : Bool} {mid : State}
      (tested : cond.holds setting state = .ok truth mid) :
      facts.Hold setting mid.locals := by
    rw [Exec.locals_of_effect tested]
    exact hold
  constructor
  · refine Action.bind_congr sameCond fun truth mid tested => ?_
    rw [sameCond] at tested
    cases truth with
    | true => exact (carriesTrue (holdMid tested)).1
    | false => exact (carriesFalse (holdMid tested)).1
  · intro after h
    obtain ⟨truth, mid, tested, h⟩ := Action.bind_eq_ok.mp h
    cases truth with
    | true => exact (carriesTrue (holdMid tested)).2 after h
    | false => exact (carriesFalse (holdMid tested)).2 after h

theorem assign (typed : setting.typeOf = Expr.ty) {tracked : List String}
    (declared : ∀ name ∈ tracked, ∀ symbol,
      setting.resolve name ≠ .field symbol) {attr : Attr} {name : String}
    {value : Expr} :
    Carries setting facts (Stmt.execAssign setting (.var attr name) value)
      (Stmt.execAssign setting (.var attr name)
        (value.propagate facts).value)
      (facts.assign tracked name (value.propagate facts).value) := by
  intro state hold
  have same := Expr.same_propagate typed hold value
  refine ⟨Stmt.execAssign_value same, fun after h => ?_⟩
  rw [Facts.assign]
  rcases Stmt.execAssign_var_eq_ok h with
    ⟨isVariable, result, mid, evaluated, changed⟩ |
    ⟨⟨symbol, isField⟩, unchanged⟩
  · rw [changed]
    split
    next literal isLiteral =>
      rw [← same.eval, Expr.eval_of_literal isLiteral] at evaluated
      cases evaluated
      split
      · exact hold.learn isVariable literal
      · exact hold.forget name _
    next => exact hold.forget name _
  · rw [unchanged]
    split
    next literal isLiteral =>
      split
      next isTracked =>
        exact absurd isField
          (declared name (by simpa using isTracked) symbol)
      next => exact hold.filter _
    next => exact hold.filter _

end Carries

namespace Stmt

variable {setting : Setting} {tracked : List String} {facts : Facts}
  {fuel : Nat}

theorem carries_loop (typed : setting.typeOf = Expr.ty)
    {cond : Expr} {body : Stmt} {body' : Exec Unit} {later : Facts}
    (plain : body.Plain)
    (carries : Carries setting (facts.without body.names)
      (body.exec setting fuel) body' later) :
    Carries setting facts
      (Exec.loop (cond.holds setting) (body.exec setting fuel) fuel)
      (Exec.loop ((cond.propagate (facts.without body.names)).value.holds
        setting) body' fuel)
      (facts.without body.assigned) := by
  intro state hold
  -- The facts in use are about no variable that the body assigns.
  have keepsBody {kept : Facts} (apart : ∀ entry ∈ kept,
      entry.1 ∉ body.assigned) ⦃state after : State⦄
      (hold : kept.Hold setting state.locals)
      (ran : body.exec setting fuel state = .ok () after) :
      kept.Hold setting after.locals :=
    hold.change fun entry member =>
      locals_of_exec plain (apart entry member) ran
  have keepsCond {kept : Facts} ⦃state : State⦄ ⦃truth : Bool⦄ ⦃after : State⦄
      (hold : kept.Hold setting state.locals)
      (tested : cond.holds setting state = .ok truth after) :
      kept.Hold setting after.locals := by
    rw [Exec.locals_of_effect tested]
    exact hold
  have unnamed : ∀ entry ∈ facts.without body.names,
      entry.1 ∉ body.assigned := by
    intro entry member assigns
    have := (List.mem_filter.mp member).2
    simp [mem_names_of_assigned assigns] at this
  have unassigned : ∀ entry ∈ facts.without body.assigned,
      entry.1 ∉ body.assigned := by
    intro entry member
    simpa using (List.mem_filter.mp member).2
  constructor
  · exact Exec.loop_congr
      (fun state => (facts.without body.names).Hold setting state.locals)
      keepsCond (keepsBody unnamed)
      (fun state hold => (Expr.same_propagate typed hold cond).holds)
      (fun state hold => (carries hold).1) (hold.filter _)
  · intro after h
    exact Exec.loop_keeps
      (fun state => (facts.without body.assigned).Hold setting state.locals)
      keepsCond (keepsBody unassigned) (hold.filter _) h

theorem carries_propagateAll {stmts : List Stmt}
    (h : ∀ stmt ∈ stmts, ∀ facts, Carries setting facts
      (stmt.exec setting fuel)
      ((stmt.propagate tracked facts).value.1.exec setting fuel)
      (stmt.propagate tracked facts).value.2) (facts : Facts) :
    Carries setting facts (execAll setting fuel stmts)
      (execAll setting fuel (propagateAll tracked stmts facts).value.1)
      (propagateAll tracked stmts facts).value.2 := by
  induction stmts generalizing facts with
  | nil => exact .nothing
  | cons stmt rest ih =>
      exact (h stmt (by simp) facts).andThen
        (ih (fun stmt member => h stmt (by simp [member])) _)

theorem carries_propagate (typed : setting.typeOf = Expr.ty)
    (declared : ∀ name ∈ tracked, ∀ symbol,
      setting.resolve name ≠ .field symbol)
    {stmt : Stmt} (plain : stmt.Plain) (facts : Facts) :
    Carries setting facts (stmt.exec setting fuel)
      ((stmt.propagate tracked facts).value.1.exec setting fuel)
      (stmt.propagate tracked facts).value.2 := by
  induction stmt generalizing facts with
  | block span body ih =>
      exact carries_propagateAll (fun stmt member facts =>
        ih stmt member (plain_block.mp plain stmt member) facts) facts
  | assign span target value =>
      cases target with
      | var attr name => exact .assign typed declared
      | index attr array position =>
          simp only [exec, propagate, Expr.propagateTarget,
            Counted.value_bind, Counted.value_pure, execAssign,
            Expr.skipParens]
          refine Carries.effect fun locals hold => ?_
          simp only [(Expr.same_propagate typed hold _).eval]
      | paren attr inner => simp [plain_assign, hasPlainTarget] at plain
      | _ => exact fun _ _ =>
          ⟨rfl, fun after h => absurd h Action.throw_ne_ok⟩
  | expr span value =>
      refine Carries.effect fun locals hold => ?_
      simp only [(Expr.same_propagate typed hold value).eval]
  | ret span value =>
      cases value with
      | none => exact fun _ _ =>
          ⟨rfl, fun after h => absurd h Action.throw_ne_ok⟩
      | some value =>
          refine Carries.effect fun locals hold => ?_
          simp only [(Expr.same_propagate typed hold value).eval]
  | ifThen span cond onTrue ih =>
      exact .branch typed
        ((ih (plain_ifThen.mp plain) facts).weaken fun _ hold =>
          hold.filter _)
        (Carries.nothing.weaken fun _ hold => hold.agreeing)
  | ifElse span cond onTrue onFalse ihTrue ihFalse =>
      obtain ⟨plainTrue, plainFalse⟩ := plain_ifElse.mp plain
      exact .branch typed
        ((ihTrue plainTrue facts).weaken fun _ hold => hold.filter _)
        ((ihFalse plainFalse facts).weaken fun _ hold => hold.agreeing)
  | loop span cond body ih =>
      exact carries_loop typed (plain_loop.mp plain)
        (ih (plain_loop.mp plain) _)

/-! ## Plain targets -/

theorem plainAll_propagateAll {stmts : List Stmt}
    (h : ∀ stmt ∈ stmts, ∀ facts,
      (stmt.propagate tracked facts).value.1.Plain) (facts : Facts) :
    PlainAll (propagateAll tracked stmts facts).value.1 := by
  induction stmts generalizing facts with
  | nil => simp [propagateAll, PlainAll]
  | cons stmt rest ih =>
      exact plainAll_cons.mpr ⟨h stmt (by simp) facts,
        ih (fun stmt member => h stmt (by simp [member])) _⟩

theorem plain_propagate {stmt : Stmt} (plain : stmt.Plain) (facts : Facts) :
    (stmt.propagate tracked facts).value.1.Plain := by
  induction stmt generalizing facts with
  | block span body ih =>
      exact plain_block.mpr (plainAll_propagateAll (fun stmt member facts =>
        ih stmt member (plain_block.mp plain stmt member) facts) facts)
  | assign span target value =>
      refine plain_assign.mpr ?_
      cases target with
      | paren attr inner => simp [plain_assign, hasPlainTarget] at plain
      | _ => rfl
  | expr span value => simp [propagate, Plain, preorder, hasPlainTarget]
  | ret span value =>
      cases value <;> simp [propagate, Plain, preorder, hasPlainTarget]
  | ifThen span cond onTrue ih =>
      exact plain_ifThen.mpr (ih (plain_ifThen.mp plain) facts)
  | ifElse span cond onTrue onFalse ihTrue ihFalse =>
      obtain ⟨plainTrue, plainFalse⟩ := plain_ifElse.mp plain
      exact plain_ifElse.mpr ⟨ihTrue plainTrue facts, ihFalse plainFalse facts⟩
  | loop span cond body ih =>
      exact plain_loop.mpr (ih (plain_loop.mp plain) _)

end Stmt

end JavaMinus.Tree
