import JavaMinus.Proofs.Constants.Congruence

/-!
# Folding keeps the meaning

An operation on literals computes the word that stands for it.  Nothing else
is replaced, so that a folded method does the same from every state.
-/

namespace JavaMinus

theorem Operator.apply_of_compute? {op : Operator} {left right value : Int32}
    (h : op.compute? left right = some value) :
    op.apply left right = pure value := by
  cases op with
  | add =>
      cases h
      exact Operator.apply_add left right
  | sub =>
      cases h
      exact Operator.apply_sub left right
  | mul =>
      cases h
      exact Operator.apply_mul left right
  | div =>
      rw [Operator.compute?] at h
      split at h
      · contradiction
      next notZero =>
        cases h
        rw [Operator.apply_div, if_neg notZero]
  | lt | gt | eq | ne | and => cases h

namespace Tree

variable {setting : Setting}

/-! ## Expressions -/

theorem Expr.foldBinary_cases (attr : Attr) (op : Operator)
    (left right : Expr) :
    (∃ value, (foldBinary attr op left right).value = .int attr value) ∨
      (foldBinary attr op left right).value = .binary attr op left right := by
  rw [foldBinary]
  split
  · split
    · exact .inl ⟨_, rfl⟩
    · exact .inr rfl
  · exact .inr rfl

theorem Expr.same_foldBinary (locals : Locals) (attr : Attr) (op : Operator)
    (left right : Expr) :
    Same setting locals (.binary attr op left right)
      (foldBinary attr op left right).value := by
  rw [foldBinary]
  split
  next first second isFirst isSecond =>
    split
    next value computed =>
      refine ⟨rfl, rfl, ?_⟩
      have strict : op ≠ .and := by
        rintro rfl
        cases computed
      rw [eval_binary _ _ _ _ _ strict, eval_of_literal isFirst,
        eval_of_literal isSecond]
      simp only [Counted.value_replaced, eval, pure_bind, Effect.operate,
        Effect.word, Operator.apply_of_compute? computed]
    next => exact .refl _
  next => exact .refl _

theorem Same.trans {locals : Locals} {first second third : Expr}
    (h : Same setting locals first second)
    (h' : Same setting locals second third) :
    Same setting locals first third :=
  ⟨h'.ty.trans h.ty, h'.classOf.trans h.classOf, h'.eval.trans h.eval⟩

theorem Expr.sameAll_foldAll {locals : Locals} {exprs : List Expr}
    (h : ∀ expr ∈ exprs, Same setting locals expr expr.fold.value) :
    SameAll setting locals exprs (foldAll exprs).value := by
  induction exprs with
  | nil => exact .nil
  | cons expr rest ih =>
      exact .cons (h expr (by simp))
        (ih fun expr member => h expr (by simp [member]))

theorem Expr.same_fold (typed : setting.typeOf = Expr.ty) (locals : Locals)
    (expr : Expr) : Same setting locals expr expr.fold.value := by
  induction expr with
  | binary attr op left right ihLeft ihRight =>
      exact (Same.binary attr op ihLeft ihRight).trans
        (same_foldBinary locals attr op _ _)
  | not attr operand ih => exact .not attr ih
  | paren attr inner ih => exact .paren attr ih
  | call attr receiver method args ih ihArgs =>
      exact .call typed attr method ih (sameAll_foldAll ihArgs)
  | newArray attr size ih => exact .newArray attr ih
  | arrayLiteral attr elements ih =>
      exact .arrayLiteral attr (sameAll_foldAll ih)
  | index attr array position ihArray ihPosition =>
      exact .index attr ihArray ihPosition
  | length attr array ih => exact .length attr ih
  | int | bool | var | self | newObject => exact .refl _

/-! ## Statements -/

namespace Stmt

theorem execAssign_fold (typed : setting.typeOf = Expr.ty) {span : Span}
    {target value : Expr} (plain : (Stmt.assign span target value).Plain)
    (state : State) :
    execAssign setting target.fold.value value.fold.value state =
      execAssign setting target value state := by
  rw [execAssign_value (Expr.same_fold typed state.locals value)]
  cases target with
  | index attr array position =>
      exact execAssign_index (Expr.same_fold typed state.locals array)
        (Expr.same_fold typed state.locals position)
  | paren attr inner => simp [plain_assign, hasPlainTarget] at plain
  | binary attr op left right =>
      simp only [Expr.fold, Counted.value_bind]
      rcases Expr.foldBinary_cases attr op left.fold.value right.fold.value
        with ⟨value, folded⟩ | unchanged
      · rw [folded]
        rfl
      · rw [unchanged]
        rfl
  | _ => rfl

theorem execAll_foldAll {fuel : Nat} {stmts : List Stmt}
    (h : ∀ stmt ∈ stmts, ∀ state,
      stmt.fold.value.exec setting fuel state = stmt.exec setting fuel state)
    (state : State) :
    execAll setting fuel (foldAll stmts).value state =
      execAll setting fuel stmts state := by
  induction stmts generalizing state with
  | nil => rfl
  | cons stmt rest ih =>
      exact Action.bind_congr (h stmt (by simp) state) fun _ after _ =>
        ih (fun stmt member => h stmt (by simp [member])) after

theorem exec_fold (typed : setting.typeOf = Expr.ty) (fuel : Nat)
    {stmt : Stmt} (plain : stmt.Plain) (state : State) :
    stmt.fold.value.exec setting fuel state =
      stmt.exec setting fuel state := by
  have same (locals : Locals) (expr : Expr) :=
    Expr.same_fold typed locals expr
  induction stmt generalizing state with
  | block span body ih =>
      exact execAll_foldAll (fun stmt member =>
        ih stmt member (plain_block.mp plain stmt member)) state
  | assign span target value => exact execAssign_fold typed plain state
  | expr span value =>
      exact Exec.effect_congr (by simp only [(same _ value).eval])
  | ret span value =>
      cases value with
      | none => rfl
      | some value =>
          exact Exec.effect_congr (by simp only [(same _ value).eval])
  | ifThen span cond onTrue ih =>
      refine Action.bind_congr (same _ cond).holds fun truth after _ => ?_
      cases truth with
      | true => exact ih (plain_ifThen.mp plain) after
      | false => rfl
  | ifElse span cond onTrue onFalse ihTrue ihFalse =>
      refine Action.bind_congr (same _ cond).holds fun truth after _ => ?_
      cases truth with
      | true => exact ihTrue (plain_ifElse.mp plain).1 after
      | false => exact ihFalse (plain_ifElse.mp plain).2 after
  | loop span cond body ih =>
      have holds : cond.fold.value.holds setting = cond.holds setting :=
        funext fun state => (same _ cond).holds
      have runs : body.fold.value.exec setting fuel =
          body.exec setting fuel :=
        funext fun state => ih (plain_loop.mp plain) state
      simp only [fold, Counted.value_bind, Counted.value_pure, exec, holds,
        runs]

/-! ## Plain targets -/

theorem plainAll_foldAll {stmts : List Stmt}
    (h : ∀ stmt ∈ stmts, stmt.fold.value.Plain) :
    PlainAll (foldAll stmts).value := by
  induction stmts with
  | nil => simp [foldAll, PlainAll]
  | cons stmt rest ih =>
      exact plainAll_cons.mpr ⟨h stmt (by simp),
        ih fun stmt member => h stmt (by simp [member])⟩

theorem plain_fold {stmt : Stmt} (plain : stmt.Plain) :
    stmt.fold.value.Plain := by
  induction stmt with
  | block span body ih =>
      exact plain_block.mpr (plainAll_foldAll fun stmt member =>
        ih stmt member (plain_block.mp plain stmt member))
  | assign span target value =>
      refine plain_assign.mpr ?_
      cases target with
      | paren attr inner => simp [plain_assign, hasPlainTarget] at plain
      | binary attr op left right =>
          simp only [Expr.fold, Counted.value_bind]
          rcases Expr.foldBinary_cases attr op left.fold.value
            right.fold.value with ⟨value, folded⟩ | unchanged
          · rw [folded]
            rfl
          · rw [unchanged]
            rfl
      | _ => rfl
  | expr span value => simp [fold, Plain, preorder, hasPlainTarget]
  | ret span value =>
      cases value <;> simp [fold, Plain, preorder, hasPlainTarget]
  | ifThen span cond onTrue ih =>
      exact plain_ifThen.mpr (ih (plain_ifThen.mp plain))
  | ifElse span cond onTrue onFalse ihTrue ihFalse =>
      obtain ⟨plainTrue, plainFalse⟩ := plain_ifElse.mp plain
      exact plain_ifElse.mpr ⟨ihTrue plainTrue, ihFalse plainFalse⟩
  | loop span cond body ih =>
      exact plain_loop.mpr (ih (plain_loop.mp plain))

end Stmt

end Tree

end JavaMinus
