import JavaMinus.Constants.Rounds
import JavaMinus.Proofs.Semantics.Tree

/-!
# Expressions that stand for each other

Both passes over a tree replace expressions by others of the same value.  What
they share is stated here: the replaced parts of an expression or of a
statement may be exchanged without anyone noticing.
-/

namespace JavaMinus

namespace Counted

variable {α β : Type}

@[simp] theorem value_pure (value : α) :
    (pure value : Counted α).value = value := rfl

@[simp] theorem value_bind (first : Counted α) (next : α → Counted β) :
    (first >>= next).value = (next first.value).value := rfl

@[simp] theorem value_replaced (value : α) : (replaced value).value = value :=
  rfl

end Counted

namespace Tree

/-! ## Expressions -/

structure Same (setting : Setting) (locals : Locals) (expr expr' : Expr) :
    Prop where
  ty : expr'.ty = expr.ty
  classOf : setting.classOf? expr' = setting.classOf? expr
  eval : expr'.eval setting locals = expr.eval setting locals

structure SameAll (setting : Setting) (locals : Locals)
    (exprs exprs' : List Expr) : Prop where
  ty : exprs'.map Expr.ty = exprs.map Expr.ty
  eval : Expr.evalAll setting locals exprs' =
    Expr.evalAll setting locals exprs

section Congruence

variable {setting : Setting} {locals : Locals}
  {first first' second second' : Expr} {exprs exprs' : List Expr}

namespace Same

theorem refl (expr : Expr) : Same setting locals expr expr :=
  ⟨rfl, rfl, rfl⟩

theorem binary (attr : Attr) (op : Operator)
    (left : Same setting locals first first')
    (right : Same setting locals second second') :
    Same setting locals (.binary attr op first second)
      (.binary attr op first' second') where
  ty := rfl
  classOf := rfl
  eval := by
    by_cases strict : op = .and
    · subst strict
      simp only [Expr.eval, left.eval, right.eval]
    · rw [Expr.eval_binary _ _ _ _ _ strict, Expr.eval_binary _ _ _ _ _ strict,
        left.eval, right.eval]

theorem not (attr : Attr) (operand : Same setting locals first first') :
    Same setting locals (.not attr first) (.not attr first') :=
  ⟨rfl, rfl, by simp only [Expr.eval, operand.eval]⟩

theorem paren (attr : Attr) (inner : Same setting locals first first') :
    Same setting locals (.paren attr first) (.paren attr first') where
  ty := rfl
  classOf := inner.classOf
  eval := by simp only [Expr.eval, inner.eval]

theorem call (typed : setting.typeOf = Expr.ty) (attr : Attr)
    (method : String) (receiver : Same setting locals first first')
    (args : SameAll setting locals exprs exprs') :
    Same setting locals (.call attr first method exprs)
      (.call attr first' method exprs') where
  ty := rfl
  classOf := rfl
  eval := by
    simp only [Expr.eval, Setting.callee?, typed, receiver.classOf,
      receiver.ty, receiver.eval, args.ty, args.eval]

theorem newArray (attr : Attr) (size : Same setting locals first first') :
    Same setting locals (.newArray attr first) (.newArray attr first') :=
  ⟨rfl, rfl, by simp only [Expr.eval, size.eval]⟩

theorem arrayLiteral (attr : Attr)
    (elements : SameAll setting locals exprs exprs') :
    Same setting locals (.arrayLiteral attr exprs)
      (.arrayLiteral attr exprs') :=
  ⟨rfl, rfl, by simp only [Expr.eval, elements.eval]⟩

theorem index (attr : Attr) (array : Same setting locals first first')
    (position : Same setting locals second second') :
    Same setting locals (.index attr first second)
      (.index attr first' second') :=
  ⟨rfl, rfl, by simp only [Expr.eval, array.eval, position.eval]⟩

theorem length (attr : Attr) (array : Same setting locals first first') :
    Same setting locals (.length attr first) (.length attr first') :=
  ⟨rfl, rfl, by simp only [Expr.eval, array.eval]⟩

end Same

namespace SameAll

theorem nil : SameAll setting locals [] [] := ⟨rfl, rfl⟩

theorem cons (head : Same setting locals first first')
    (rest : SameAll setting locals exprs exprs') :
    SameAll setting locals (first :: exprs) (first' :: exprs') where
  ty := by simp only [List.map_cons, head.ty, rest.ty]
  eval := by simp only [Expr.evalAll, head.eval, rest.eval]

end SameAll

end Congruence

/-! ## Statements -/

def Stmt.hasPlainTarget : Stmt → Bool
  | .assign _ (.paren _ _) _ => false
  | _ => true

/-- No assignment in the statement has parentheses around its target. -/
def Stmt.Plain (stmt : Stmt) : Prop :=
  ∀ part ∈ stmt.preorder, part.hasPlainTarget = true

def Stmt.PlainAll (stmts : List Stmt) : Prop :=
  ∀ stmt ∈ stmts, stmt.Plain

namespace Stmt

theorem mem_preorderAll {part : Stmt} {stmts : List Stmt} :
    part ∈ preorderAll stmts ↔ ∃ stmt ∈ stmts, part ∈ stmt.preorder := by
  induction stmts with
  | nil => simp [preorderAll]
  | cons stmt rest ih => simp [preorderAll, ih]

variable {span : Span} {cond target value : Expr} {onTrue onFalse : Stmt}
  {body : List Stmt}

theorem plain_block : (Stmt.block span body).Plain ↔ PlainAll body := by
  simp only [Plain, PlainAll, preorder, List.mem_cons, mem_preorderAll]
  constructor
  · intro h stmt member part inside
    exact h part (.inr ⟨stmt, member, inside⟩)
  · rintro h part (rfl | ⟨stmt, member, inside⟩)
    · rfl
    · exact h stmt member part inside

theorem plain_ifThen :
    (Stmt.ifThen span cond onTrue).Plain ↔ onTrue.Plain := by
  simp [Plain, preorder, hasPlainTarget]

theorem plain_ifElse :
    (Stmt.ifElse span cond onTrue onFalse).Plain ↔
      onTrue.Plain ∧ onFalse.Plain := by
  simp [Plain, preorder, hasPlainTarget, or_imp, forall_and]

theorem plain_loop : (Stmt.loop span cond onTrue).Plain ↔ onTrue.Plain := by
  simp [Plain, preorder, hasPlainTarget]

theorem plain_assign :
    (Stmt.assign span target value).Plain ↔
      (Stmt.assign span target value).hasPlainTarget = true := by
  simp [Plain, preorder]

theorem plainAll_cons {stmt : Stmt} :
    PlainAll (stmt :: body) ↔ stmt.Plain ∧ PlainAll body := by
  simp [PlainAll]

end Stmt

/-! ## Execution -/

section Execution

variable {α : Type} {setting : Setting} {state after : State}

theorem Exec.effect_congr {action action' : Locals → Effect α}
    (h : action' state.locals = action state.locals) :
    Exec.effect action' state = Exec.effect action state := by
  simp only [Exec.effect, h]

theorem Exec.locals_of_effect {action : Locals → Effect α} {result : α}
    (h : Exec.effect action state = .ok result after) :
    after.locals = state.locals := by
  rw [Exec.effect] at h
  split at h
  · cases h
    rfl
  · contradiction

theorem Same.holds {cond cond' : Expr}
    (same : Same setting state.locals cond cond') :
    cond'.holds setting state = cond.holds setting state :=
  Exec.effect_congr (by simp only [same.eval])

namespace Stmt

theorem execAssign_value {target value value' : Expr}
    (same : Same setting state.locals value value') :
    execAssign setting target value' state =
      execAssign setting target value state := by
  rw [execAssign, execAssign]
  cases target.skipParens with
  | var attr name =>
      cases origin : setting.resolve name with
      | localVar symbol | param symbol =>
          simp only [origin]
          exact Action.bind_congr (Exec.effect_congr same.eval)
            fun _ _ _ => rfl
      | field symbol =>
          simp only [origin]
          exact Exec.effect_congr (by simp only [same.eval])
      | imported | enclosing | unknown => simp only [origin]
  | index attr array position =>
      exact Exec.effect_congr (by simp only [same.eval])
  | _ => rfl

theorem execAssign_index {attr : Attr}
    {array array' position position' value : Expr}
    (sameArray : Same setting state.locals array array')
    (samePosition : Same setting state.locals position position') :
    execAssign setting (.index attr array' position') value state =
      execAssign setting (.index attr array position) value state := by
  simp only [execAssign, Expr.skipParens]
  exact Exec.effect_congr (by simp only [sameArray.eval, samePosition.eval])

end Stmt

end Execution

end Tree

end JavaMinus
