import JavaMinus.Proofs.Constants.Fixpoint
import JavaMinus.Proofs.Constants.Propagation
import JavaMinus.Proofs.Constants.Rounds

/-!
# One run of a pass is enough

Folding leaves no arithmetic on literals, and where there is none it has
nothing to do.  Propagation goes over its own result with the facts that it
had in the first run.  It has replaced reads only, so every statement assigns
what it assigned before, and what is known before a loop and named in its body
is still named there.
-/

namespace JavaMinus

theorem Counted.pure_bind {α β : Type} (value : α) (next : α → Counted β) :
    (pure value >>= next) = next value :=
  congrArg (Counted.mk (next value).value) (Nat.zero_add _)

namespace Tree

/-! ## Folding -/

namespace Expr

theorem isFoldable_of_compute? {attr : Attr} {op : Operator}
    {left right : Expr} {first second value : Int32}
    (isFirst : left.literal? = some first)
    (isSecond : right.literal? = some second)
    (computed : op.compute? first second = some value) :
    (binary attr op left right).isFoldable = true := by
  unfold literal? at isFirst isSecond
  split at isFirst <;> split at isSecond <;> cases isFirst <;> cases isSecond
  next isLeft isRight =>
    simp only [isFoldable, isLeft, isRight]
    cases op <;> simp_all [Operator.isArithmetic, Operator.compute?]

theorem foldBinary_of_not_isFoldable {attr : Attr} {op : Operator}
    {left right : Expr}
    (h : (binary attr op left right).isFoldable = false) :
    foldBinary attr op left right = pure (.binary attr op left right) := by
  rw [foldBinary]
  split
  next first second isFirst isSecond =>
    split
    next value computed =>
      simp [isFoldable_of_compute? isFirst isSecond computed] at h
    next => rfl
  next => rfl

theorem foldAll_of_count {exprs : List Expr}
    (each : ∀ expr ∈ exprs, expr.count isFoldable = 0 → expr.fold = pure expr)
    (none : countAll isFoldable exprs = 0) : foldAll exprs = pure exprs := by
  induction exprs with
  | nil => rfl
  | cons expr rest ih =>
      simp only [countAll, Nat.add_eq_zero_iff] at none
      have others := ih (fun expr member => each expr (by simp [member])) none.2
      simp only [foldAll, each expr (by simp) none.1, others,
        Counted.pure_bind]

theorem fold_of_count {expr : Expr} (none : expr.count isFoldable = 0) :
    expr.fold = pure expr := by
  induction expr with
  | int | bool | var | self | newObject => rfl
  | binary attr op left right ihLeft ihRight =>
      simp only [count, Nat.add_eq_zero_iff, Bool.toNat_eq_zero] at none
      simp only [fold, ihLeft none.1.2, ihRight none.2, Counted.pure_bind,
        foldBinary_of_not_isFoldable none.1.1]
  | call attr receiver method args ih ihArgs =>
      simp only [count, Nat.add_eq_zero_iff] at none
      simp only [fold, ih none.1.2, foldAll_of_count ihArgs none.2,
        Counted.pure_bind]
  | arrayLiteral attr elements ih =>
      simp only [count, Nat.add_eq_zero_iff] at none
      simp only [fold, foldAll_of_count ih none.2, Counted.pure_bind]
  | not attr inner ih | paren attr inner ih | newArray attr inner ih
  | length attr inner ih =>
      simp only [count, Nat.add_eq_zero_iff] at none
      simp only [fold, ih none.2, Counted.pure_bind]
  | index attr array position ihArray ihPosition =>
      simp only [count, Nat.add_eq_zero_iff] at none
      simp only [fold, ihArray none.1.2, ihPosition none.2, Counted.pure_bind]

end Expr

namespace Stmt

open JavaMinus.Tree.Expr (isFoldable)

theorem foldAll_of_count {stmts : List Stmt}
    (each : ∀ stmt ∈ stmts, stmt.count isFoldable = 0 → stmt.fold = pure stmt)
    (none : countAll isFoldable stmts = 0) : foldAll stmts = pure stmts := by
  induction stmts with
  | nil => rfl
  | cons stmt rest ih =>
      simp only [countAll, Nat.add_eq_zero_iff] at none
      have others := ih (fun stmt member => each stmt (by simp [member])) none.2
      simp only [foldAll, each stmt (by simp) none.1, others,
        Counted.pure_bind]

theorem fold_of_count {stmt : Stmt} (none : stmt.count isFoldable = 0) :
    stmt.fold = pure stmt := by
  induction stmt with
  | block span body ih =>
      simp only [fold, foldAll_of_count ih none, Counted.pure_bind]
  | assign span target value =>
      simp only [count, Nat.add_eq_zero_iff] at none
      simp only [fold, Expr.fold_of_count none.1, Expr.fold_of_count none.2,
        Counted.pure_bind]
  | expr span value =>
      simp only [fold, Expr.fold_of_count none, Counted.pure_bind]
  | ret span value =>
      cases value with
      | none => rfl
      | some value =>
          simp only [fold, Expr.fold_of_count none, Counted.pure_bind]
  | ifThen span cond onTrue ih | loop span cond onTrue ih =>
      simp only [count, Nat.add_eq_zero_iff] at none
      simp only [fold, Expr.fold_of_count none.1, ih none.2,
        Counted.pure_bind]
  | ifElse span cond onTrue onFalse ihTrue ihFalse =>
      simp only [count, Nat.add_eq_zero_iff] at none
      simp only [fold, Expr.fold_of_count none.1.1, ihTrue none.1.2,
        ihFalse none.2, Counted.pure_bind]

end Stmt

theorem Method.foldAll_of_count {methods : List Method}
    (none : countAll Expr.isFoldable methods = 0) :
    foldAll methods = pure methods := by
  induction methods with
  | nil => rfl
  | cons method rest ih =>
      simp only [countAll, Nat.add_eq_zero_iff] at none
      have body : Stmt.foldAll method.body = pure method.body :=
        Stmt.foldAll_of_count (fun _ _ => Stmt.fold_of_count) none.1
      simp only [foldAll, Method.fold, body, ih none.2, Counted.pure_bind]

theorem Program.fold_of_count {program : Program}
    (none : program.count Expr.isFoldable = 0) :
    program.fold = pure program := by
  rw [fold, Method.foldAll_of_count none, Counted.pure_bind]

/-! ## Facts -/

namespace Facts

variable {facts : Facts} {tracked names names' : List String} {name : String}

def known (facts : Facts) : List String := facts.map (·.1)

theorem lookup_eq_none (h : name ∉ facts.known) :
    facts.lookup name = none := by
  rw [List.lookup_eq_none_iff]
  intro fact member
  rw [bne_iff_ne]
  intro same
  exact h (List.mem_map.mpr ⟨fact, member, same.symm⟩)

theorem known_filter {test : String × Int32 → Bool}
    (h : name ∈ known (facts.filter test)) : name ∈ facts.known := by
  obtain ⟨fact, member, rfl⟩ := List.mem_map.mp h
  exact List.mem_map.mpr ⟨fact, (List.mem_filter.mp member).1, rfl⟩

theorem known_assign {target : String} {value : Expr}
    (h : name ∈ (facts.assign tracked target value).known) :
    name = target ∨ name ∈ facts.known := by
  rw [assign] at h
  split at h
  · split at h
    · rcases List.mem_cons.mp h with rfl | h
      · exact .inl rfl
      · exact .inr (known_filter h)
    · exact .inr (known_filter h)
  · exact .inr (known_filter h)

theorem not_mem_known_without (h : name ∈ names) :
    name ∉ (facts.without names).known := by
  intro known
  obtain ⟨fact, member, rfl⟩ := List.mem_map.mp known
  have other := (List.mem_filter.mp member).2
  simp [h] at other

theorem without_congr
    (h : ∀ name ∈ facts.known, name ∈ names ↔ name ∈ names') :
    facts.without names = facts.without names' := by
  refine List.filter_congr fun fact member => ?_
  simp only [List.contains_eq_mem,
    h fact.1 (List.mem_map.mpr ⟨fact, member, rfl⟩)]

end Facts

/-! ## Propagation in expressions -/

namespace Expr

variable {facts : Facts} {name : String}

theorem mem_names_propagateAll {exprs : List Expr}
    (each : ∀ expr ∈ exprs, name ∈ (expr.propagate facts).value.names ↔
      name ∈ expr.names ∧ facts.lookup name = none) :
    name ∈ namesAll (propagateAll facts exprs).value ↔
      name ∈ namesAll exprs ∧ facts.lookup name = none := by
  induction exprs with
  | nil => simp [propagateAll, namesAll]
  | cons expr rest ih =>
      have others := ih fun expr member => each expr (by simp [member])
      simp [propagateAll, namesAll, each expr (by simp), others, or_and_right]

/-- Exactly the names that nothing is known about are left. -/
theorem mem_names_propagate (expr : Expr) :
    name ∈ (expr.propagate facts).value.names ↔
      name ∈ expr.names ∧ facts.lookup name = none := by
  induction expr with
  | int | bool | self | newObject => simp [propagate, names]
  | var attr other =>
      rw [propagate]
      cases known : facts.lookup other with
      | some value =>
          simp only [Counted.value_replaced, names, List.not_mem_nil,
            List.mem_singleton, false_iff, not_and]
          rintro rfl
          simp [known]
      | none =>
          simp only [Counted.value_pure, names, List.mem_singleton,
            iff_self_and]
          rintro rfl
          exact known
  | call attr receiver method args ih ihArgs =>
      simp [propagate, names, ih, mem_names_propagateAll ihArgs, or_and_right]
  | arrayLiteral attr elements ih =>
      simp [propagate, names, mem_names_propagateAll ih]
  | not attr inner ih | paren attr inner ih | newArray attr inner ih
  | length attr inner ih => simp [propagate, names, ih]
  | binary attr op left right ihLeft ihRight
  | index attr left right ihLeft ihRight =>
      simp [propagate, names, ihLeft, ihRight, or_and_right]

theorem propagateAll_again {exprs : List Expr}
    (each : ∀ expr ∈ exprs, (expr.propagate facts).value.propagate facts =
      pure (expr.propagate facts).value) :
    propagateAll facts (propagateAll facts exprs).value =
      pure (propagateAll facts exprs).value := by
  induction exprs with
  | nil => rfl
  | cons expr rest ih =>
      have others := ih fun expr member => each expr (by simp [member])
      simp only [propagateAll, Counted.value_bind, Counted.value_pure,
        each expr (by simp), others, Counted.pure_bind]

theorem propagate_again (expr : Expr) :
    (expr.propagate facts).value.propagate facts =
      pure (expr.propagate facts).value := by
  induction expr with
  | int | bool | self | newObject => rfl
  | var attr name =>
      rw [propagate]
      cases known : facts.lookup name with
      | some value => rfl
      | none => simp only [Counted.value_pure, propagate, known]
  | call attr receiver method args ih ihArgs =>
      simp only [propagate, Counted.value_bind, Counted.value_pure, ih,
        propagateAll_again ihArgs, Counted.pure_bind]
  | arrayLiteral attr elements ih =>
      simp only [propagate, Counted.value_bind, Counted.value_pure,
        propagateAll_again ih, Counted.pure_bind]
  | not attr inner ih | paren attr inner ih | newArray attr inner ih
  | length attr inner ih =>
      simp only [propagate, Counted.value_bind, Counted.value_pure, ih,
        Counted.pure_bind]
  | binary attr op left right ihLeft ihRight
  | index attr left right ihLeft ihRight =>
      simp only [propagate, Counted.value_bind, Counted.value_pure, ihLeft,
        ihRight, Counted.pure_bind]

theorem propagateTarget_again (target : Expr) :
    (target.propagateTarget facts).value.propagateTarget facts =
      pure (target.propagateTarget facts).value := by
  cases target with
  | index attr array position =>
      simp only [propagateTarget, Counted.value_bind, Counted.value_pure,
        propagate_again, Counted.pure_bind]
  | _ => rfl

theorem mem_names_of_propagateTarget {target : Expr}
    (h : name ∈ (target.propagateTarget facts).value.names) :
    name ∈ target.names := by
  cases target with
  | index attr array position =>
      simp only [propagateTarget, Counted.value_bind, Counted.value_pure,
        names, List.mem_append, mem_names_propagate] at h ⊢
      exact h.imp And.left And.left
  | _ => exact h

theorem mem_names_propagateTarget {target : Expr} (h : name ∈ target.names)
    (unknown : facts.lookup name = none) :
    name ∈ (target.propagateTarget facts).value.names := by
  cases target with
  | index attr array position =>
      simpa [propagateTarget, names, mem_names_propagate, unknown] using h
  | _ => exact h

end Expr

/-! ## Propagation in statements -/

namespace Stmt

variable {tracked : List String} {facts : Facts} {name : String}

theorem assignedAll_propagateAll {stmts : List Stmt} (facts : Facts)
    (each : ∀ stmt ∈ stmts, ∀ facts : Facts,
      (stmt.propagate tracked facts).value.1.assigned = stmt.assigned) :
    assignedAll (propagateAll tracked stmts facts).value.1 =
      assignedAll stmts := by
  induction stmts generalizing facts with
  | nil => rfl
  | cons stmt rest ih =>
      have others (facts : Facts) :=
        ih facts fun stmt member => each stmt (by simp [member])
      simp [propagateAll, assignedAll, each stmt (by simp), others]

theorem assigned_propagate (stmt : Stmt) (facts : Facts) :
    (stmt.propagate tracked facts).value.1.assigned = stmt.assigned := by
  induction stmt generalizing facts with
  | block span body ih =>
      simp [propagate, assigned, assignedAll_propagateAll facts ih]
  | assign span target value => cases target <;> rfl
  | expr span value => rfl
  | ret span value => cases value <;> rfl
  | ifThen span cond onTrue ih | loop span cond onTrue ih =>
      simp [propagate, assigned, ih]
  | ifElse span cond onTrue onFalse ihTrue ihFalse =>
      simp [propagate, assigned, ihTrue, ihFalse]

theorem known_propagate {stmt : Stmt} {facts : Facts}
    (h : name ∈ (stmt.propagate tracked facts).value.2.known) :
    name ∈ stmt.assigned ∨ name ∈ facts.known := by
  induction stmt generalizing facts with
  | block span body ih =>
      rw [assigned, mem_assignedAll]
      induction body generalizing facts with
      | nil => exact .inr h
      | cons stmt rest ihRest =>
          rcases ihRest (fun stmt member => ih stmt (by simp [member])) h with
            ⟨other, member, inside⟩ | known
          · exact .inl ⟨other, by simp [member], inside⟩
          · exact (ih stmt (by simp) known).imp_left
              fun inside => ⟨stmt, by simp, inside⟩
  | assign span target value =>
      cases target with
      | var attr target =>
          exact (Facts.known_assign h).imp_left fun same => by
            simp [assigned, same]
      | _ => exact .inr h
  | expr span value => exact .inr h
  | ret span value => cases value <;> exact .inr h
  | ifThen span cond onTrue ih => exact ih (Facts.known_filter h)
  | ifElse span cond onTrue onFalse ihTrue ihFalse =>
      exact (ihTrue (Facts.known_filter h)).imp_left fun inside => by
        simp [assigned, inside]
  | loop span cond body ih => exact .inr (Facts.known_filter h)

theorem mem_names_of_propagate {stmt : Stmt} {facts : Facts}
    (h : name ∈ (stmt.propagate tracked facts).value.1.names) :
    name ∈ stmt.names := by
  induction stmt generalizing facts with
  | block span body ih =>
      rw [names, mem_namesAll]
      induction body generalizing facts with
      | nil => simp [propagate, propagateAll, names, namesAll] at h
      | cons stmt rest ihRest =>
          rcases List.mem_append.mp h with h | h
          · exact ⟨stmt, by simp, ih stmt (by simp) h⟩
          · obtain ⟨other, member, inside⟩ :=
              ihRest (fun stmt member => ih stmt (by simp [member])) h
            exact ⟨other, by simp [member], inside⟩
  | assign span target value =>
      refine List.mem_append.mpr ((List.mem_append.mp h).imp ?_ ?_)
      · exact Expr.mem_names_of_propagateTarget
      · exact fun inside => (Expr.mem_names_propagate value).mp inside |>.1
  | expr span value => exact ((Expr.mem_names_propagate value).mp h).1
  | ret span value =>
      cases value with
      | none => exact h
      | some value => exact ((Expr.mem_names_propagate value).mp h).1
  | ifThen span cond onTrue ih | loop span cond onTrue ih =>
      refine List.mem_append.mpr ((List.mem_append.mp h).imp ?_ ih)
      exact fun inside => (Expr.mem_names_propagate cond).mp inside |>.1
  | ifElse span cond onTrue onFalse ihTrue ihFalse =>
      refine List.mem_append.mpr ((List.mem_append.mp h).imp ?_ ihFalse)
      refine fun inside => List.mem_append.mpr
        ((List.mem_append.mp inside).imp ?_ ihTrue)
      exact fun inside => (Expr.mem_names_propagate cond).mp inside |>.1

/--
A name stays where nothing is known about it.  What is learnt about it on the
way comes from an assignment to it, and there it stays too.
-/
theorem mem_names_propagate {stmt : Stmt} {facts : Facts}
    (h : name ∈ stmt.names) (unknown : name ∉ facts.known) :
    name ∈ (stmt.propagate tracked facts).value.1.names := by
  have kept (expr : Expr) (inside : name ∈ expr.names) {facts : Facts}
      (unknown : name ∉ facts.known) :
      name ∈ (expr.propagate facts).value.names :=
    (Expr.mem_names_propagate expr).mpr
      ⟨inside, Facts.lookup_eq_none unknown⟩
  induction stmt generalizing facts with
  | block span body ih =>
      change name ∈ namesAll (propagateAll tracked body facts).value.1
      induction body generalizing facts with
      | nil => simp [names, namesAll] at h
      | cons stmt rest ihRest =>
          refine List.mem_append.mpr ?_
          by_cases inside : name ∈ stmt.names
          · exact .inl (ih stmt (by simp) inside unknown)
          · have later : name ∈ namesAll rest :=
              (List.mem_append.mp h).resolve_left inside
            have unknown : name ∉
                (stmt.propagate tracked facts).value.2.known := by
              intro known
              rcases known_propagate known with assigned | known
              · exact inside (mem_names_of_assigned assigned)
              · exact unknown known
            exact .inr (ihRest (fun stmt member => ih stmt (by simp [member]))
              later unknown)
  | assign span target value =>
      refine List.mem_append.mpr ((List.mem_append.mp h).imp ?_ ?_)
      · exact fun inside => Expr.mem_names_propagateTarget inside
          (Facts.lookup_eq_none unknown)
      · exact fun inside => kept value inside unknown
  | expr span value => exact kept value h unknown
  | ret span value =>
      cases value with
      | none => exact h
      | some value => exact kept value h unknown
  | ifThen span cond onTrue ih =>
      refine List.mem_append.mpr ((List.mem_append.mp h).imp ?_ ?_)
      · exact fun inside => kept cond inside unknown
      · exact fun inside => ih inside unknown
  | ifElse span cond onTrue onFalse ihTrue ihFalse =>
      refine List.mem_append.mpr ((List.mem_append.mp h).imp ?_ ?_)
      · refine fun inside => List.mem_append.mpr
          ((List.mem_append.mp inside).imp ?_ ?_)
        · exact fun inside => kept cond inside unknown
        · exact fun inside => ihTrue inside unknown
      · exact fun inside => ihFalse inside unknown
  | loop span cond body ih =>
      have unknown : name ∉ (facts.without body.names).known :=
        fun known => unknown (Facts.known_filter known)
      refine List.mem_append.mpr ((List.mem_append.mp h).imp ?_ ?_)
      · exact fun inside => kept cond inside unknown
      · exact fun inside => ih inside unknown

theorem propagateAll_again {stmts : List Stmt} (facts : Facts)
    (each : ∀ stmt ∈ stmts, ∀ facts : Facts,
      (stmt.propagate tracked facts).value.1.propagate tracked facts =
        pure (stmt.propagate tracked facts).value) :
    propagateAll tracked (propagateAll tracked stmts facts).value.1 facts =
      pure (propagateAll tracked stmts facts).value := by
  induction stmts generalizing facts with
  | nil => rfl
  | cons stmt rest ih =>
      have others (facts : Facts) :=
        ih facts fun stmt member => each stmt (by simp [member])
      simp only [propagateAll, Counted.value_bind, Counted.value_pure,
        each stmt (by simp), others, Counted.pure_bind]

/-- With the facts of the first run nothing is left to replace. -/
theorem propagate_again (stmt : Stmt) (facts : Facts) :
    (stmt.propagate tracked facts).value.1.propagate tracked facts =
      pure (stmt.propagate tracked facts).value := by
  induction stmt generalizing facts with
  | block span body ih =>
      simp only [propagate, Counted.value_bind, Counted.value_pure,
        propagateAll_again facts ih, Counted.pure_bind]
  | assign span target value =>
      simp only [propagate, Counted.value_bind, Counted.value_pure,
        Expr.propagate_again, Expr.propagateTarget_again, Counted.pure_bind]
  | expr span value =>
      simp only [propagate, Counted.value_bind, Counted.value_pure,
        Expr.propagate_again, Counted.pure_bind]
  | ret span value =>
      cases value with
      | none => rfl
      | some value =>
          simp only [propagate, Counted.value_bind, Counted.value_pure,
            Expr.propagate_again, Counted.pure_bind]
  | ifThen span cond onTrue ih =>
      simp only [propagate, Counted.value_bind, Counted.value_pure,
        Expr.propagate_again, ih, Counted.pure_bind]
  | ifElse span cond onTrue onFalse ihTrue ihFalse =>
      simp only [propagate, Counted.value_bind, Counted.value_pure,
        Expr.propagate_again, ihTrue, ihFalse, Counted.pure_bind]
  | loop span cond body ih =>
      -- both runs enter the body with the same facts
      have inside : facts.without (body.propagate tracked
            (facts.without body.names)).value.1.names =
          facts.without body.names :=
        Facts.without_congr fun name _ => ⟨mem_names_of_propagate,
          fun named => mem_names_propagate named
            (Facts.not_mem_known_without named)⟩
      simp only [propagate, Counted.value_bind, Counted.value_pure, inside,
        assigned_propagate, Expr.propagate_again, ih, Counted.pure_bind]

end Stmt

/-! ## Reads that are left -/

namespace Facts

variable {facts : Facts} {tracked : List String} {name : String}
  {value : Int32}

theorem lookup_filter {test : String × Int32 → Bool}
    (h : facts.lookup name = some value) (passes : test (name, value) = true) :
    (facts.filter test).lookup name = some value := by
  obtain ⟨front, rest, rfl, others⟩ := List.lookup_eq_some_iff.mp h
  rw [List.filter_append, List.filter_cons_of_pos passes]
  refine List.lookup_eq_some_iff.mpr ⟨_, _, rfl, fun fact member => ?_⟩
  exact others fact (List.mem_filter.mp member).1

theorem lookup_forget {other : String} (h : facts.lookup name = some value)
    (different : name ≠ other) :
    (facts.forget other).lookup name = some value :=
  lookup_filter h (by simpa using different)

theorem lookup_assign {expr : Expr} (literal : expr.literal? = some value)
    (isTracked : tracked.contains name = true) :
    (facts.assign tracked name expr).lookup name = some value := by
  simp only [assign, literal, isTracked, if_true, learn, List.lookup_cons_self]

theorem lookup_assign_of_ne {other : String} (expr : Expr)
    (h : facts.lookup name = some value) (different : name ≠ other) :
    (facts.assign tracked other expr).lookup name = some value := by
  have kept := lookup_forget h different
  rw [assign]
  split
  · split
    · rwa [learn, List.lookup_cons, beq_false_of_ne different]
    · exact kept
  · exact kept

end Facts

namespace Stmt

/-- The variables that a statement reads itself, other than in a loop. -/
def reads : Stmt → List String
  | .assign _ (.index _ array position) value =>
      array.names ++ position.names ++ value.names
  | .assign _ _ value | .expr _ value | .ret _ (some value) => value.names
  | .ifThen _ cond _ | .ifElse _ cond _ _ => cond.names
  | .ret _ none | .block _ _ | .loop _ _ _ => []

/-- The variable is read before it may be assigned. -/
def isRead (name : String) : List Stmt → Bool
  | [] => false
  | stmt :: rest =>
      stmt.reads.contains name ||
        !stmt.assigned.contains name && isRead name rest

/-- A tracked variable is read although the literal in it is known. -/
def readsKnown (tracked : List String) : List Stmt → Bool
  | [] => false
  | .assign _ (.var _ name) value :: rest =>
      (value.literal?.isSome && tracked.contains name && isRead name rest) ||
        readsKnown tracked rest
  | _ :: rest => readsKnown tracked rest

variable {tracked : List String} {facts : Facts} {name : String}
  {value : Int32}

theorem lookup_propagate {stmt : Stmt} (h : facts.lookup name = some value)
    (kept : name ∉ stmt.assigned) :
    (stmt.propagate tracked facts).value.2.lookup name = some value := by
  induction stmt generalizing facts with
  | block span body ih =>
      simp only [assigned, mem_assignedAll, not_exists, not_and] at kept
      change (propagateAll tracked body facts).value.2.lookup name = _
      induction body generalizing facts with
      | nil => exact h
      | cons stmt rest ihRest =>
          exact ihRest (fun stmt member => ih stmt (by simp [member]))
            (ih stmt (by simp) h (kept stmt (by simp)))
            (fun stmt member => kept stmt (by simp [member]))
  | assign span target expr =>
      cases target with
      | var attr other =>
          exact Facts.lookup_assign_of_ne _ h (by simpa [assigned] using kept)
      | _ => exact h
  | expr span value => exact h
  | ret span value => cases value <;> exact h
  | ifThen span cond onTrue ih =>
      exact Facts.lookup_filter (ih h kept) (by simpa using h)
  | ifElse span cond onTrue onFalse ihTrue ihFalse =>
      simp only [assigned, List.mem_append, not_or] at kept
      exact Facts.lookup_filter (ihTrue h kept.1)
        (by simpa using ihFalse h kept.2)
  | loop span cond body ih =>
      exact Facts.lookup_filter h (by simpa [assigned] using kept)

theorem not_mem_reads_propagate (stmt : Stmt)
    (h : facts.lookup name = some value) :
    name ∉ (stmt.propagate tracked facts).value.1.reads := by
  have gone (expr : Expr) : name ∉ (expr.propagate facts).value.names := by
    simp [Expr.mem_names_propagate, h]
  cases stmt with
  | assign span target expr =>
      cases target with
      | index attr array position =>
          simp [propagate, Expr.propagateTarget, reads, gone]
      | _ => exact gone expr
  | ret span expr =>
      cases expr with
      | none => simp [propagate, reads]
      | some expr => exact gone expr
  | expr span value => exact gone value
  | ifThen span cond onTrue => exact gone cond
  | ifElse span cond onTrue onFalse => exact gone cond
  | block | loop => simp [propagate, reads]

theorem isRead_propagateAll {stmts : List Stmt}
    (h : facts.lookup name = some value) :
    isRead name (propagateAll tracked stmts facts).value.1 = false := by
  induction stmts generalizing facts with
  | nil => rfl
  | cons stmt rest ih =>
      have here : name ∉ (stmt.propagate tracked facts).value.1.reads :=
        not_mem_reads_propagate stmt h
      simp only [propagateAll, Counted.value_bind, Counted.value_pure, isRead,
        assigned_propagate]
      by_cases again : name ∈ stmt.assigned
      · simp [here, again]
      · simp [here, ih (lookup_propagate h again)]

theorem readsKnown_propagateAll (stmts : List Stmt) (facts : Facts) :
    readsKnown tracked (propagateAll tracked stmts facts).value.1 = false := by
  induction stmts generalizing facts with
  | nil => rfl
  | cons stmt rest ih =>
      cases stmt with
      | assign span target expr =>
          cases target with
          | var attr name =>
              simp only [propagateAll, propagate, Expr.propagateTarget,
                Counted.value_bind, Counted.value_pure, readsKnown, ih,
                Bool.or_false]
              cases literal : (expr.propagate facts).value.literal? with
              | none => rfl
              | some value =>
                  cases isTracked : tracked.contains name with
                  | false => rfl
                  | true =>
                      exact isRead_propagateAll
                        (Facts.lookup_assign literal isTracked)
          | _ => exact ih _
      | ret span expr => cases expr <;> exact ih _
      | _ => exact ih _

theorem readsKnown_of_mem_preorderAll {body stmts : List Stmt} {span : Span}
    (each : ∀ stmt ∈ body, ∀ ⦃facts : Facts⦄,
      .block span stmts ∈ (stmt.propagate tracked facts).value.1.preorder →
      readsKnown tracked stmts = false)
    (h : .block span stmts ∈
      preorderAll (propagateAll tracked body facts).value.1) :
    readsKnown tracked stmts = false := by
  induction body generalizing facts with
  | nil => simp [propagateAll, preorderAll] at h
  | cons stmt rest ih =>
      rcases List.mem_append.mp h with h | h
      · exact each stmt (by simp) h
      · exact ih (fun stmt member => each stmt (by simp [member])) h

theorem readsKnown_of_mem_preorder {stmt : Stmt} {span : Span}
    {stmts : List Stmt}
    (h : .block span stmts ∈ (stmt.propagate tracked facts).value.1.preorder) :
    readsKnown tracked stmts = false := by
  induction stmt generalizing facts with
  | block span body ih =>
      rcases List.mem_cons.mp h with same | h
      · cases same
        exact readsKnown_propagateAll body facts
      · exact readsKnown_of_mem_preorderAll
          (fun stmt member _ => ih stmt member) h
  | assign | expr => simp [propagate, preorder] at h
  | ret span value => cases value <;> simp [propagate, preorder] at h
  | ifThen span cond onTrue ih | loop span cond onTrue ih =>
      exact ih ((List.mem_cons.mp h).resolve_left (by simp))
  | ifElse span cond onTrue onFalse ihTrue ihFalse =>
      rcases List.mem_append.mp ((List.mem_cons.mp h).resolve_left (by simp)) with
        h | h
      · exact ihTrue h
      · exact ihFalse h

end Stmt

/-! ## Programs -/

theorem Method.propagateAll_again (methods : List Method) :
    propagateAll (propagateAll methods).value =
      pure (propagateAll methods).value := by
  induction methods with
  | nil => rfl
  | cons method rest ih =>
      have here : method.propagate.value.propagate =
          pure method.propagate.value := by
        have body : Stmt.propagateAll method.tracked
            (Stmt.propagateAll method.tracked method.body []).value.1 [] = _ :=
          Stmt.propagateAll_again [] fun stmt _ => Stmt.propagate_again stmt
        have same : method.propagate.value.tracked = method.tracked := rfl
        rw [propagate, same]
        simp only [propagate, Counted.value_bind, Counted.value_pure, body,
          Counted.pure_bind]
      simp only [propagateAll, Counted.value_bind, Counted.value_pure, here,
        ih, Counted.pure_bind]

theorem Program.propagate_again (program : Program) :
    program.propagate.value.propagate = pure program.propagate.value := by
  simp only [propagate, Counted.value_bind, Counted.value_pure,
    Method.propagateAll_again, Counted.pure_bind]

/-- The body of a method and the bodies of the blocks in it. -/
def Method.sequences (method : Method) : List (List Stmt) :=
  method.body :: (Stmt.preorderAll method.body).filterMap fun
    | .block _ body => some body
    | _ => none

theorem Method.readsKnown_propagate (method : Method) {stmts : List Stmt}
    (h : stmts ∈ method.propagate.value.sequences) :
    Stmt.readsKnown method.tracked stmts = false := by
  rcases List.mem_cons.mp h with rfl | h
  · exact Stmt.readsKnown_propagateAll method.body []
  · obtain ⟨stmt, inside, isBlock⟩ := List.mem_filterMap.mp h
    cases stmt with
    | block span body =>
        cases isBlock
        exact Stmt.readsKnown_of_mem_preorderAll
          (fun _ _ _ => Stmt.readsKnown_of_mem_preorder) inside
    | _ => cases isBlock

namespace Program

/--
Each pass does all of its work in one run.  When propagation goes over its own
result it replaces no read, and no read is left that follows on the assignment
of a literal.  When folding goes over its own result it folds nothing, and no
arithmetic on literals is left but divisions by zero.
-/
theorem passes_complete_in_one_run (program : Program) :
    let propagated := program.propagate.value
    let folded := program.fold.value
    (propagated.propagate.count = 0 ∧
      propagated.propagate.value = propagated ∧
      ∀ method ∈ propagated.declared.methods, ∀ stmts ∈ method.sequences,
        Stmt.readsKnown method.tracked stmts = false) ∧
    (folded.fold.count = 0 ∧ folded.fold.value = folded ∧
      folded.count Expr.isFoldable = 0) := by
  intro propagated folded
  have again : propagated.propagate = pure propagated := program.propagate_again
  have settled : folded.count Expr.isFoldable = 0 := program.count_fold
  have still : folded.fold = pure folded := fold_of_count settled
  rw [again, still]
  refine ⟨⟨rfl, rfl, ?_⟩, rfl, rfl, settled⟩
  intro method member stmts inside
  have listed : propagated.declared.methods =
      program.declared.methods.map fun method => method.propagate.value :=
    Method.propagateAll_value _
  rw [listed] at member
  obtain ⟨original, _, rfl⟩ := List.mem_map.mp member
  exact original.readsKnown_propagate inside

end Program

end Tree

end JavaMinus
