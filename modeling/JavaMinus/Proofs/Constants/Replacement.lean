import JavaMinus.Proofs.Constants.Rounds
import JavaMinus.Proofs.Lists
import Mathlib.Data.List.Forall2

/-!
# What simplification replaces

Both passes put literals in the place of operations and of reads of tracked
variables, anywhere in a tree.  A property of trees that outlasts one such
replacement outlasts any number of rounds.
-/

namespace JavaMinus

namespace Tree

/-! ## Facts -/

def Facts.Within (facts : Facts) (tracked : List String) : Prop :=
  ∀ fact ∈ facts, fact.1 ∈ tracked

namespace Facts.Within

variable {facts : Facts} {tracked : List String}

theorem lookup (within : facts.Within tracked) {name : String} {value : Int32}
    (known : facts.lookup name = some value) : name ∈ tracked := by
  obtain ⟨front, rest, whole, _⟩ := List.lookup_eq_some_iff.mp known
  exact within (name, value) (by simp [whole])

theorem filter (within : facts.Within tracked)
    (test : String × Int32 → Bool) : Within (facts.filter test) tracked :=
  fun fact member => within fact (List.mem_filter.mp member).1

theorem assign (within : facts.Within tracked) (name : String)
    (value : Expr) : (facts.assign tracked name value).Within tracked := by
  rw [Facts.assign]
  split
  · split
    next isTracked =>
      intro fact member
      rcases List.mem_cons.mp member with rfl | member
      · simpa using isTracked
      · exact within.filter _ fact member
    next => exact within.filter _
  · exact within.filter _

end Facts.Within

/-! ## Expressions -/

inductive Expr.Becomes (tracked : List String) : Expr → Expr → Prop where
  | refl (expr : Expr) : Becomes tracked expr expr
  | trans {first second third : Expr} :
      Becomes tracked first second → Becomes tracked second third →
      Becomes tracked first third
  | computed (attr : Attr) {op : Operator} {left right : Expr}
      {first second value : Int32} (isFirst : left.literal? = some first)
      (isSecond : right.literal? = some second)
      (isValue : op.compute? first second = some value) :
      Becomes tracked (.binary attr op left right) (.int attr value)
  | known (attr : Attr) {name : String} (value : Int32)
      (isTracked : name ∈ tracked) :
      Becomes tracked (.var attr name) (.int attr value)
  | left (attr : Attr) (op : Operator) (right : Expr) {left left' : Expr} :
      Becomes tracked left left' →
      Becomes tracked (.binary attr op left right) (.binary attr op left' right)
  | right (attr : Attr) (op : Operator) (left : Expr) {right right' : Expr} :
      Becomes tracked right right' →
      Becomes tracked (.binary attr op left right) (.binary attr op left right')
  | not (attr : Attr) {operand operand' : Expr} :
      Becomes tracked operand operand' →
      Becomes tracked (.not attr operand) (.not attr operand')
  | paren (attr : Attr) {inner inner' : Expr} :
      Becomes tracked inner inner' →
      Becomes tracked (.paren attr inner) (.paren attr inner')
  | receiver (attr : Attr) (method : String) (args : List Expr)
      {receiver receiver' : Expr} : Becomes tracked receiver receiver' →
      Becomes tracked (.call attr receiver method args)
        (.call attr receiver' method args)
  | arg (attr : Attr) (receiver : Expr) (method : String)
      (before after : List Expr) {arg arg' : Expr} :
      Becomes tracked arg arg' →
      Becomes tracked (.call attr receiver method (before ++ arg :: after))
        (.call attr receiver method (before ++ arg' :: after))
  | size (attr : Attr) {size size' : Expr} :
      Becomes tracked size size' →
      Becomes tracked (.newArray attr size) (.newArray attr size')
  | element (attr : Attr) (before after : List Expr) {element element' : Expr} :
      Becomes tracked element element' →
      Becomes tracked (.arrayLiteral attr (before ++ element :: after))
        (.arrayLiteral attr (before ++ element' :: after))
  | array (attr : Attr) (position : Expr) {array array' : Expr} :
      Becomes tracked array array' →
      Becomes tracked (.index attr array position) (.index attr array' position)
  | position (attr : Attr) (array : Expr) {position position' : Expr} :
      Becomes tracked position position' →
      Becomes tracked (.index attr array position) (.index attr array position')
  | length (attr : Attr) {array array' : Expr} :
      Becomes tracked array array' →
      Becomes tracked (.length attr array) (.length attr array')

namespace Expr

variable {tracked : List String}

theorem becomes_members {form : List Expr → Expr} {exprs exprs' : List Expr}
    (member : ∀ (before after : List Expr) {expr expr' : Expr},
      Becomes tracked expr expr' → Becomes tracked
        (form (before ++ expr :: after)) (form (before ++ expr' :: after)))
    (each : List.Forall₂ (Becomes tracked) exprs exprs') :
    Becomes tracked (form exprs) (form exprs') := by
  suffices ∀ before, Becomes tracked (form (before ++ exprs))
      (form (before ++ exprs')) from this []
  induction each with
  | nil => exact fun before => .refl _
  | @cons expr expr' rest rest' here _ ih =>
      intro before
      refine (member before rest here).trans ?_
      simpa using ih (before ++ [expr'])

theorem forall₂_foldAll {exprs : List Expr}
    (each : ∀ expr ∈ exprs, Becomes tracked expr expr.fold.value) :
    List.Forall₂ (Becomes tracked) exprs (foldAll exprs).value := by
  induction exprs with
  | nil => exact .nil
  | cons expr rest ih =>
      exact .cons (each expr (by simp))
        (ih fun expr member => each expr (by simp [member]))

theorem becomes_foldBinary (attr : Attr) (op : Operator) (left right : Expr) :
    Becomes tracked (.binary attr op left right)
      (foldBinary attr op left right).value := by
  rw [foldBinary]
  split
  next first second isFirst isSecond =>
    split
    next value isValue => exact .computed attr isFirst isSecond isValue
    next => exact .refl _
  next => exact .refl _

theorem becomes_fold (expr : Expr) : Becomes tracked expr expr.fold.value := by
  induction expr with
  | binary attr op left right ihLeft ihRight =>
      exact ((ihLeft.left attr op right).trans (ihRight.right attr op _)).trans
        (becomes_foldBinary attr op _ _)
  | not attr operand ih => exact ih.not attr
  | paren attr inner ih => exact ih.paren attr
  | call attr receiver method args ih ihArgs =>
      exact (ih.receiver attr method args).trans
        (becomes_members (.arg attr _ method) (forall₂_foldAll ihArgs))
  | newArray attr size ih => exact ih.size attr
  | arrayLiteral attr elements ih =>
      exact becomes_members (.element attr) (forall₂_foldAll ih)
  | index attr array position ihArray ihPosition =>
      exact (ihArray.array attr position).trans (ihPosition.position attr _)
  | length attr array ih => exact ih.length attr
  | int | bool | var | self | newObject => exact .refl _

theorem forall₂_propagateAll {facts : Facts} {exprs : List Expr}
    (each : ∀ expr ∈ exprs,
      Becomes tracked expr (expr.propagate facts).value) :
    List.Forall₂ (Becomes tracked) exprs (propagateAll facts exprs).value := by
  induction exprs with
  | nil => exact .nil
  | cons expr rest ih =>
      exact .cons (each expr (by simp))
        (ih fun expr member => each expr (by simp [member]))

theorem becomes_propagate {facts : Facts} (within : facts.Within tracked)
    (expr : Expr) : Becomes tracked expr (expr.propagate facts).value := by
  induction expr with
  | var attr name =>
      rw [propagate]
      split
      next value known => exact .known attr value (within.lookup known)
      next => exact .refl _
  | binary attr op left right ihLeft ihRight =>
      exact (ihLeft.left attr op right).trans (ihRight.right attr op _)
  | not attr operand ih => exact ih.not attr
  | paren attr inner ih => exact ih.paren attr
  | call attr receiver method args ih ihArgs =>
      exact (ih.receiver attr method args).trans
        (becomes_members (.arg attr _ method) (forall₂_propagateAll ihArgs))
  | newArray attr size ih => exact ih.size attr
  | arrayLiteral attr elements ih =>
      exact becomes_members (.element attr) (forall₂_propagateAll ih)
  | index attr array position ihArray ihPosition =>
      exact (ihArray.array attr position).trans (ihPosition.position attr _)
  | length attr array ih => exact ih.length attr
  | int | bool | self | newObject => exact .refl _

theorem fold_name {expr : Expr} {attr : Attr} {name : String}
    (h : expr.skipParens = .var attr name) : expr.fold.value = expr := by
  induction expr with
  | paren attr inner ih => simp [fold, ih h]
  | var => rfl
  | _ => simp [skipParens] at h

end Expr

/-! ## Statements -/

/-- Parts of the statement are replaced by literals, but no assigned name. -/
inductive Stmt.Becomes (tracked : List String) : Stmt → Stmt → Prop where
  | refl (stmt : Stmt) : Becomes tracked stmt stmt
  | trans {first second third : Stmt} :
      Becomes tracked first second → Becomes tracked second third →
      Becomes tracked first third
  | member (span : Span) (before after : List Stmt) {stmt stmt' : Stmt} :
      Becomes tracked stmt stmt' →
      Becomes tracked (.block span (before ++ stmt :: after))
        (.block span (before ++ stmt' :: after))
  | target (span : Span) (value : Expr) {target target' : Expr}
      (notName : ∀ attr name, target.skipParens ≠ .var attr name) :
      Expr.Becomes tracked target target' →
      Becomes tracked (.assign span target value) (.assign span target' value)
  | value (span : Span) (target : Expr) {value value' : Expr} :
      Expr.Becomes tracked value value' →
      Becomes tracked (.assign span target value) (.assign span target value')
  | expr (span : Span) {value value' : Expr} :
      Expr.Becomes tracked value value' →
      Becomes tracked (.expr span value) (.expr span value')
  | ret (span : Span) {value value' : Expr} :
      Expr.Becomes tracked value value' →
      Becomes tracked (.ret span (some value)) (.ret span (some value'))
  | ifThen (span : Span) {cond cond' : Expr} {onTrue onTrue' : Stmt} :
      Expr.Becomes tracked cond cond' → Becomes tracked onTrue onTrue' →
      Becomes tracked (.ifThen span cond onTrue) (.ifThen span cond' onTrue')
  | ifElse (span : Span) {cond cond' : Expr}
      {onTrue onTrue' onFalse onFalse' : Stmt} :
      Expr.Becomes tracked cond cond' → Becomes tracked onTrue onTrue' →
      Becomes tracked onFalse onFalse' →
      Becomes tracked (.ifElse span cond onTrue onFalse)
        (.ifElse span cond' onTrue' onFalse')
  | loop (span : Span) {cond cond' : Expr} {body body' : Stmt} :
      Expr.Becomes tracked cond cond' → Becomes tracked body body' →
      Becomes tracked (.loop span cond body) (.loop span cond' body')

namespace Stmt

variable {tracked : List String}

theorem becomes_members (span : Span) {stmts stmts' : List Stmt}
    (each : List.Forall₂ (Becomes tracked) stmts stmts') :
    Becomes tracked (.block span stmts) (.block span stmts') := by
  suffices ∀ before, Becomes tracked (.block span (before ++ stmts))
      (.block span (before ++ stmts')) from this []
  induction each with
  | nil => exact fun before => .refl _
  | @cons stmt stmt' rest rest' here _ ih =>
      intro before
      refine (Becomes.member span before rest here).trans ?_
      simpa using ih (before ++ [stmt'])

theorem forall₂_foldAll {stmts : List Stmt}
    (each : ∀ stmt ∈ stmts, Becomes tracked stmt stmt.fold.value) :
    List.Forall₂ (Becomes tracked) stmts (foldAll stmts).value := by
  induction stmts with
  | nil => exact .nil
  | cons stmt rest ih =>
      exact .cons (each stmt (by simp))
        (ih fun stmt member => each stmt (by simp [member]))

theorem becomes_fold (stmt : Stmt) : Becomes tracked stmt stmt.fold.value := by
  induction stmt with
  | block span body ih => exact becomes_members span (forall₂_foldAll ih)
  | assign span target value =>
      have onValue (target : Expr) : Becomes tracked
          (.assign span target value) (.assign span target value.fold.value) :=
        .value span target (Expr.becomes_fold value)
      by_cases isName : ∃ attr name, target.skipParens = .var attr name
      · obtain ⟨attr, name, isName⟩ := isName
        simpa [fold, Expr.fold_name isName] using onValue target
      · push Not at isName
        exact (Becomes.target span value isName
          (Expr.becomes_fold target)).trans (onValue _)
  | expr span value => exact .expr span (Expr.becomes_fold value)
  | ret span value =>
      cases value with
      | none => exact .refl _
      | some value => exact .ret span (Expr.becomes_fold value)
  | ifThen span cond onTrue ih =>
      exact .ifThen span (Expr.becomes_fold cond) ih
  | ifElse span cond onTrue onFalse ihTrue ihFalse =>
      exact .ifElse span (Expr.becomes_fold cond) ihTrue ihFalse
  | loop span cond body ih => exact .loop span (Expr.becomes_fold cond) ih

/-- A statement and what is known after it, once facts are used in it. -/
def Propagates (tracked : List String) (stmt : Stmt) : Prop :=
  ∀ ⦃facts : Facts⦄, facts.Within tracked →
    Becomes tracked stmt (stmt.propagate tracked facts).value.1 ∧
      (stmt.propagate tracked facts).value.2.Within tracked

theorem propagates_all {stmts : List Stmt}
    (each : ∀ stmt ∈ stmts, Propagates tracked stmt) {facts : Facts}
    (within : facts.Within tracked) :
    List.Forall₂ (Becomes tracked) stmts
        (propagateAll tracked stmts facts).value.1 ∧
      (propagateAll tracked stmts facts).value.2.Within tracked := by
  induction stmts generalizing facts with
  | nil => exact ⟨.nil, within⟩
  | cons stmt rest ih =>
      obtain ⟨here, after⟩ := each stmt (by simp) within
      obtain ⟨others, final⟩ :=
        ih (fun stmt member => each stmt (by simp [member])) after
      exact ⟨.cons here others, final⟩

theorem propagates_assign (span : Span) (target value : Expr) :
    Propagates tracked (.assign span target value) := by
  intro facts within
  have onValue (target : Expr) : Becomes tracked (.assign span target value)
      (.assign span target (value.propagate facts).value) :=
    .value span target (Expr.becomes_propagate within value)
  cases target with
  | var attr name => exact ⟨onValue _, within.assign name _⟩
  | index attr array position =>
      have onTarget : Becomes tracked
          (.assign span (.index attr array position) value)
          (.assign span (.index attr (array.propagate facts).value
            (position.propagate facts).value) value) :=
        .target span value (fun _ _ => by simp [Expr.skipParens])
          (((Expr.becomes_propagate within array).array attr position).trans
            ((Expr.becomes_propagate within position).position attr _))
      exact ⟨onTarget.trans (onValue _), within⟩
  | _ => exact ⟨onValue _, within⟩

theorem propagates (stmt : Stmt) : Propagates tracked stmt := by
  induction stmt with
  | block span body ih =>
      intro facts within
      obtain ⟨each, after⟩ := propagates_all ih within
      exact ⟨becomes_members span each, after⟩
  | assign span target value => exact propagates_assign span target value
  | expr span value =>
      exact fun facts within =>
        ⟨.expr span (Expr.becomes_propagate within value), within⟩
  | ret span value =>
      intro facts within
      cases value with
      | none => exact ⟨.refl _, within⟩
      | some value =>
          exact ⟨.ret span (Expr.becomes_propagate within value), within⟩
  | ifThen span cond onTrue ih =>
      intro facts within
      obtain ⟨becomes, after⟩ := ih within
      exact ⟨.ifThen span (Expr.becomes_propagate within cond) becomes,
        after.filter _⟩
  | ifElse span cond onTrue onFalse ihTrue ihFalse =>
      intro facts within
      obtain ⟨becomesTrue, after⟩ := ihTrue within
      obtain ⟨becomesFalse, _⟩ := ihFalse within
      exact ⟨.ifElse span (Expr.becomes_propagate within cond) becomesTrue
        becomesFalse, after.filter _⟩
  | loop span cond body ih =>
      intro facts within
      obtain ⟨becomes, _⟩ := ih (within.filter fun fact =>
        !body.names.contains fact.1)
      exact ⟨.loop span (Expr.becomes_propagate (within.filter _) cond)
        becomes, within.filter _⟩

end Stmt

/-! ## Programs -/

structure Method.Becomes (method method' : Method) : Prop where
  declared : method' = { method with body := method'.body }
  body : Stmt.Becomes method.tracked (.block {} method.body)
    (.block {} method'.body)

namespace Method.Becomes

variable {first second third : Method}

theorem refl (method : Method) : method.Becomes method := ⟨rfl, .refl _⟩

theorem trans (h : first.Becomes second) (h' : second.Becomes third) :
    first.Becomes third where
  declared := by rw [h'.declared, h.declared]
  body := by
    have same : second.tracked = first.tracked := by
      rw [h.declared]
      rfl
    exact h.body.trans (same ▸ h'.body)

theorem fold (method : Method) : method.Becomes method.fold.value :=
  ⟨rfl, Stmt.becomes_members {} (Stmt.forall₂_foldAll fun stmt _ =>
    Stmt.becomes_fold stmt)⟩

theorem propagate (method : Method) : method.Becomes method.propagate.value :=
  ⟨rfl, Stmt.becomes_members {} (Stmt.propagates_all (fun stmt _ =>
    Stmt.propagates stmt) (fun _ member => by simp at member)).1⟩

end Method.Becomes

structure Program.Becomes (program program' : Program) : Prop where
  declared : program' = { program with
    declared := { program.declared with methods := program'.declared.methods } }
  methods : List.Forall₂ Method.Becomes program.declared.methods
    program'.declared.methods

namespace Program

variable {first second third : Program}

theorem Becomes.refl (program : Program) : program.Becomes program :=
  ⟨rfl, List.forall₂_same.mpr fun method _ => .refl method⟩

theorem Becomes.trans (h : first.Becomes second) (h' : second.Becomes third) :
    first.Becomes third where
  declared := by rw [h'.declared, h.declared]
  methods :=
    forall₂_trans (fun _ _ _ first second => first.trans second) h.methods
      h'.methods

theorem becomes_round (program : Program) :
    program.Becomes program.round.program where
  declared := rfl
  methods := by
    simp only [round, fold, propagate, Method.foldAll_value,
      Method.propagateAll_value, Counted.value_bind, Counted.value_pure,
      List.map_map, List.forall₂_map_right_iff]
    exact List.forall₂_same.mpr fun method _ =>
      (Method.Becomes.fold method).trans (.propagate _)

theorem becomes_rounds (program : Program) (more : Nat) :
    program.Becomes (program.rounds more).program := by
  induction more generalizing program with
  | zero => exact becomes_round program
  | succ more ih =>
      rw [rounds]
      split
      · exact becomes_round program
      · exact (becomes_round program).trans (ih _)

theorem becomes_prepare (program : Program) (options : Options) :
    program.Becomes (program.prepare options).program := by
  rw [prepare]
  split
  · exact becomes_rounds program _
  · exact .refl program

end Program

end Tree

end JavaMinus
