import JavaMinus.Proofs.Constants.Congruence
import JavaMinus.Proofs.Tree.Induction

/-!
# How many nodes are replaced

Folding puts literals in the place of operations and propagation in that of
reads.  Each replacement leaves one node of that kind less and as many of the
other kind as before, so the count that a pass gives back is exact.
-/

namespace JavaMinus

namespace Tree

/-! ## Replacements -/

inductive Kind where
  | operation
  | read
  deriving DecidableEq

def Kind.test : Kind → Expr → Bool
  | .operation => Expr.isBinary
  | .read => Expr.isVar

/--
As many nodes of one kind are gone as were replaced, and none of the other
kind.  Where nothing was replaced, nothing has changed.
-/
structure Replaces {α : Type} (weight : Kind → α → Nat) (kind : Kind)
    (before after : α) (count : Nat) : Prop where
  weights : ∀ other, weight other after + (if other = kind then count else 0) =
    weight other before
  unchanged : count = 0 → after = before

namespace Replaces

variable {α β γ : Type} {first : Kind → α → Nat} {second : Kind → β → Nat}
  {whole : Kind → γ → Nat} {kind : Kind} {before after : α}
  {before' after' : β} {count count' : Nat}

theorem refl (value : α) : Replaces first kind value value 0 :=
  ⟨by simp, fun _ => rfl⟩

theorem trans {middle : α} (h : Replaces first kind before middle count)
    (h' : Replaces first kind middle after count') :
    Replaces first kind before after (count + count') where
  weights other := by
    have counted := h.weights other
    have counted' := h'.weights other
    by_cases same : other = kind
    · simp only [same, if_true] at counted counted' ⊢
      omega
    · simp only [same, if_false] at counted counted' ⊢
      omega
  unchanged none := by rw [h'.unchanged (by omega), h.unchanged (by omega)]

/-- A form weighs as much as what stands in it and something of its own. -/
theorem part (h : Replaces first kind before after count) (form : α → γ)
    (own : Kind → Nat)
    (adds : ∀ other value,
      whole other (form value) = own other + first other value) :
    Replaces whole kind (form before) (form after) count where
  weights other := by
    rw [adds, adds, Nat.add_assoc, h.weights other]
  unchanged none := by rw [h.unchanged none]

theorem parts (h : Replaces first kind before after count)
    (h' : Replaces second kind before' after' count') (form : α → β → γ)
    (own : Kind → Nat)
    (adds : ∀ other value value', whole other (form value value') =
      own other + first other value + second other value') :
    Replaces whole kind (form before before') (form after after')
      (count + count') where
  weights other := by
    have counted := h.weights other
    have counted' := h'.weights other
    rw [adds, adds]
    by_cases same : other = kind
    · simp only [same, if_true] at counted counted' ⊢
      omega
    · simp only [same, if_false] at counted counted' ⊢
      omega
  unchanged none := by rw [h.unchanged (by omega), h'.unchanged (by omega)]

end Replaces

/-! ## Expressions -/

namespace Expr

def weight (kind : Kind) : Expr → Nat := count kind.test

def weightAll (kind : Kind) : List Expr → Nat := countAll kind.test

end Expr

namespace Replaces

open JavaMinus.Tree.Expr (weight weightAll)

variable {kind : Kind} {expr expr' other other' : Expr}
  {exprs exprs' : List Expr} {n n' : Nat}

theorem cons (h : Replaces weight kind expr expr' n)
    (h' : Replaces weightAll kind exprs exprs' n') :
    Replaces weightAll kind (expr :: exprs) (expr' :: exprs') (n + n') :=
  h.parts h' List.cons (fun _ => 0) fun _ _ _ => by
    rw [Nat.zero_add]
    rfl

theorem binary (attr : Attr) (op : Operator)
    (h : Replaces weight kind expr expr' n)
    (h' : Replaces weight kind other other' n') :
    Replaces weight kind (.binary attr op expr other)
      (.binary attr op expr' other') (n + n') :=
  h.parts h' (Expr.binary attr op)
    (fun kind => (kind.test (.binary attr op expr other)).toNat)
    fun kind _ _ => by cases kind <;> rfl

theorem not (attr : Attr) (h : Replaces weight kind expr expr' n) :
    Replaces weight kind (.not attr expr) (.not attr expr') n :=
  h.part (Expr.not attr) (fun _ => 0) fun kind _ => by cases kind <;> rfl

theorem paren (attr : Attr) (h : Replaces weight kind expr expr' n) :
    Replaces weight kind (.paren attr expr) (.paren attr expr') n :=
  h.part (Expr.paren attr) (fun _ => 0) fun kind _ => by cases kind <;> rfl

theorem call (attr : Attr) (method : String)
    (h : Replaces weight kind expr expr' n)
    (h' : Replaces weightAll kind exprs exprs' n') :
    Replaces weight kind (.call attr expr method exprs)
      (.call attr expr' method exprs') (n + n') :=
  h.parts h' (fun receiver args => Expr.call attr receiver method args)
    (fun _ => 0) fun kind _ _ => by cases kind <;> rfl

theorem newArray (attr : Attr) (h : Replaces weight kind expr expr' n) :
    Replaces weight kind (.newArray attr expr) (.newArray attr expr') n :=
  h.part (Expr.newArray attr) (fun _ => 0) fun kind _ => by
    cases kind <;> rfl

theorem arrayLiteral (attr : Attr)
    (h : Replaces weightAll kind exprs exprs' n) :
    Replaces weight kind (.arrayLiteral attr exprs) (.arrayLiteral attr exprs')
      n :=
  h.part (Expr.arrayLiteral attr) (fun _ => 0) fun kind _ => by
    cases kind <;> rfl

theorem index (attr : Attr) (h : Replaces weight kind expr expr' n)
    (h' : Replaces weight kind other other' n') :
    Replaces weight kind (.index attr expr other) (.index attr expr' other')
      (n + n') :=
  h.parts h' (Expr.index attr) (fun _ => 0) fun kind _ _ => by
    cases kind <;> rfl

theorem length (attr : Attr) (h : Replaces weight kind expr expr' n) :
    Replaces weight kind (.length attr expr) (.length attr expr') n :=
  h.part (Expr.length attr) (fun _ => 0) fun kind _ => by cases kind <;> rfl

end Replaces

namespace Expr

theorem weight_of_literal {expr : Expr} {value : Int32}
    (h : expr.literal? = some value) (kind : Kind) : expr.weight kind = 0 := by
  induction expr with
  | int => cases kind <;> rfl
  | paren attr inner ih =>
      have inside := ih h
      cases kind <;>
        simpa [weight, count, Kind.test, isBinary, isVar] using inside
  | _ => simp [literal?, skipParens] at h

theorem foldBinary_replaces (attr : Attr) (op : Operator)
    (left right : Expr) :
    Replaces weight .operation (.binary attr op left right)
      (foldBinary attr op left right).value
      (foldBinary attr op left right).count := by
  rw [foldBinary]
  split
  next first second isFirst isSecond =>
    split
    next value _ =>
      have leftWeight := weight_of_literal isFirst
      have rightWeight := weight_of_literal isSecond
      refine ⟨fun other => ?_, fun none => nomatch none⟩
      specialize leftWeight other
      specialize rightWeight other
      cases other <;>
        simp_all [weight, count, Kind.test, isBinary, isVar,
          Counted.replaced]
    next => exact .refl _
  next => exact .refl _

theorem foldAll_replaces {exprs : List Expr}
    (each : ∀ expr ∈ exprs,
      Replaces weight .operation expr expr.fold.value expr.fold.count) :
    Replaces weightAll .operation exprs (foldAll exprs).value
      (foldAll exprs).count := by
  induction exprs with
  | nil => exact .refl _
  | cons expr rest ih =>
      exact (each expr (by simp)).cons
        (ih fun expr member => each expr (by simp [member]))

theorem fold_replaces (expr : Expr) :
    Replaces weight .operation expr expr.fold.value expr.fold.count := by
  induction expr with
  | binary attr op left right ihLeft ihRight =>
      have folded := (ihLeft.binary attr op ihRight).trans
        (foldBinary_replaces attr op _ _)
      rwa [Nat.add_assoc] at folded
  | not attr operand ih => exact ih.not attr
  | paren attr inner ih => exact ih.paren attr
  | call attr receiver method args ih ihArgs =>
      exact ih.call attr method (foldAll_replaces ihArgs)
  | newArray attr size ih => exact ih.newArray attr
  | arrayLiteral attr elements ih =>
      exact (foldAll_replaces ih).arrayLiteral attr
  | index attr array position ihArray ihPosition =>
      exact ihArray.index attr ihPosition
  | length attr array ih => exact ih.length attr
  | int | bool | var | self | newObject => exact .refl _

variable (facts : Facts)

theorem propagateAll_replaces {exprs : List Expr}
    (each : ∀ expr ∈ exprs, Replaces weight .read expr
      (expr.propagate facts).value (expr.propagate facts).count) :
    Replaces weightAll .read exprs (propagateAll facts exprs).value
      (propagateAll facts exprs).count := by
  induction exprs with
  | nil => exact .refl _
  | cons expr rest ih =>
      exact (each expr (by simp)).cons
        (ih fun expr member => each expr (by simp [member]))

theorem propagate_replaces (expr : Expr) :
    Replaces weight .read expr (expr.propagate facts).value
      (expr.propagate facts).count := by
  induction expr with
  | var attr name =>
      rw [propagate]
      split
      next value known =>
        refine ⟨fun other => ?_, fun none => nomatch none⟩
        cases other <;> rfl
      next => exact .refl _
  | binary attr op left right ihLeft ihRight =>
      exact ihLeft.binary attr op ihRight
  | not attr operand ih => exact ih.not attr
  | paren attr inner ih => exact ih.paren attr
  | call attr receiver method args ih ihArgs =>
      exact ih.call attr method (propagateAll_replaces facts ihArgs)
  | newArray attr size ih => exact ih.newArray attr
  | arrayLiteral attr elements ih =>
      exact (propagateAll_replaces facts ih).arrayLiteral attr
  | index attr array position ihArray ihPosition =>
      exact ihArray.index attr ihPosition
  | length attr array ih => exact ih.length attr
  | int | bool | self | newObject => exact .refl _

theorem propagateTarget_replaces (target : Expr) :
    Replaces weight .read target (target.propagateTarget facts).value
      (target.propagateTarget facts).count := by
  cases target with
  | index attr array position =>
      exact (propagate_replaces facts array).index attr
        (propagate_replaces facts position)
  | _ => exact .refl _

end Expr

/-! ## Statements -/

namespace Stmt

def weight (kind : Kind) : Stmt → Nat := count kind.test

def weightAll (kind : Kind) : List Stmt → Nat := countAll kind.test

end Stmt

namespace Replaces

open Stmt (weight weightAll)

variable {kind : Kind} {first first' second second' : Expr}
  {onTrue onTrue' onFalse onFalse' : Stmt} {body body' : List Stmt}
  {n n' m : Nat}

theorem stmts (h : Replaces weight kind onTrue onTrue' n)
    (h' : Replaces weightAll kind body body' n') :
    Replaces weightAll kind (onTrue :: body) (onTrue' :: body') (n + n') :=
  h.parts h' List.cons (fun _ => 0) fun _ _ _ => by
    rw [Nat.zero_add]
    rfl

theorem block (span : Span) (h : Replaces weightAll kind body body' n) :
    Replaces weight kind (.block span body) (.block span body') n :=
  h.part (Stmt.block span) (fun _ => 0) fun _ _ => (Nat.zero_add _).symm

theorem assign (span : Span) (h : Replaces Expr.weight kind first first' n)
    (h' : Replaces Expr.weight kind second second' n') :
    Replaces weight kind (.assign span first second)
      (.assign span first' second') (n + n') :=
  h.parts h' (Stmt.assign span) (fun _ => 0) fun _ _ _ => by
    rw [Nat.zero_add]
    rfl

theorem expr (span : Span) (h : Replaces Expr.weight kind first first' n) :
    Replaces weight kind (.expr span first) (.expr span first') n :=
  h.part (Stmt.expr span) (fun _ => 0) fun _ _ => (Nat.zero_add _).symm

theorem ret (span : Span) (h : Replaces Expr.weight kind first first' n) :
    Replaces weight kind (.ret span (some first)) (.ret span (some first'))
      n :=
  h.part (fun value => Stmt.ret span (some value)) (fun _ => 0)
    fun _ _ => (Nat.zero_add _).symm

theorem ifThen (span : Span) (h : Replaces Expr.weight kind first first' n)
    (h' : Replaces weight kind onTrue onTrue' n') :
    Replaces weight kind (.ifThen span first onTrue)
      (.ifThen span first' onTrue') (n + n') :=
  h.parts h' (Stmt.ifThen span) (fun _ => 0) fun _ _ _ => by
    rw [Nat.zero_add]
    rfl

theorem ifElse (span : Span) (h : Replaces Expr.weight kind first first' n)
    (h' : Replaces weight kind onTrue onTrue' n')
    (h'' : Replaces weight kind onFalse onFalse' m) :
    Replaces weight kind (.ifElse span first onTrue onFalse)
      (.ifElse span first' onTrue' onFalse') (n + (n' + m)) := by
  have onlyTrue : Replaces weight kind (.ifElse span first onTrue onFalse)
      (.ifElse span first' onTrue' onFalse) (n + n') :=
    h.parts h' (fun cond onTrue => Stmt.ifElse span cond onTrue onFalse)
      onFalse.weight fun other cond onTrue => by
        rw [Nat.add_assoc, Nat.add_comm]
        rfl
  have onlyFalse : Replaces weight kind (.ifElse span first' onTrue' onFalse)
      (.ifElse span first' onTrue' onFalse') m :=
    h''.part (Stmt.ifElse span first' onTrue')
      (fun other => first'.weight other + onTrue'.weight other)
      fun _ _ => rfl
  have both := onlyTrue.trans onlyFalse
  rwa [Nat.add_assoc] at both

theorem loop (span : Span) (h : Replaces Expr.weight kind first first' n)
    (h' : Replaces weight kind onTrue onTrue' n') :
    Replaces weight kind (.loop span first onTrue)
      (.loop span first' onTrue') (n + n') :=
  h.parts h' (Stmt.loop span) (fun _ => 0) fun _ _ _ => by
    rw [Nat.zero_add]
    rfl

end Replaces

namespace Stmt

theorem foldAll_replaces {stmts : List Stmt}
    (each : ∀ stmt ∈ stmts,
      Replaces weight .operation stmt stmt.fold.value stmt.fold.count) :
    Replaces weightAll .operation stmts (foldAll stmts).value
      (foldAll stmts).count := by
  induction stmts with
  | nil => exact .refl _
  | cons stmt rest ih =>
      exact (each stmt (by simp)).stmts
        (ih fun stmt member => each stmt (by simp [member]))

theorem fold_replaces (stmt : Stmt) :
    Replaces weight .operation stmt stmt.fold.value stmt.fold.count := by
  induction stmt with
  | block span body ih => exact (foldAll_replaces ih).block span
  | assign span target value =>
      exact (Expr.fold_replaces target).assign span (Expr.fold_replaces value)
  | expr span value => exact (Expr.fold_replaces value).expr span
  | ret span value =>
      cases value with
      | none => exact .refl _
      | some value => exact (Expr.fold_replaces value).ret span
  | ifThen span cond onTrue ih =>
      exact (Expr.fold_replaces cond).ifThen span ih
  | ifElse span cond onTrue onFalse ihTrue ihFalse =>
      exact (Expr.fold_replaces cond).ifElse span ihTrue ihFalse
  | loop span cond body ih => exact (Expr.fold_replaces cond).loop span ih

variable {tracked : List String}

theorem propagateAll_replaces {stmts : List Stmt}
    (each : ∀ stmt ∈ stmts, ∀ facts, Replaces weight .read stmt
      (stmt.propagate tracked facts).value.1
      (stmt.propagate tracked facts).count) (facts : Facts) :
    Replaces weightAll .read stmts (propagateAll tracked stmts facts).value.1
      (propagateAll tracked stmts facts).count := by
  induction stmts generalizing facts with
  | nil => exact .refl _
  | cons stmt rest ih =>
      exact (each stmt (by simp) facts).stmts
        (ih (fun stmt member => each stmt (by simp [member])) _)

theorem propagate_replaces (stmt : Stmt) (facts : Facts) :
    Replaces weight .read stmt (stmt.propagate tracked facts).value.1
      (stmt.propagate tracked facts).count := by
  induction stmt generalizing facts with
  | block span body ih => exact (propagateAll_replaces ih facts).block span
  | assign span target value =>
      have both := (Expr.propagateTarget_replaces facts target).assign span
        (Expr.propagate_replaces facts value)
      rwa [Nat.add_comm] at both
  | expr span value => exact (Expr.propagate_replaces facts value).expr span
  | ret span value =>
      cases value with
      | none => exact .refl _
      | some value => exact (Expr.propagate_replaces facts value).ret span
  | ifThen span cond onTrue ih =>
      exact (Expr.propagate_replaces facts cond).ifThen span (ih facts)
  | ifElse span cond onTrue onFalse ihTrue ihFalse =>
      exact (Expr.propagate_replaces facts cond).ifElse span (ihTrue facts)
        (ihFalse facts)
  | loop span cond body ih =>
      exact (Expr.propagate_replaces _ cond).loop span (ih _)

end Stmt

/-! ## Programs -/

namespace Method

def weightAll (kind : Kind) : List Method → Nat := countAll kind.test

theorem replaces_cons {kind : Kind} (method : Method) {body : List Stmt}
    {rest rest' : List Method} {n n' : Nat}
    (h : Replaces Stmt.weightAll kind method.body body n)
    (h' : Replaces weightAll kind rest rest' n') :
    Replaces weightAll kind (method :: rest) ({ method with body } :: rest')
      (n + n') :=
  h.parts h' (fun body rest => { method with body } :: rest) (fun _ => 0)
    fun _ _ _ => by
      rw [Nat.zero_add]
      rfl

theorem foldAll_replaces (methods : List Method) :
    Replaces weightAll .operation methods (foldAll methods).value
      (foldAll methods).count := by
  induction methods with
  | nil => exact .refl _
  | cons method rest ih =>
      exact replaces_cons method
        (Stmt.foldAll_replaces fun stmt _ => Stmt.fold_replaces stmt) ih

theorem propagateAll_replaces (methods : List Method) :
    Replaces weightAll .read methods (propagateAll methods).value
      (propagateAll methods).count := by
  induction methods with
  | nil => exact .refl _
  | cons method rest ih =>
      exact replaces_cons method (Stmt.propagateAll_replaces
        (fun stmt _ facts => Stmt.propagate_replaces stmt facts) []) ih

end Method

namespace Program

def weight (kind : Kind) (program : Program) : Nat := program.count kind.test

theorem replaces_methods {kind : Kind} (program : Program)
    {methods : List Method} {n : Nat}
    (h : Replaces Method.weightAll kind program.declared.methods methods n) :
    Replaces weight kind program
      { program with declared := { program.declared with methods } } n :=
  h.part (fun methods =>
    { program with declared := { program.declared with methods } })
    (fun _ => 0) fun _ _ => (Nat.zero_add _).symm

theorem fold_replaces (program : Program) :
    Replaces weight .operation program program.fold.value
      program.fold.count :=
  program.replaces_methods (Method.foldAll_replaces _)

theorem propagate_replaces (program : Program) :
    Replaces weight .read program program.propagate.value
      program.propagate.count :=
  program.replaces_methods (Method.propagateAll_replaces _)

end Program

end Tree

end JavaMinus
