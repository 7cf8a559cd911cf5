import JavaMinus.Compilation
import JavaMinus.Proofs.Constants.Counts

/-!
# Simplification comes to an end

Rounds that go on until nothing is replaced end, since every other round
leaves fewer operations or fewer reads.  What they end with has nothing left
for either pass; in particular all arithmetic on literals is done, except for
divisions by zero.
-/

namespace JavaMinus.Tree

/-! ## Rounds -/

def Round.IsQuiet (round : Round) : Prop :=
  round.folded = 0 ∧ round.propagated = 0

namespace Program

/--
Rounds follow each other until one is quiet.  This is the last one, and with
it there are so many.
-/
inductive EndsAfter : Program → Nat → Round → Prop where
  | last {program : Program} (quiet : program.round.IsQuiet) :
      EndsAfter program 1 program.round
  | more {program : Program} {count : Nat} {last : Round}
      (busy : ¬ program.round.IsQuiet) :
      EndsAfter program.round.program count last →
      EndsAfter program (count + 1) last

theorem round_operations (program : Program) :
    program.round.program.weight .operation + program.round.folded =
      program.weight .operation := by
  have folded := program.fold_replaces.weights .operation
  have kept := program.fold.value.propagate_replaces.weights .operation
  simp only [reduceCtorEq, if_true, if_false] at folded kept
  simp only [round]
  omega

theorem round_reads (program : Program) :
    program.round.program.weight .read + program.round.propagated =
      program.weight .read := by
  have kept := program.fold_replaces.weights .read
  have propagated := program.fold.value.propagate_replaces.weights .read
  simp only [reduceCtorEq, if_true, if_false] at kept propagated
  simp only [round]
  omega

theorem passes_of_quiet {program : Program} (quiet : program.round.IsQuiet) :
    program.fold = pure program ∧ program.propagate = pure program := by
  have folded : program.fold.value = program :=
    program.fold_replaces.unchanged quiet.1
  have count : program.propagate.count = 0 := by
    have none : program.fold.value.propagate.count = 0 := quiet.2
    rwa [folded] at none
  have propagated : program.propagate.value = program :=
    program.propagate_replaces.unchanged count
  exact ⟨congrArg₂ Counted.mk folded quiet.1,
    congrArg₂ Counted.mk propagated count⟩

theorem round_of_quiet {program : Program} (quiet : program.round.IsQuiet) :
    program.round.program = program := by
  obtain ⟨folded, propagated⟩ := passes_of_quiet quiet
  simp only [round, folded, Counted.value_pure, propagated]

/-- The weight falls in every round but the last. -/
theorem endsAfter_rounds {program : Program} {more : Nat}
    (enough : program.weight .operation + program.weight .read ≤ more) :
    ∃ count ≤ more + 1, program.EndsAfter count (program.rounds more) := by
  induction more generalizing program with
  | zero =>
      have operations := program.round_operations
      have reads := program.round_reads
      have quiet : program.round.IsQuiet := ⟨by omega, by omega⟩
      exact ⟨1, by omega, .last quiet⟩
  | succ more ih =>
      rw [rounds]
      split
      next quiet => exact ⟨1, by omega, .last quiet⟩
      next busy =>
        have operations := program.round_operations
        have reads := program.round_reads
        have less : program.round.program.weight .operation +
            program.round.program.weight .read ≤ more := by
          have busy : program.round.folded + program.round.propagated ≠ 0 :=
            fun none => busy ⟨by omega, by omega⟩
          omega
        obtain ⟨count, few, ends⟩ := ih less
        exact ⟨count + 1, by omega, .more busy ends⟩

theorem EndsAfter.settled {program : Program} {count : Nat} {last : Round}
    (h : program.EndsAfter count last) :
    last.program.round.IsQuiet := by
  induction h with
  | last quiet => rwa [round_of_quiet quiet]
  | more _ _ ih => exact ih

theorem rounds_of_quiet {program : Program} (quiet : program.round.IsQuiet)
    (more : Nat) : (program.rounds more).program = program := by
  cases more with
  | zero => exact round_of_quiet quiet
  | succ more =>
      rw [rounds]
      exact (congrArg Round.program (if_pos quiet)).trans (round_of_quiet quiet)

end Program

/-! ## Folded programs -/

/-- Arithmetic on two literals, other than a division by zero. -/
def Expr.isFoldable : Expr → Bool
  | .binary _ op left right =>
      match left.skipParens, right.skipParens with
      | .int _ _, .int _ divisor =>
          op.isArithmetic && !(op = .div && divisor = 0)
      | _, _ => false
  | _ => false

namespace Expr

theorem literal?_of_isFoldable {attr : Attr} {op : Operator}
    {left right : Expr} (h : (binary attr op left right).isFoldable = true) :
    ∃ first second value, left.literal? = some first ∧
      right.literal? = some second ∧ op.compute? first second = some value := by
  rw [isFoldable] at h
  split at h
  next _ first _ second isLeft isRight =>
    refine ⟨first, second, ?_⟩
    have computed : ∃ value, op.compute? first second = some value := by
      cases op <;> simp_all [Operator.isArithmetic, Operator.compute?]
    simpa [literal?, isLeft, isRight] using computed
  next => contradiction

theorem count_foldBinary (attr : Attr) (op : Operator) {left right : Expr}
    (hleft : left.count isFoldable = 0) (hright : right.count isFoldable = 0) :
    (foldBinary attr op left right).value.count isFoldable = 0 := by
  have kept (settled : (binary attr op left right).isFoldable = false) :
      (binary attr op left right).count isFoldable = 0 := by
    simp [count, hleft, hright, settled]
  rw [foldBinary]
  split
  next first second isFirst isSecond =>
    split
    next value _ => rfl
    next failed =>
      refine kept (Bool.eq_false_iff.mpr fun foldable => ?_)
      obtain ⟨_, _, value, isFirst', isSecond', computed⟩ :=
        literal?_of_isFoldable foldable
      rw [isFirst] at isFirst'
      rw [isSecond] at isSecond'
      cases isFirst'
      cases isSecond'
      simp [failed] at computed
  next noLiterals =>
    refine kept (Bool.eq_false_iff.mpr fun foldable => ?_)
    obtain ⟨first, second, _, isFirst, isSecond, _⟩ :=
      literal?_of_isFoldable foldable
    exact noLiterals first second isFirst isSecond

theorem count_foldAll {exprs : List Expr}
    (each : ∀ expr ∈ exprs, expr.fold.value.count isFoldable = 0) :
    countAll isFoldable (foldAll exprs).value = 0 := by
  induction exprs with
  | nil => rfl
  | cons expr rest ih =>
      have others := ih fun expr member => each expr (by simp [member])
      simp [foldAll, countAll, each expr (by simp), others]

theorem count_fold (expr : Expr) : expr.fold.value.count isFoldable = 0 := by
  induction expr with
  | binary attr op left right ihLeft ihRight =>
      exact count_foldBinary attr op ihLeft ihRight
  | call attr receiver method args ih ihArgs =>
      simp [fold, count, isFoldable, ih, count_foldAll ihArgs]
  | arrayLiteral attr elements ih =>
      simp [fold, count, isFoldable, count_foldAll ih]
  | not attr inner ih | paren attr inner ih | newArray attr inner ih
  | length attr inner ih => simp [fold, count, isFoldable, ih]
  | index attr array position ihArray ihPosition =>
      simp [fold, count, isFoldable, ihArray, ihPosition]
  | int | bool | var | self | newObject => rfl

end Expr

namespace Stmt

open JavaMinus.Tree.Expr (isFoldable count_fold)

theorem count_foldAll {stmts : List Stmt}
    (each : ∀ stmt ∈ stmts, stmt.fold.value.count isFoldable = 0) :
    countAll isFoldable (foldAll stmts).value = 0 := by
  induction stmts with
  | nil => rfl
  | cons stmt rest ih =>
      have others := ih fun stmt member => each stmt (by simp [member])
      simp [foldAll, countAll, each stmt (by simp), others]

theorem count_fold (stmt : Stmt) : stmt.fold.value.count isFoldable = 0 := by
  induction stmt with
  | block span body ih => exact count_foldAll ih
  | ret span value =>
      cases value with
      | none => rfl
      | some value => exact Expr.count_fold value
  | assign span target value => simp [fold, count, Expr.count_fold]
  | expr span value => exact Expr.count_fold value
  | ifThen span cond onTrue ih => simp [fold, count, Expr.count_fold, ih]
  | ifElse span cond onTrue onFalse ihTrue ihFalse =>
      simp [fold, count, Expr.count_fold, ihTrue, ihFalse]
  | loop span cond body ih => simp [fold, count, Expr.count_fold, ih]

end Stmt

theorem Program.count_fold (program : Program) :
    program.fold.value.count Expr.isFoldable = 0 := by
  have all (methods : List Method) :
      Method.countAll Expr.isFoldable (Method.foldAll methods).value = 0 := by
    induction methods with
    | nil => rfl
    | cons method rest ih =>
        have body : Stmt.countAll Expr.isFoldable
            (Stmt.foldAll method.body).value = 0 :=
          Stmt.count_foldAll fun stmt _ => Stmt.count_fold stmt
        simp [Method.foldAll, Method.fold, Method.countAll, body, ih]
  exact all _

namespace Program

/--
Both passes count their replacements exactly, so that rounds of them end, and
they end with a program that neither pass nor another simplification changes
and in which no arithmetic on literals is left but divisions by zero.
-/
theorem prepare_reaches_fixpoint (program : Program) (emitIr : Bool) :
    let options : Options := { optimize := true, emitIr }
    let last := program.prepare options
    let result := last.program
    (program.fold.value.count Expr.isBinary + program.fold.count =
        program.count Expr.isBinary ∧
      (program.fold.count = 0 → program.fold.value = program)) ∧
    (program.propagate.value.count Expr.isVar + program.propagate.count =
        program.count Expr.isVar ∧
      program.propagate.value.count Expr.isBinary =
        program.count Expr.isBinary ∧
      (program.propagate.count = 0 → program.propagate.value = program)) ∧
    (∃ rounds ≤ program.count Expr.isBinary + program.count Expr.isVar + 1,
      program.EndsAfter rounds last) ∧
    result.fold = pure result ∧ result.propagate = pure result ∧
    (result.prepare options).program = result ∧
    result.count Expr.isFoldable = 0 := by
  intro options last result
  obtain ⟨rounds, few, ends⟩ := endsAfter_rounds
    (Nat.le_refl (program.weight .operation + program.weight .read))
  have quiet : result.round.IsQuiet := ends.settled
  obtain ⟨folded, propagated⟩ := passes_of_quiet quiet
  refine ⟨⟨?_, program.fold_replaces.unchanged⟩,
    ⟨?_, ?_, program.propagate_replaces.unchanged⟩, ⟨rounds, few, ends⟩,
    folded, propagated, rounds_of_quiet quiet _, ?_⟩
  · exact program.fold_replaces.weights .operation
  · exact program.propagate_replaces.weights .read
  · exact program.propagate_replaces.weights .operation
  · have settled := result.count_fold
    rwa [folded] at settled

end Program

end JavaMinus.Tree
