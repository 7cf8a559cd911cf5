import JavaMinus.Constants.Folding
import JavaMinus.Constants.Propagation

/-!
# Rounds of simplification

Folding and propagation enable each other, so they alternate until neither
changes the tree.  A round that replaces anything removes an operation or a
read of a variable, and neither pass adds one: their number bounds the number
of rounds.
-/

namespace JavaMinus.Tree

structure Round where
  program : Program
  folded : Nat
  propagated : Nat

namespace Program

def round (program : Program) : Round :=
  let folded := program.fold
  let propagated := folded.value.propagate
  ⟨propagated.value, folded.count, propagated.count⟩

/-- Rounds until one replaces nothing, but no more than `more` further ones. -/
def rounds : Nat → Program → Round
  | 0, program => program.round
  | more + 1, program =>
      let result := program.round
      if result.folded = 0 ∧ result.propagated = 0 then result
      else rounds more result.program

def simplify (program : Program) : Round :=
  program.rounds (program.count Expr.isBinary + program.count Expr.isVar)

end Program

end JavaMinus.Tree
