import JavaMinus.Constants.Counted
import JavaMinus.Tree.Basic

/-!
# Constant folding

Arithmetic over int literals is replaced by its value, innermost operations
first.  A division by a literal zero stays, so that it still fails when the
program runs.
-/

namespace JavaMinus.Tree

namespace Expr

/-- An operation whose operands are already folded. -/
def foldBinary (attr : Attr) (op : Operator) (left right : Expr) :
    Counted Expr :=
  match left.literal?, right.literal? with
  | some first, some second =>
      match op.compute? first second with
      | some value => .replaced (.int attr value)
      | none => pure (.binary attr op left right)
  | _, _ => pure (.binary attr op left right)

mutual

def fold : Expr → Counted Expr
  | .binary attr op left right => do
      let left ← left.fold
      let right ← right.fold
      foldBinary attr op left right
  | .not attr operand => do
      let operand ← operand.fold
      pure (.not attr operand)
  | .paren attr inner => do
      let inner ← inner.fold
      pure (.paren attr inner)
  | .call attr receiver method args => do
      let receiver ← receiver.fold
      let args ← foldAll args
      pure (.call attr receiver method args)
  | .newArray attr size => do
      let size ← size.fold
      pure (.newArray attr size)
  | .arrayLiteral attr elements => do
      let elements ← foldAll elements
      pure (.arrayLiteral attr elements)
  | .index attr array position => do
      let array ← array.fold
      let position ← position.fold
      pure (.index attr array position)
  | .length attr array => do
      let array ← array.fold
      pure (.length attr array)
  | expr => pure expr

def foldAll : List Expr → Counted (List Expr)
  | [] => pure []
  | expr :: rest => do
      let expr ← expr.fold
      let rest ← foldAll rest
      pure (expr :: rest)

end

end Expr

namespace Stmt

mutual

def fold : Stmt → Counted Stmt
  | .block span body => do
      let body ← foldAll body
      pure (.block span body)
  | .assign span target value => do
      let target ← target.fold
      let value ← value.fold
      pure (.assign span target value)
  | .expr span value => do
      let value ← value.fold
      pure (.expr span value)
  | .ret span (some value) => do
      let value ← value.fold
      pure (.ret span (some value))
  | .ret span none => pure (.ret span none)
  | .ifThen span cond onTrue => do
      let cond ← cond.fold
      let onTrue ← onTrue.fold
      pure (.ifThen span cond onTrue)
  | .ifElse span cond onTrue onFalse => do
      let cond ← cond.fold
      let onTrue ← onTrue.fold
      let onFalse ← onFalse.fold
      pure (.ifElse span cond onTrue onFalse)
  | .loop span cond body => do
      let cond ← cond.fold
      let body ← body.fold
      pure (.loop span cond body)

def foldAll : List Stmt → Counted (List Stmt)
  | [] => pure []
  | stmt :: rest => do
      let stmt ← stmt.fold
      let rest ← foldAll rest
      pure (stmt :: rest)

end

end Stmt

def Method.fold (method : Method) : Counted Method := do
  let body ← Stmt.foldAll method.body
  pure { method with body }

def Method.foldAll : List Method → Counted (List Method)
  | [] => pure []
  | method :: rest => do
      let method ← method.fold
      let rest ← foldAll rest
      pure (method :: rest)

def Program.fold (program : Program) : Counted Program := do
  let methods ← Method.foldAll program.declared.methods
  pure { program with declared := { program.declared with methods } }

end JavaMinus.Tree
