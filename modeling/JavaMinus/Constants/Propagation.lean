import JavaMinus.Constants.Counted
import JavaMinus.Tree.Nodes

/-!
# Constant propagation

A read of an int variable is replaced by the literal that was last assigned
to it.  The walk follows the statements of a method in order and carries the
facts known so far.  After a conditional the facts are those on which both
branches agree.  In a loop no fact is used about a variable that the body
names, and after it none is kept about a variable that the body assigns.
-/

namespace JavaMinus.Tree

/-- The values that variables are known to hold, each named once. -/
abbrev Facts := List (String × Int32)

namespace Facts

def forget (name : String) (facts : Facts) : Facts :=
  facts.filter fun (known, _) => known ≠ name

def learn (name : String) (value : Int32) (facts : Facts) : Facts :=
  (name, value) :: facts.forget name

def without (names : List String) (facts : Facts) : Facts :=
  facts.filter fun (known, _) => !names.contains known

def agreeing (others facts : Facts) : Facts :=
  facts.filter fun (known, value) => others.lookup known = some value

/--
The facts after an assignment.  Only tracked variables are learnt about, and
only from a literal.
-/
def assign (tracked : List String) (name : String) (value : Expr)
    (facts : Facts) : Facts :=
  match value.literal? with
  | some literal =>
      if tracked.contains name then facts.learn name literal
      else facts.forget name
  | none => facts.forget name

end Facts

namespace Expr

mutual

def propagate (facts : Facts) : Expr → Counted Expr
  | .var attr name =>
      match facts.lookup name with
      | some value => .replaced (.int attr value)
      | none => pure (.var attr name)
  | .binary attr op left right => do
      let left ← left.propagate facts
      let right ← right.propagate facts
      pure (.binary attr op left right)
  | .not attr operand => do
      let operand ← operand.propagate facts
      pure (.not attr operand)
  | .paren attr inner => do
      let inner ← inner.propagate facts
      pure (.paren attr inner)
  | .call attr receiver method args => do
      let receiver ← receiver.propagate facts
      let args ← propagateAll facts args
      pure (.call attr receiver method args)
  | .newArray attr size => do
      let size ← size.propagate facts
      pure (.newArray attr size)
  | .arrayLiteral attr elements => do
      let elements ← propagateAll facts elements
      pure (.arrayLiteral attr elements)
  | .index attr array position => do
      let array ← array.propagate facts
      let position ← position.propagate facts
      pure (.index attr array position)
  | .length attr array => do
      let array ← array.propagate facts
      pure (.length attr array)
  | expr => pure expr

def propagateAll (facts : Facts) : List Expr → Counted (List Expr)
  | [] => pure []
  | expr :: rest => do
      let expr ← expr.propagate facts
      let rest ← propagateAll facts rest
      pure (expr :: rest)

end

/-- In an assigned expression only the parts of an element are read. -/
def propagateTarget (facts : Facts) : Expr → Counted Expr
  | .index attr array position => do
      let array ← array.propagate facts
      let position ← position.propagate facts
      pure (.index attr array position)
  | target => pure target

end Expr

namespace Stmt

mutual

def propagate (tracked : List String) :
    Stmt → Facts → Counted (Stmt × Facts)
  | .block span body, facts => do
      let (body, facts) ← propagateAll tracked body facts
      pure (.block span body, facts)
  | .assign span target value, facts => do
      let value ← value.propagate facts
      let target ← target.propagateTarget facts
      let facts := match target with
        | .var _ name => facts.assign tracked name value
        | _ => facts
      pure (.assign span target value, facts)
  | .expr span value, facts => do
      let value ← value.propagate facts
      pure (.expr span value, facts)
  | .ret span (some value), facts => do
      let value ← value.propagate facts
      pure (.ret span (some value), facts)
  | .ret span none, facts => pure (.ret span none, facts)
  | .ifThen span cond onTrue, facts => do
      let cond ← cond.propagate facts
      let (onTrue, afterTrue) ← onTrue.propagate tracked facts
      pure (.ifThen span cond onTrue, facts.agreeing afterTrue)
  | .ifElse span cond onTrue onFalse, facts => do
      let cond ← cond.propagate facts
      let (onTrue, afterTrue) ← onTrue.propagate tracked facts
      let (onFalse, afterFalse) ← onFalse.propagate tracked facts
      pure (.ifElse span cond onTrue onFalse, afterFalse.agreeing afterTrue)
  | .loop span cond body, facts => do
      let inside := facts.without body.names
      let cond ← cond.propagate inside
      let after := facts.without body.assigned
      let (body, _) ← body.propagate tracked inside
      pure (.loop span cond body, after)

def propagateAll (tracked : List String) :
    List Stmt → Facts → Counted (List Stmt × Facts)
  | [], facts => pure ([], facts)
  | stmt :: rest, facts => do
      let (stmt, facts) ← stmt.propagate tracked facts
      let (rest, facts) ← propagateAll tracked rest facts
      pure (stmt :: rest, facts)

end

end Stmt

namespace Method

/--
The int parameters and locals.  Anything else may change without an
assignment in the body.
-/
def tracked (method : Method) : List String :=
  ((method.params ++ method.locals).filter (·.ty = .int)).map (·.name)

def propagate (method : Method) : Counted Method := do
  let (body, _) ← Stmt.propagateAll method.tracked method.body []
  pure { method with body }

def propagateAll : List Method → Counted (List Method)
  | [] => pure []
  | method :: rest => do
      let method ← method.propagate
      let rest ← propagateAll rest
      pure (method :: rest)

end Method

def Program.propagate (program : Program) : Counted Program := do
  let methods ← Method.propagateAll program.declared.methods
  pure { program with declared := { program.declared with methods } }

end JavaMinus.Tree
