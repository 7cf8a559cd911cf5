import JavaMinus.Tree.Basic

/-!
# Nodes and names of a tree

How many expression nodes of a kind a tree has, which variables a statement
names, and which it assigns.
-/

namespace JavaMinus.Tree

/-! ## Counting nodes -/

namespace Expr

def isBinary : Expr → Bool
  | .binary _ _ _ _ => true
  | _ => false

def isVar : Expr → Bool
  | .var _ _ => true
  | _ => false

mutual

def count (test : Expr → Bool) : Expr → Nat
  | expr@(.binary _ _ first second) | expr@(.index _ first second) =>
      (test expr).toNat + first.count test + second.count test
  | expr@(.not _ inner) | expr@(.paren _ inner) | expr@(.newArray _ inner)
  | expr@(.length _ inner) => (test expr).toNat + inner.count test
  | expr@(.call _ receiver _ args) =>
      (test expr).toNat + receiver.count test + countAll test args
  | expr@(.arrayLiteral _ elements) =>
      (test expr).toNat + countAll test elements
  | expr => (test expr).toNat

def countAll (test : Expr → Bool) : List Expr → Nat
  | [] => 0
  | expr :: rest => expr.count test + countAll test rest

end

end Expr

namespace Stmt

mutual

def count (test : Expr → Bool) : Stmt → Nat
  | .block _ body => countAll test body
  | .assign _ target value => target.count test + value.count test
  | .expr _ value => value.count test
  | .ret _ none => 0
  | .ret _ (some value) => value.count test
  | .ifThen _ cond onTrue => cond.count test + onTrue.count test
  | .ifElse _ cond onTrue onFalse =>
      cond.count test + onTrue.count test + onFalse.count test
  | .loop _ cond body => cond.count test + body.count test

def countAll (test : Expr → Bool) : List Stmt → Nat
  | [] => 0
  | stmt :: rest => stmt.count test + countAll test rest

end

end Stmt

def Method.countAll (test : Expr → Bool) : List Method → Nat
  | [] => 0
  | method :: rest => Stmt.countAll test method.body + countAll test rest

def Program.count (test : Expr → Bool) (program : Program) : Nat :=
  Method.countAll test program.declared.methods

/-! ## Names -/

namespace Expr

mutual

def names : Expr → List String
  | .var _ name => [name]
  | .binary _ _ first second | .index _ first second =>
      first.names ++ second.names
  | .not _ inner | .paren _ inner | .newArray _ inner | .length _ inner =>
      inner.names
  | .call _ receiver _ args => receiver.names ++ namesAll args
  | .arrayLiteral _ elements => namesAll elements
  | .int _ _ | .bool _ _ | .self _ | .newObject _ _ => []

def namesAll : List Expr → List String
  | [] => []
  | expr :: rest => expr.names ++ namesAll rest

end

end Expr

namespace Stmt

mutual

def names : Stmt → List String
  | .block _ body => namesAll body
  | .assign _ target value => target.names ++ value.names
  | .expr _ value => value.names
  | .ret _ none => []
  | .ret _ (some value) => value.names
  | .ifThen _ cond onTrue => cond.names ++ onTrue.names
  | .ifElse _ cond onTrue onFalse =>
      cond.names ++ onTrue.names ++ onFalse.names
  | .loop _ cond body => cond.names ++ body.names

def namesAll : List Stmt → List String
  | [] => []
  | stmt :: rest => stmt.names ++ namesAll rest

end

mutual

/-- The variables that stand alone on the left of an assignment. -/
def assigned : Stmt → List String
  | .block _ body => assignedAll body
  | .assign _ (.var _ name) _ => [name]
  | .assign _ _ _ | .expr _ _ | .ret _ _ => []
  | .ifThen _ _ onTrue => onTrue.assigned
  | .ifElse _ _ onTrue onFalse => onTrue.assigned ++ onFalse.assigned
  | .loop _ _ body => body.assigned

def assignedAll : List Stmt → List String
  | [] => []
  | stmt :: rest => stmt.assigned ++ assignedAll rest

end

end Stmt

end JavaMinus.Tree
