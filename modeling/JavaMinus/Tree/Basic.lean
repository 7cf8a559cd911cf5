import JavaMinus.Operator
import JavaMinus.Span

/-!
# Attributed trees

The tree of one class, every expression of which carries the type that
semantic analysis gave it.  Nothing here checks those types: a tree is taken
as it comes.
-/

namespace JavaMinus.Tree

/-- What semantic analysis attached to an expression. -/
structure Attr where
  ty : Ty
  span : Span := {}
  deriving DecidableEq, Inhabited

inductive Expr where
  | int (attr : Attr) (value : Int32)
  | bool (attr : Attr) (value : Bool)
  | var (attr : Attr) (name : String)
  | self (attr : Attr)
  | binary (attr : Attr) (op : Operator) (left right : Expr)
  | not (attr : Attr) (operand : Expr)
  | paren (attr : Attr) (inner : Expr)
  | call (attr : Attr) (receiver : Expr) (method : String) (args : List Expr)
  | newObject (attr : Attr) (className : String)
  | newArray (attr : Attr) (size : Expr)
  | arrayLiteral (attr : Attr) (elements : List Expr)
  | index (attr : Attr) (array position : Expr)
  | length (attr : Attr) (array : Expr)
  deriving Inhabited

inductive Stmt where
  | block (span : Span) (body : List Stmt)
  | assign (span : Span) (target value : Expr)
  | expr (span : Span) (value : Expr)
  | ret (span : Span) (value : Option Expr)
  | ifThen (span : Span) (cond : Expr) (onTrue : Stmt)
  | ifElse (span : Span) (cond : Expr) (onTrue onFalse : Stmt)
  | loop (span : Span) (cond : Expr) (body : Stmt)
  deriving Inhabited

structure Variable where
  name : String
  ty : Ty
  span : Span := {}
  deriving DecidableEq, Inhabited

structure Method where
  name : String
  isPublic : Bool := true
  isStatic : Bool := false
  isFinal : Bool := false
  returnTy : Ty
  params : List Variable := []
  locals : List Variable := []
  body : List Stmt := []
  span : Span := {}
  deriving Inhabited

structure Class where
  name : String
  superclass : Option String := none
  fields : List Variable := []
  methods : List Method := []
  span : Span := {}
  deriving Inhabited

structure Import where
  path : List String
  span : Span := {}
  deriving DecidableEq, Inhabited

structure Program where
  imports : List Import := []
  declared : Class
  span : Span := {}
  deriving Inhabited

/-! ## Expressions -/

namespace Expr

def attr : Expr → Attr
  | .int attr _ | .bool attr _ | .var attr _ | .self attr
  | .binary attr _ _ _ | .not attr _ | .paren attr _ | .call attr _ _ _
  | .newObject attr _ | .newArray attr _ | .arrayLiteral attr _
  | .index attr _ _ | .length attr _ => attr

def ty (expr : Expr) : Ty := expr.attr.ty

def span (expr : Expr) : Span := expr.attr.span

def withAttr (attr : Attr) : Expr → Expr
  | .int _ value => .int attr value
  | .bool _ value => .bool attr value
  | .var _ name => .var attr name
  | .self _ => .self attr
  | .binary _ op left right => .binary attr op left right
  | .not _ operand => .not attr operand
  | .paren _ inner => .paren attr inner
  | .call _ receiver method args => .call attr receiver method args
  | .newObject _ className => .newObject attr className
  | .newArray _ size => .newArray attr size
  | .arrayLiteral _ elements => .arrayLiteral attr elements
  | .index _ array position => .index attr array position
  | .length _ array => .length attr array

def withSpan (span : Span) (expr : Expr) : Expr :=
  expr.withAttr { expr.attr with span }

/-- The expression inside any number of enclosing parentheses. -/
def skipParens : Expr → Expr
  | .paren _ inner => inner.skipParens
  | expr => expr

def literal? (expr : Expr) : Option Int32 :=
  match expr.skipParens with
  | .int _ value => some value
  | _ => none

def reads (name : String) (expr : Expr) : Bool :=
  match expr.skipParens with
  | .var _ other => other = name
  | _ => false

end Expr

/-! ## Statements -/

namespace Stmt

def span : Stmt → Span
  | .block span _ | .assign span _ _ | .expr span _ | .ret span _
  | .ifThen span _ _ | .ifElse span _ _ _ | .loop span _ _ => span

def isReturn : Stmt → Bool
  | .ret _ _ => true
  | _ => false

/-- The expressions that are direct parts of a statement, in source order. -/
def parts : Stmt → List Expr
  | .block _ _ => []
  | .assign _ target value => [target, value]
  | .expr _ value => [value]
  | .ret _ value => value.toList
  | .ifThen _ cond _ | .ifElse _ cond _ _ | .loop _ cond _ => [cond]

mutual

def preorder : Stmt → List Stmt
  | stmt@(.block _ body) => stmt :: preorderAll body
  | stmt@(.ifThen _ _ onTrue) => stmt :: onTrue.preorder
  | stmt@(.ifElse _ _ onTrue onFalse) =>
      stmt :: (onTrue.preorder ++ onFalse.preorder)
  | stmt@(.loop _ _ body) => stmt :: body.preorder
  | stmt => [stmt]

def preorderAll : List Stmt → List Stmt
  | [] => []
  | stmt :: rest => stmt.preorder ++ preorderAll rest

end

end Stmt

/-! ## Imports -/

namespace Import

/-- The import written as a path with dots, cut at every dot. -/
def ofDotted (path : String) : Import := { path := path.splitOn "." }

def dotted (decl : Import) : String := ".".intercalate decl.path

end Import

end JavaMinus.Tree
