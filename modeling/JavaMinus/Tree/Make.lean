import JavaMinus.Tree.Basic

/-!
# Building trees

Trees without source positions.  The type of an expression follows from its
form; only variables and calls are told theirs.
-/

namespace JavaMinus.Tree.Make

/-! ## Expressions -/

def int (value : Int32) : Expr := .int { ty := .int } value

def bool (value : Bool) : Expr := .bool { ty := .boolean } value

def var (name : String) (ty : Ty) : Expr := .var { ty } name

def self (className : String) : Expr := .self { ty := .object className }

def binary (op : Operator) (left right : Expr) : Expr :=
  .binary { ty := op.resultTy } op left right

def not (operand : Expr) : Expr := .not { ty := .boolean } operand

def paren (inner : Expr) : Expr := .paren { ty := inner.ty } inner

def call (receiver : Expr) (method : String) (args : List Expr)
    (ty : Ty) : Expr :=
  .call { ty } receiver method args

def newObject (className : String) : Expr :=
  .newObject { ty := .object className } className

def newArray (size : Expr) : Expr := .newArray { ty := .intArray } size

def arrayLiteral (elements : List Expr) : Expr :=
  .arrayLiteral { ty := .intArray } elements

def index (array position : Expr) : Expr :=
  .index { ty := .int } array position

def length (array : Expr) : Expr := .length { ty := .int } array

/-! ## Statements -/

def assign (target value : Expr) : Stmt := .assign {} target value

def expr (value : Expr) : Stmt := .expr {} value

def ret (value : Option Expr) : Stmt := .ret {} value

def block (body : List Stmt) : Stmt := .block {} body

def ifThen (cond : Expr) (onTrue : Stmt) : Stmt := .ifThen {} cond onTrue

def ifElse (cond : Expr) (onTrue onFalse : Stmt) : Stmt :=
  .ifElse {} cond onTrue onFalse

def loop (cond : Expr) (body : Stmt) : Stmt := .loop {} cond body

/-! ## Declarations -/

def entryPoint : Method where
  name := "main"
  isStatic := true
  returnTy := .void
  params := [{ name := "args", ty := .stringArray }]

end JavaMinus.Tree.Make

namespace JavaMinus.Tree

namespace Method

def addParam (name : String) (ty : Ty) (method : Method) : Method :=
  { method with params := method.params ++ [{ name, ty }] }

def addLocal (name : String) (ty : Ty) (method : Method) : Method :=
  { method with locals := method.locals ++ [{ name, ty }] }

def addStmt (stmt : Stmt) (method : Method) : Method :=
  { method with body := method.body ++ [stmt] }

end Method

namespace Class

def addField (name : String) (ty : Ty) (decl : Class) : Class :=
  { decl with fields := decl.fields ++ [{ name, ty }] }

def addMethod (method : Method) (decl : Class) : Class :=
  { decl with methods := decl.methods ++ [method] }

end Class

def Program.addImport (path : String) (program : Program) : Program :=
  { program with imports := program.imports ++ [Import.ofDotted path] }

end JavaMinus.Tree
