import JavaMinus.Json.Decode
import JavaMinus.Tree.Basic

/-!
# Trees as JSON

Every field of a record is written, and every alternative in its shortest
form.
-/

namespace JavaMinus

def Ty.toJson : Ty → Json
  | .int => .text "Int"
  | .boolean => .text "Boolean"
  | .void => .text "Void"
  | .intArray => .text "ArrayOfInt"
  | .stringArray => .text "ArrayOfString"
  | .vararg => .text "Vararg"
  | .object className => .tagged "Object" (.text className)

def Operator.toJson : Operator → Json
  | .add => .text "Add"
  | .sub => .text "Sub"
  | .mul => .text "Mul"
  | .div => .text "Div"
  | .lt => .text "Lt"
  | .gt => .text "Gt"
  | .eq => .text "Eq"
  | .ne => .text "Ne"
  | .and => .text "And"

def Location.toJson (location : Location) : Json :=
  .record [("line", .int location.line.toNat),
    ("column", .int location.column.toNat)]

def Span.toJson (span : Span) : Json :=
  .record [("start", span.start.toJson), ("end", span.stop.toJson)]

namespace Tree

/-! ## Expressions -/

namespace Expr

def wrap (attr : Attr) (kind : Json) : Json :=
  .record [("kind", kind), ("ty", attr.ty.toJson), ("span", attr.span.toJson)]

mutual

def toJson : Expr → Json
  | .int attr value =>
      wrap attr (.tagged "IntLiteral" (.int value.toInt))
  | .bool attr value => wrap attr (.tagged "BoolLiteral" (.bool value))
  | .var attr name => wrap attr (.tagged "VarRef" (.text name))
  | .self attr => wrap attr (.text "This")
  | .binary attr op left right =>
      wrap attr (.tagged "Binary" (.record
        [("op", op.toJson), ("lhs", left.toJson), ("rhs", right.toJson)]))
  | .not attr operand => wrap attr (.tagged "Not" operand.toJson)
  | .paren attr inner => wrap attr (.tagged "Paren" inner.toJson)
  | .call attr receiver method args =>
      wrap attr (.tagged "Call" (.record
        [("receiver", receiver.toJson), ("method", .text method),
          ("args", .arr (toJsons args))]))
  | .newObject attr className =>
      wrap attr (.tagged "NewObject" (.text className))
  | .newArray attr size => wrap attr (.tagged "NewIntArray" size.toJson)
  | .arrayLiteral attr elements =>
      wrap attr (.tagged "ArrayLiteral" (.arr (toJsons elements)))
  | .index attr array position =>
      wrap attr (.tagged "Index" (.record
        [("array", array.toJson), ("index", position.toJson)]))
  | .length attr array => wrap attr (.tagged "Length" array.toJson)

def toJsons : List Expr → List Json
  | [] => []
  | expr :: rest => expr.toJson :: toJsons rest

end

end Expr

/-! ## Statements -/

namespace Stmt

def wrap (span : Span) (kind : Json) : Json :=
  .record [("kind", kind), ("span", span.toJson)]

mutual

def toJson : Stmt → Json
  | .block span body => wrap span (.tagged "Block" (.arr (toJsons body)))
  | .assign span target value =>
      wrap span (.tagged "Assign" (.record
        [("target", target.toJson), ("value", value.toJson)]))
  | .expr span value => wrap span (.tagged "Expr" value.toJson)
  | .ret span (some value) => wrap span (.tagged "Return" value.toJson)
  | .ret span none => wrap span (.tagged "Return" .null)
  | .ifThen span cond onTrue =>
      wrap span (.tagged "If" (.record
        [("cond", cond.toJson), ("then_branch", onTrue.toJson),
          ("else_branch", .null)]))
  | .ifElse span cond onTrue onFalse =>
      wrap span (.tagged "If" (.record
        [("cond", cond.toJson), ("then_branch", onTrue.toJson),
          ("else_branch", onFalse.toJson)]))
  | .loop span cond body =>
      wrap span (.tagged "While" (.record
        [("cond", cond.toJson), ("body", body.toJson)]))

def toJsons : List Stmt → List Json
  | [] => []
  | stmt :: rest => stmt.toJson :: toJsons rest

end

end Stmt

/-! ## Declarations -/

def Variable.toJson (decl : Variable) : Json :=
  .record [("name", .text decl.name), ("ty", decl.ty.toJson),
    ("span", decl.span.toJson)]

def Method.toJson (method : Method) : Json :=
  .record [("name", .text method.name),
    ("is_public", .bool method.isPublic),
    ("is_static", .bool method.isStatic),
    ("is_final", .bool method.isFinal),
    ("return_type", method.returnTy.toJson),
    ("params", .arr (method.params.map Variable.toJson)),
    ("locals", .arr (method.locals.map Variable.toJson)),
    ("body", .arr (Stmt.toJsons method.body)),
    ("span", method.span.toJson)]

def Class.toJson (decl : Class) : Json :=
  .record [("name", .text decl.name),
    ("superclass", (decl.superclass.map Json.text).getD .null),
    ("fields", .arr (decl.fields.map Variable.toJson)),
    ("methods", .arr (decl.methods.map Method.toJson)),
    ("span", decl.span.toJson)]

def Import.toJson (decl : Import) : Json :=
  .record [("path", .arr (decl.path.map Json.text)),
    ("span", decl.span.toJson)]

def Program.toJson (program : Program) : Json :=
  .record [("imports", .arr (program.imports.map Import.toJson)),
    ("class", program.declared.toJson), ("span", program.span.toJson)]

end Tree

end JavaMinus
