import JavaMinus.Tree.Basic

/-!
# Outlines

An outline shows the nodes of a tree, a line each, two blanks further in than
the node they belong to.
-/

namespace JavaMinus.Tree

inductive Outline where
  | node (label : String) (children : List Outline)

namespace Outline

mutual

def render (indent : Nat) : Outline → String
  | .node label children =>
      String.ofList (List.replicate indent ' ') ++ label ++ "\n" ++
        renderAll (indent + 2) children

def renderAll (indent : Nat) : List Outline → String
  | [] => ""
  | outline :: rest => outline.render indent ++ renderAll indent rest

end

end Outline

namespace Expr

def label : Expr → String
  | .int _ value => "IntLiteral(" ++ toString value.toInt ++ ")"
  | .bool _ value =>
      "BoolLiteral(" ++ (if value then "true" else "false") ++ ")"
  | .var _ name => "VarRef(" ++ name ++ ")"
  | .self _ => "This"
  | .binary _ op _ _ => "Binary(" ++ op.symbol ++ ")"
  | .not _ _ => "Not"
  | .paren _ _ => "Paren"
  | .call _ _ method _ => "Call(" ++ method ++ ")"
  | .newObject _ className => "NewObject(" ++ className ++ ")"
  | .newArray _ _ => "NewIntArray"
  | .arrayLiteral _ elements =>
      "ArrayLiteral[" ++ toString elements.length ++ "]"
  | .index _ _ _ => "Index"
  | .length _ _ => "Length"

def outlineLabel (expr : Expr) : String := expr.label ++ " : " ++ expr.ty.text

mutual

def outline : Expr → Outline
  | expr@(.binary _ _ first second) | expr@(.index _ first second) =>
      .node expr.outlineLabel [first.outline, second.outline]
  | expr@(.not _ inner) | expr@(.paren _ inner) | expr@(.newArray _ inner)
  | expr@(.length _ inner) => .node expr.outlineLabel [inner.outline]
  | expr@(.call _ receiver _ args) =>
      .node expr.outlineLabel (receiver.outline :: outlines args)
  | expr@(.arrayLiteral _ elements) =>
      .node expr.outlineLabel (outlines elements)
  | expr => .node expr.outlineLabel []

def outlines : List Expr → List Outline
  | [] => []
  | expr :: rest => expr.outline :: outlines rest

end

end Expr

namespace Stmt

mutual

/-- The second branch of a conditional hangs under a line of its own. -/
def outline : Stmt → Outline
  | .block _ body => .node "Block" (outlines body)
  | .assign _ target value =>
      .node "Assign" [target.outline, value.outline]
  | .expr _ value => .node "ExprStmt" [value.outline]
  | .ret _ value => .node "Return" (value.toList.map Expr.outline)
  | .ifThen _ cond onTrue => .node "If" [cond.outline, onTrue.outline]
  | .ifElse _ cond onTrue onFalse =>
      .node "If"
        [cond.outline, onTrue.outline, .node "Else" [onFalse.outline]]
  | .loop _ cond body => .node "While" [cond.outline, body.outline]

def outlines : List Stmt → List Outline
  | [] => []
  | stmt :: rest => stmt.outline :: outlines rest

end

end Stmt

namespace Variable

def text (decl : Variable) : String := decl.ty.text ++ " " ++ decl.name

def outline (role : String) (decl : Variable) : Outline :=
  .node (role ++ ": " ++ decl.text) []

end Variable

namespace Method

def outlineLabel (method : Method) : String :=
  "Method: " ++
    (if method.isPublic then "public " else "") ++
    (if method.isStatic then "static " else "") ++
    (if method.isFinal then "final " else "") ++
    method.returnTy.text ++ " " ++ method.name ++ "(" ++
    ", ".intercalate (method.params.map Variable.text) ++ ")"

def outline (method : Method) : Outline :=
  .node method.outlineLabel
    (method.locals.map (Variable.outline "Local") ++
      method.body.map Stmt.outline)

end Method

def Class.outline (decl : Class) : Outline :=
  let head := match decl.superclass with
    | some superclass => "Class: " ++ decl.name ++ " extends " ++ superclass
    | none => "Class: " ++ decl.name
  .node head
    (decl.fields.map (Variable.outline "Field") ++
      decl.methods.map Method.outline)

def Import.outline (decl : Import) : Outline :=
  .node ("Import: " ++ decl.dotted) []

def Program.outline (program : Program) : Outline :=
  .node "Program"
    (program.imports.map Import.outline ++ [program.declared.outline])

end JavaMinus.Tree
