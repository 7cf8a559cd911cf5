import JavaMinus.Tree.Basic

/-!
# Trees as source text

One-line renderings, used in messages.  Parentheses are those of the tree:
none are added to show how operators nest.
-/

namespace JavaMinus.Tree

namespace Expr

mutual

def text : Expr → String
  | .int _ value => toString value.toInt
  | .bool _ value => if value then "true" else "false"
  | .var _ name => name
  | .self _ => "this"
  | .binary _ op left right =>
      left.text ++ " " ++ op.symbol ++ " " ++ right.text
  | .not _ operand => "!" ++ operand.text
  | .paren _ inner => "(" ++ inner.text ++ ")"
  | .call _ receiver method args =>
      receiver.text ++ "." ++ method ++ "(" ++
        ", ".intercalate (texts args) ++ ")"
  | .newObject _ className => "new " ++ className ++ "()"
  | .newArray _ size => "new int[" ++ size.text ++ "]"
  | .arrayLiteral _ elements =>
      "[" ++ ", ".intercalate (texts elements) ++ "]"
  | .index _ array position => array.text ++ "[" ++ position.text ++ "]"
  | .length _ array => array.text ++ ".length"

def texts : List Expr → List String
  | [] => []
  | expr :: rest => expr.text :: texts rest

end

end Expr

def Import.text (decl : Import) : String := "import " ++ decl.dotted ++ ";"

def Class.text (decl : Class) : String :=
  match decl.superclass with
  | some superclass => "class " ++ decl.name ++ " extends " ++ superclass
  | none => "class " ++ decl.name

def Program.text (program : Program) : String :=
  String.join (program.imports.map fun decl => decl.text ++ "\n") ++
    program.declared.text

end JavaMinus.Tree
