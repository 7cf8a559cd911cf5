import JavaMinus.Json.Decode
import JavaMinus.Json.Reader
import JavaMinus.Tree.Basic

/-!
# Trees from JSON

Each decoder is given the number of brackets that may still open, and its
recursion is on that number.
-/

namespace JavaMinus

def Ty.ofName? : String → Option Ty
  | "Int" => some .int
  | "Boolean" => some .boolean
  | "Void" => some .void
  | "ArrayOfInt" => some .intArray
  | "ArrayOfString" => some .stringArray
  | "Vararg" => some .vararg
  | _ => none

def Ty.decode (brackets : Nat) (json : Json) : Option Ty :=
  match json.variant? brackets with
  | some ("Object", some payload) => payload.string?.map .object
  | _ => json.bare? brackets >>= ofName?

def Operator.ofName? : String → Option Operator
  | "Add" => some .add
  | "Sub" => some .sub
  | "Mul" => some .mul
  | "Div" => some .div
  | "Lt" => some .lt
  | "Gt" => some .gt
  | "Eq" => some .eq
  | "Ne" => some .ne
  | "And" => some .and
  | _ => none

def Operator.decode (brackets : Nat) (json : Json) : Option Operator :=
  json.bare? brackets >>= ofName?

def Location.decode : Nat → Json → Option Location
  | 0, _ => none
  | _ + 1, json => do
      let fields ← json.fields? ["line", "column"]
      let line ← fields.required "line" Json.uint64?
      let column ← fields.required "column" Json.uint64?
      some { line, column }

def Span.decode : Nat → Json → Option Span
  | 0, _ => none
  | brackets + 1, json => do
      let fields ← json.fields? ["start", "end"]
      let start ← fields.required "start" (Location.decode brackets)
      let stop ← fields.required "end" (Location.decode brackets)
      some { start, stop }

namespace Tree

/-! ## Expressions -/

mutual

def Expr.decode : Nat → Json → Option Expr
  | 0, _ => none
  | brackets + 1, json => do
      let fields ← json.fields? ["kind", "ty", "span"]
      let form ← fields.required "kind" (Expr.decodeForm brackets)
      let ty ← fields.required "ty" (Ty.decode brackets)
      let span ← fields.optional "span" {} (Span.decode brackets)
      some (form { ty, span })

def Expr.decodeForm : Nat → Json → Option (Attr → Expr)
  | 0, json => do
      guard ((← json.bare? 0) = "This")
      some .self
  | brackets + 1, json =>
      match json.variant? (brackets + 1) with
      | some ("This", none) | some ("This", some .null) => some .self
      | some ("IntLiteral", some payload) => do
          let value ← payload.int32?
          some fun attr => .int attr value
      | some ("BoolLiteral", some payload) => do
          let value ← payload.bool?
          some fun attr => .bool attr value
      | some ("VarRef", some payload) => do
          let name ← payload.string?
          some fun attr => .var attr name
      | some ("Binary", some payload) => Expr.decodeBinary brackets payload
      | some ("Not", some payload) => do
          let operand ← Expr.decode brackets payload
          some fun attr => .not attr operand
      | some ("Paren", some payload) => do
          let inner ← Expr.decode brackets payload
          some fun attr => .paren attr inner
      | some ("Call", some payload) => Expr.decodeCall brackets payload
      | some ("NewObject", some payload) => do
          let className ← payload.string?
          some fun attr => .newObject attr className
      | some ("NewIntArray", some payload) => do
          let size ← Expr.decode brackets payload
          some fun attr => .newArray attr size
      | some ("ArrayLiteral", some payload) => do
          let elements ← Expr.decodeList brackets payload
          some fun attr => .arrayLiteral attr elements
      | some ("Index", some payload) => Expr.decodeIndex brackets payload
      | some ("Length", some payload) => do
          let array ← Expr.decode brackets payload
          some fun attr => .length attr array
      | _ => none

def Expr.decodeBinary : Nat → Json → Option (Attr → Expr)
  | 0, _ => none
  | brackets + 1, json => do
      let fields ← json.fields? ["op", "lhs", "rhs"]
      let op ← fields.required "op" (Operator.decode brackets)
      let left ← fields.required "lhs" (Expr.decode brackets)
      let right ← fields.required "rhs" (Expr.decode brackets)
      some fun attr => .binary attr op left right

def Expr.decodeCall : Nat → Json → Option (Attr → Expr)
  | 0, _ => none
  | brackets + 1, json => do
      let fields ← json.fields? ["receiver", "method", "args"]
      let receiver ← fields.required "receiver" (Expr.decode brackets)
      let method ← fields.required "method" Json.string?
      let args ← fields.required "args" (Expr.decodeList brackets)
      some fun attr => .call attr receiver method args

def Expr.decodeIndex : Nat → Json → Option (Attr → Expr)
  | 0, _ => none
  | brackets + 1, json => do
      let fields ← json.fields? ["array", "index"]
      let array ← fields.required "array" (Expr.decode brackets)
      let position ← fields.required "index" (Expr.decode brackets)
      some fun attr => .index attr array position

def Expr.decodeList : Nat → Json → Option (List Expr)
  | 0, _ => none
  | brackets + 1, json => json.list (Expr.decode brackets)

end

/-! ## Statements -/

def Stmt.decodeAssign : Nat → Json → Option (Span → Stmt)
  | 0, _ => none
  | brackets + 1, json => do
      let fields ← json.fields? ["target", "value"]
      let target ← fields.required "target" (Expr.decode brackets)
      let value ← fields.required "value" (Expr.decode brackets)
      some fun span => .assign span target value

mutual

def Stmt.decode : Nat → Json → Option Stmt
  | 0, _ => none
  | brackets + 1, json => do
      let fields ← json.fields? ["kind", "span"]
      let form ← fields.required "kind" (Stmt.decodeForm brackets)
      let span ← fields.optional "span" {} (Span.decode brackets)
      some (form span)

def Stmt.decodeForm : Nat → Json → Option (Span → Stmt)
  | 0, _ => none
  | brackets + 1, json =>
      match json.variant? (brackets + 1) with
      | some ("Block", some payload) => do
          let body ← Stmt.decodeList brackets payload
          some fun span => .block span body
      | some ("Assign", some payload) => Stmt.decodeAssign brackets payload
      | some ("Expr", some payload) => do
          let value ← Expr.decode brackets payload
          some fun span => .expr span value
      | some ("Return", some payload) => do
          let value ← payload.nullable (Expr.decode brackets)
          some fun span => .ret span value
      | some ("If", some payload) => Stmt.decodeIf brackets payload
      | some ("While", some payload) => Stmt.decodeLoop brackets payload
      | _ => none

def Stmt.decodeIf : Nat → Json → Option (Span → Stmt)
  | 0, _ => none
  | brackets + 1, json => do
      let fields ← json.fields? ["cond", "then_branch", "else_branch"]
      let cond ← fields.required "cond" (Expr.decode brackets)
      let onTrue ← fields.required "then_branch" (Stmt.decode brackets)
      match ← fields.nullable "else_branch" (Stmt.decode brackets) with
      | some onFalse => some fun span => .ifElse span cond onTrue onFalse
      | none => some fun span => .ifThen span cond onTrue

def Stmt.decodeLoop : Nat → Json → Option (Span → Stmt)
  | 0, _ => none
  | brackets + 1, json => do
      let fields ← json.fields? ["cond", "body"]
      let cond ← fields.required "cond" (Expr.decode brackets)
      let body ← fields.required "body" (Stmt.decode brackets)
      some fun span => .loop span cond body

def Stmt.decodeList : Nat → Json → Option (List Stmt)
  | 0, _ => none
  | brackets + 1, json => json.list (Stmt.decode brackets)

end

/-! ## Declarations -/

def Variable.decode : Nat → Json → Option Variable
  | 0, _ => none
  | brackets + 1, json => do
      let fields ← json.fields? ["name", "ty", "span"]
      let name ← fields.required "name" Json.string?
      let ty ← fields.required "ty" (Ty.decode brackets)
      let span ← fields.optional "span" {} (Span.decode brackets)
      some { name, ty, span }

def Variable.decodeList : Nat → Json → Option (List Variable) :=
  Json.listWithin Variable.decode

def Method.decode : Nat → Json → Option Method
  | 0, _ => none
  | brackets + 1, json => do
      let fields ← json.fields? ["name", "is_public", "is_static", "is_final",
        "return_type", "params", "locals", "body", "span"]
      let name ← fields.required "name" Json.string?
      let isPublic ← fields.optional "is_public" true Json.bool?
      let isStatic ← fields.optional "is_static" false Json.bool?
      let isFinal ← fields.optional "is_final" false Json.bool?
      let returnTy ← fields.required "return_type" (Ty.decode brackets)
      let params ← fields.optional "params" [] (Variable.decodeList brackets)
      let locals ← fields.optional "locals" [] (Variable.decodeList brackets)
      let body ← fields.optional "body" [] (Stmt.decodeList brackets)
      let span ← fields.optional "span" {} (Span.decode brackets)
      some {
        name, isPublic, isStatic, isFinal, returnTy
        params, locals, body, span }

def Class.decode : Nat → Json → Option Class
  | 0, _ => none
  | brackets + 1, json => do
      let fields ← json.fields?
        ["name", "superclass", "fields", "methods", "span"]
      let name ← fields.required "name" Json.string?
      let superclass ←
        fields.optional "superclass" none (Json.nullable Json.string?)
      let declared ←
        fields.optional "fields" [] (Variable.decodeList brackets)
      let methods ←
        fields.optional "methods" [] (Json.listWithin Method.decode brackets)
      let span ← fields.optional "span" {} (Span.decode brackets)
      some { name, superclass, fields := declared, methods, span }

def Import.decode : Nat → Json → Option Import
  | 0, _ => none
  | brackets + 1, json => do
      let fields ← json.fields? ["path", "span"]
      let path ← fields.required "path"
        (Json.listWithin (fun _ => Json.string?) brackets)
      let span ← fields.optional "span" {} (Span.decode brackets)
      some { path, span }

def Program.decode : Nat → Json → Option Program
  | 0, _ => none
  | brackets + 1, json => do
      let fields ← json.fields? ["imports", "class", "span"]
      let imports ←
        fields.optional "imports" [] (Json.listWithin Import.decode brackets)
      let declared ← fields.required "class" (Class.decode brackets)
      let span ← fields.optional "span" {} (Span.decode brackets)
      some { imports, declared, span }

def Program.ofJson? (json : Json) : Option Program :=
  Program.decode Json.maxDepth json

def Program.parse? (text : String) : Option Program := do
  Program.ofJson? (← Json.parse? text)

end Tree

end JavaMinus
