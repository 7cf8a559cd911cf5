import JavaMinus.Symbols.Table
import JavaMinus.Tree.Decode
import JavaMinus.Tree.Encode

/-!
# Symbol tables in JSON

The same conventions as for trees.
-/

namespace JavaMinus

/-! ## Encoding -/

def Symbol.toJson (symbol : Symbol) : Json :=
  .record [("name", .text symbol.name), ("ty", symbol.ty.toJson)]

def Signature.toJson (signature : Signature) : Json :=
  .record [("name", .text signature.name),
    ("params", .arr (signature.params.map Symbol.toJson)),
    ("locals", .arr (signature.locals.map Symbol.toJson)),
    ("return_type", signature.returnTy.toJson),
    ("is_static", .bool signature.isStatic)]

def SymbolTable.toJson (table : SymbolTable) : Json :=
  .record [("class_name", .text table.className),
    ("superclass", (table.superclass.map Json.text).getD .null),
    ("imports", .arr (table.imports.map Json.text)),
    ("fields", .arr (table.fields.map Symbol.toJson)),
    ("methods", .arr (table.methods.map Signature.toJson))]

/-! ## Decoding -/

def Symbol.decode : Nat → Json → Option Symbol
  | 0, _ => none
  | brackets + 1, json => do
      let fields ← json.fields? ["name", "ty"]
      let name ← fields.required "name" Json.string?
      let ty ← fields.required "ty" (Ty.decode brackets)
      some { name, ty }

def Symbol.decodeList : Nat → Json → Option (List Symbol) :=
  Json.listWithin Symbol.decode

def Signature.decode : Nat → Json → Option Signature
  | 0, _ => none
  | brackets + 1, json => do
      let fields ← json.fields?
        ["name", "params", "locals", "return_type", "is_static"]
      let name ← fields.required "name" Json.string?
      let params ← fields.required "params" (Symbol.decodeList brackets)
      let locals ← fields.required "locals" (Symbol.decodeList brackets)
      let returnTy ← fields.required "return_type" (Ty.decode brackets)
      let isStatic ← fields.optional "is_static" false Json.bool?
      some { name, params, locals, returnTy, isStatic }

def SymbolTable.decode : Nat → Json → Option SymbolTable
  | 0, _ => none
  | brackets + 1, json => do
      let fields ← json.fields?
        ["class_name", "superclass", "imports", "fields", "methods"]
      let className ← fields.required "class_name" Json.string?
      let superclass ←
        fields.optional "superclass" none (Json.nullable Json.string?)
      let imports ← fields.optional "imports" []
        (Json.listWithin (fun _ => Json.string?) brackets)
      let symbols ← fields.optional "fields" [] (Symbol.decodeList brackets)
      let methods ←
        fields.optional "methods" [] (Json.listWithin Signature.decode brackets)
      some { className, superclass, imports, fields := symbols, methods }

def SymbolTable.ofJson? (json : Json) : Option SymbolTable :=
  SymbolTable.decode Json.maxDepth json

def SymbolTable.parse? (text : String) : Option SymbolTable := do
  SymbolTable.ofJson? (← Json.parse? text)

end JavaMinus
