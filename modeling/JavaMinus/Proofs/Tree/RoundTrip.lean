import JavaMinus.Proofs.Json.Decoding
import JavaMinus.Proofs.Json.Reading
import JavaMinus.Proofs.Tree.Induction
import JavaMinus.Symbols.Format
import Mathlib

/-!
# Trees and symbol tables that are read back

What was written of a program is read as that program, as long as it is not
nested too deep.  Symbol tables are always read back.
-/

namespace JavaMinus

open Json (Decodes)

/-! ## Types, operators and positions -/

theorem Ty.decodes (ty : Ty) : Decodes Ty.decode ty.toJson ty := by
  cases ty with
  | object className =>
      refine .tagged rfl fun brackets => ?_
      simp [Ty.decode]
  | _ => simp [Decodes, Ty.toJson, Ty.decode, Ty.ofName?]

theorem Operator.decodes (op : Operator) :
    Decodes Operator.decode op.toJson op := by
  cases op <;>
    simp [Decodes, Operator.toJson, Operator.decode, Operator.ofName?]

theorem Location.decode_record {line column : Json} {location : Location}
    (isLine : line.uint64? = some location.line)
    (isColumn : column.uint64? = some location.column) (brackets : Nat) :
    Location.decode (brackets + 1)
      (.record [("line", line), ("column", column)]) = some location := by
  simp [Location.decode, List.lookup, isLine, isColumn]

theorem Location.decodes (location : Location) :
    Decodes Location.decode location.toJson location := by
  refine .record rfl fun brackets => ?_
  rw [decode_record (Json.uint64?_int _) (Json.uint64?_int _)]
  simp [Json.depthItems]

theorem Span.decodes (span : Span) : Decodes Span.decode span.toJson span := by
  refine .record rfl fun brackets => ?_
  simp [Span.decode, List.lookup, Json.depthItems,
    Location.decodes _ brackets]

namespace Tree

/-! ## Expressions -/

namespace Expr

theorem toJsons_eq (exprs : List Expr) : toJsons exprs = exprs.map toJson := by
  induction exprs with
  | nil => rfl
  | cons expr rest ih => simp [toJsons, ih]

theorem decodeList_eq : decodeList = Json.listWithin decode := by
  funext brackets json
  cases brackets <;> rfl

theorem toJson_ne_null (expr : Expr) : expr.toJson ≠ .null := by
  cases expr <;> simp [toJson, wrap, Json.record]

theorem decodes_wrap {kind : Json} (form : Attr → Expr) (attr : Attr)
    (h : Decodes decodeForm kind form) :
    Decodes decode (wrap attr kind) (form attr) := by
  refine .record rfl fun brackets => ?_
  simp [decode, List.lookup,
    Json.depthItems, h brackets, Ty.decodes _ brackets,
    Span.decodes _ brackets]

theorem decodes_list {exprs : List Expr}
    (h : ∀ expr ∈ exprs, Decodes decode expr.toJson expr) :
    Decodes decodeList (.arr (toJsons exprs)) exprs := by
  rw [decodeList_eq, toJsons_eq]
  exact .list h

theorem decodes (expr : Expr) : Decodes decode expr.toJson expr := by
  induction expr with
  | int attr value =>
      rw [toJson]
      refine decodes_wrap (int · value) attr (.tagged rfl fun brackets => ?_)
      simp [decodeForm]
  | bool attr value =>
      rw [toJson]
      refine decodes_wrap (bool · value) attr (.tagged rfl fun brackets => ?_)
      simp [decodeForm]
  | var attr name =>
      rw [toJson]
      refine decodes_wrap (var · name) attr (.tagged rfl fun brackets => ?_)
      simp [decodeForm]
  | self attr =>
      rw [toJson]
      refine decodes_wrap self attr fun brackets => ?_
      cases brackets <;> simp [decodeForm]
  | binary attr op left right ihLeft ihRight =>
      have payload : Decodes decodeBinary
          (.record [("op", op.toJson), ("lhs", left.toJson),
            ("rhs", right.toJson)])
          (binary · op left right) := by
        refine .record rfl fun brackets => ?_
        simp [decodeBinary, List.lookup, Json.depthItems,
          Operator.decodes _ brackets, ihLeft brackets, ihRight brackets]
      rw [toJson]
      refine decodes_wrap (binary · op left right) attr
        (.tagged rfl fun brackets => ?_)
      simpa [decodeForm] using payload brackets
  | not attr operand ih =>
      rw [toJson]
      refine decodes_wrap (not · operand) attr (.tagged rfl fun brackets => ?_)
      simp [decodeForm, ih brackets]
  | paren attr inner ih =>
      rw [toJson]
      refine decodes_wrap (paren · inner) attr (.tagged rfl fun brackets => ?_)
      simp [decodeForm, ih brackets]
  | call attr receiver method args ihReceiver ihArgs =>
      have payload : Decodes decodeCall
          (.record [("receiver", receiver.toJson), ("method", .text method),
            ("args", .arr (toJsons args))])
          (call · receiver method args) := by
        refine .record rfl fun brackets => ?_
        simp [decodeCall, List.lookup, Json.depthItems,
          ihReceiver brackets, decodes_list ihArgs brackets]
      rw [toJson]
      refine decodes_wrap (call · receiver method args) attr
        (.tagged rfl fun brackets => ?_)
      simpa [decodeForm] using payload brackets
  | newObject attr className =>
      rw [toJson]
      refine decodes_wrap (newObject · className) attr
        (.tagged rfl fun brackets => ?_)
      simp [decodeForm]
  | newArray attr size ih =>
      rw [toJson]
      refine decodes_wrap (newArray · size) attr
        (.tagged rfl fun brackets => ?_)
      simp [decodeForm, ih brackets]
  | arrayLiteral attr elements ih =>
      rw [toJson]
      refine decodes_wrap (arrayLiteral · elements) attr
        (.tagged rfl fun brackets => ?_)
      simp [decodeForm, decodes_list ih brackets]
  | index attr array position ihArray ihPosition =>
      have payload : Decodes decodeIndex
          (.record [("array", array.toJson), ("index", position.toJson)])
          (index · array position) := by
        refine .record rfl fun brackets => ?_
        simp [decodeIndex, List.lookup, Json.depthItems,
          ihArray brackets, ihPosition brackets]
      rw [toJson]
      refine decodes_wrap (index · array position) attr
        (.tagged rfl fun brackets => ?_)
      simpa [decodeForm] using payload brackets
  | length attr array ih =>
      rw [toJson]
      refine decodes_wrap (length · array) attr (.tagged rfl fun brackets => ?_)
      simp [decodeForm, ih brackets]

end Expr

/-! ## Statements -/

namespace Stmt

theorem toJsons_eq (stmts : List Stmt) : toJsons stmts = stmts.map toJson := by
  induction stmts with
  | nil => rfl
  | cons stmt rest ih => simp [toJsons, ih]

theorem decodeList_eq : decodeList = Json.listWithin decode := by
  funext brackets json
  cases brackets <;> rfl

theorem toJson_ne_null (stmt : Stmt) : stmt.toJson ≠ .null := by
  fun_cases toJson stmt <;> simp [wrap, Json.record]

theorem decodes_wrap {kind : Json} (form : Span → Stmt) (span : Span)
    (h : Decodes decodeForm kind form) :
    Decodes decode (wrap span kind) (form span) := by
  refine .record rfl fun brackets => ?_
  simp [decode, List.lookup, Json.depthItems, h brackets,
    Span.decodes _ brackets]

theorem decodes_list {stmts : List Stmt}
    (h : ∀ stmt ∈ stmts, Decodes decode stmt.toJson stmt) :
    Decodes decodeList (.arr (toJsons stmts)) stmts := by
  rw [decodeList_eq, toJsons_eq]
  exact .list h

theorem decodes (stmt : Stmt) : Decodes decode stmt.toJson stmt := by
  induction stmt with
  | block span body ih =>
      rw [toJson]
      refine decodes_wrap (block · body) span (.tagged rfl fun brackets => ?_)
      simp [decodeForm, decodes_list ih brackets]
  | assign span target value =>
      have payload : Decodes decodeAssign
          (.record [("target", target.toJson), ("value", value.toJson)])
          (assign · target value) := by
        refine .record rfl fun brackets => ?_
        simp [decodeAssign, List.lookup, Json.depthItems,
          Expr.decodes _ brackets]
      rw [toJson]
      refine decodes_wrap (assign · target value) span
        (.tagged rfl fun brackets => ?_)
      simpa [decodeForm] using payload brackets
  | expr span value =>
      rw [toJson]
      refine decodes_wrap (expr · value) span (.tagged rfl fun brackets => ?_)
      simp [decodeForm, Expr.decodes _ brackets]
  | ret span value =>
      cases value with
      | none =>
          rw [toJson]
          refine decodes_wrap (ret · none) span (.tagged rfl fun brackets => ?_)
          simp [decodeForm, Json.nullable]
      | some value =>
          rw [toJson]
          refine decodes_wrap (ret · (some value)) span
            (.tagged rfl fun brackets => ?_)
          simp [decodeForm,
            value.decodes.nullable value.toJson_ne_null brackets]
  | ifThen span cond onTrue ih =>
      have payload : Decodes decodeIf
          (.record [("cond", cond.toJson), ("then_branch", onTrue.toJson),
            ("else_branch", .null)])
          (ifThen · cond onTrue) := by
        refine .record rfl fun brackets => ?_
        simp [decodeIf, List.lookup, Json.depthItems, Json.nullable,
          Expr.decodes _ brackets, ih brackets]
      rw [toJson]
      refine decodes_wrap (ifThen · cond onTrue) span
        (.tagged rfl fun brackets => ?_)
      simpa [decodeForm] using payload brackets
  | ifElse span cond onTrue onFalse ihTrue ihFalse =>
      have payload : Decodes decodeIf
          (.record [("cond", cond.toJson), ("then_branch", onTrue.toJson),
            ("else_branch", onFalse.toJson)])
          (ifElse · cond onTrue onFalse) := by
        refine .record rfl fun brackets => ?_
        simp [decodeIf, List.lookup, Json.depthItems,
          Expr.decodes _ brackets, ihTrue brackets,
          ihFalse.nullable onFalse.toJson_ne_null brackets]
      rw [toJson]
      refine decodes_wrap (ifElse · cond onTrue onFalse) span
        (.tagged rfl fun brackets => ?_)
      simpa [decodeForm] using payload brackets
  | loop span cond body ih =>
      have payload : Decodes decodeLoop
          (.record [("cond", cond.toJson), ("body", body.toJson)])
          (loop · cond body) := by
        refine .record rfl fun brackets => ?_
        simp [decodeLoop, List.lookup, Json.depthItems,
          Expr.decodes _ brackets, ih brackets]
      rw [toJson]
      refine decodes_wrap (loop · cond body) span
        (.tagged rfl fun brackets => ?_)
      simpa [decodeForm] using payload brackets

end Stmt

/-! ## Declarations -/

theorem Variable.decodes (decl : Variable) :
    Decodes Variable.decode decl.toJson decl := by
  refine .record rfl fun brackets => ?_
  simp [Variable.decode, List.lookup, Json.depthItems,
    Ty.decodes _ brackets, Span.decodes _ brackets]

theorem Variable.decodes_list (decls : List Variable) :
    Decodes Variable.decodeList (.arr (decls.map Variable.toJson)) decls :=
  .list fun decl _ => decl.decodes

theorem Method.decodes (method : Method) :
    Decodes Method.decode method.toJson method := by
  refine .record rfl fun brackets => ?_
  simp [Method.decode, List.lookup, Json.depthItems,
    Ty.decodes _ brackets, Span.decodes _ brackets,
    Variable.decodes_list _ brackets,
    Stmt.decodes_list (fun stmt _ => stmt.decodes) brackets]

theorem Class.decodes (decl : Class) :
    Decodes Class.decode decl.toJson decl := by
  have methods : Decodes (Json.listWithin Method.decode)
      (.arr (decl.methods.map Method.toJson)) decl.methods :=
    .list fun method _ => method.decodes
  refine .record rfl fun brackets => ?_
  simp [Class.decode, List.lookup, Json.depthItems,
    Variable.decodes_list _ brackets, methods brackets,
    Span.decodes _ brackets]

theorem Import.decodes (decl : Import) :
    Decodes Import.decode decl.toJson decl := by
  have path : Decodes (Json.listWithin fun _ => Json.string?)
      (.arr (decl.path.map Json.text)) decl.path :=
    .list fun segment _ => Json.decodes_text segment
  refine .record rfl fun brackets => ?_
  simp [Import.decode, List.lookup, Json.depthItems, path brackets,
    Span.decodes _ brackets]

theorem Program.decodes (program : Program) :
    Decodes Program.decode program.toJson program := by
  have imports : Decodes (Json.listWithin Import.decode)
      (.arr (program.imports.map Import.toJson)) program.imports :=
    .list fun decl _ => decl.decodes
  refine .record rfl fun brackets => ?_
  simp [Program.decode, List.lookup, Json.depthItems, imports brackets,
    Class.decodes _ brackets, Span.decodes _ brackets]

end Tree

/-! ## Symbol tables -/

theorem Symbol.decodes (symbol : Symbol) :
    Decodes Symbol.decode symbol.toJson symbol := by
  refine .record rfl fun brackets => ?_
  simp [Symbol.decode, List.lookup, Json.depthItems, Ty.decodes _ brackets]

theorem Symbol.decodes_list (symbols : List Symbol) :
    Decodes Symbol.decodeList (.arr (symbols.map Symbol.toJson)) symbols :=
  .list fun symbol _ => symbol.decodes

theorem Signature.decodes (signature : Signature) :
    Decodes Signature.decode signature.toJson signature := by
  refine .record rfl fun brackets => ?_
  simp [Signature.decode, List.lookup, Json.depthItems,
    Symbol.decodes_list _ brackets, Ty.decodes _ brackets]

theorem SymbolTable.decodes (table : SymbolTable) :
    Decodes SymbolTable.decode table.toJson table := by
  have imports : Decodes (Json.listWithin fun _ => Json.string?)
      (.arr (table.imports.map Json.text)) table.imports :=
    .list fun path _ => Json.decodes_text path
  have methods : Decodes (Json.listWithin Signature.decode)
      (.arr (table.methods.map Signature.toJson)) table.methods :=
    .list fun signature _ => signature.decodes
  refine .record rfl fun brackets => ?_
  simp [SymbolTable.decode, List.lookup, Json.depthItems, imports brackets,
    Symbol.decodes_list _ brackets, methods brackets]

theorem Ty.depth_toJson (ty : Ty) : ty.toJson.depth ≤ 1 := by
  cases ty <;> simp [Ty.toJson]

theorem Symbol.depth_toJson (symbol : Symbol) : symbol.toJson.depth ≤ 2 := by
  simp [Symbol.toJson, Json.depthItems, symbol.ty.depth_toJson]

theorem Symbol.depth_toJsons (symbols : List Symbol) :
    (Json.arr (symbols.map Symbol.toJson)).depth ≤ 3 :=
  Json.depth_arr_le fun symbol _ => symbol.depth_toJson

theorem Signature.depth_toJson (signature : Signature) :
    signature.toJson.depth ≤ 4 := by
  have params := Symbol.depth_toJsons signature.params
  have locals := Symbol.depth_toJsons signature.locals
  have returnTy := signature.returnTy.depth_toJson
  simp only [Signature.toJson, Json.depth_record, List.map_cons, List.map_nil,
    Json.depthItems, Json.depth_text, Json.depth_bool]
  omega

theorem SymbolTable.depth_toJson (table : SymbolTable) :
    table.toJson.depth ≤ 6 := by
  have imports : (Json.arr (table.imports.map Json.text)).depth ≤ 1 :=
    Json.depth_arr_le fun path _ => (Json.depth_text path).le
  have fields := Symbol.depth_toJsons table.fields
  have methods : (Json.arr (table.methods.map Signature.toJson)).depth ≤ 5 :=
    Json.depth_arr_le fun signature _ => signature.depth_toJson
  simp only [SymbolTable.toJson, Json.depth_record, List.map_cons,
    List.map_nil, Json.depthItems, Json.depth_text, Json.depth_textOrNull]
  omega

/--
A program is read back from its text exactly if no more than 127 brackets are
open at once in it, and a symbol table always is.
-/
theorem written_read_back :
    (∀ program : Tree.Program,
      Tree.Program.parse? program.toJson.render =
        if program.toJson.depth ≤ 127 then some program else none) ∧
    ∀ table : SymbolTable,
      SymbolTable.parse? table.toJson.render = some table := by
  constructor
  · intro program
    rw [Tree.Program.parse?, Json.parse?_render]
    exact program.decodes Json.maxDepth
  · intro table
    have fits : table.toJson.depth ≤ Json.maxDepth :=
      table.depth_toJson.trans (by decide)
    rw [SymbolTable.parse?, Json.parse?_render]
    exact (table.decodes Json.maxDepth).trans (if_pos fits)

end JavaMinus
