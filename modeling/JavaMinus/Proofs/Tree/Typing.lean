import JavaMinus.Proofs.Lowering.Settled

/-!
# Well-typed programs

Lowering takes the types that a tree carries as they come.  A program is well
typed if those that matter are the right ones.  Any two reference types may
stand for one another, since the target machine does not tell them apart.
-/

namespace JavaMinus

open Lowering

/-! ## Types -/

namespace Ty

/-- Whether a value of the type may stand where the other one is declared. -/
def agrees (ty other : Ty) : Bool :=
  ty = other || ty.isReference && other.isReference

end Ty

def Operator.takes (op : Operator) (left right : Ty) : Bool :=
  match op with
  | .and => left = .boolean && right = .boolean
  | .eq | .ne => left = right && (left = .int || left = .boolean)
  | .add | .sub | .mul | .div | .lt | .gt => left = .int && right = .int

/--
Whether a method may be called with arguments of these types.  In the place of
a vararg there are ints, or the array that they would be packed into.
-/
def Signature.accepts (signature : Signature) (args : List Ty) : Bool :=
  let params := signature.params.map Symbol.ty
  if signature.hasVararg then
    let fixed := params.length - 1
    (args.take fixed).isEqv (params.take fixed) Ty.agrees &&
      ((args.drop fixed).all (· = .int) || args.drop fixed = [.intArray])
  else args.isEqv params Ty.agrees

namespace Scope

def isStatic (scope : Scope) : Bool :=
  ((scope.table.method? scope.method).map Signature.isStatic).getD false

/-- Whether the name may be read; all but variables take a receiver. -/
def isReadable (scope : Scope) (name : String) : Bool :=
  match scope.resolve name with
  | .localVar _ | .param _ => true
  | .field _ | .enclosing => !scope.isStatic
  | .imported _ | .unknown => false

def ownMethod? (scope : Scope) (receiver : Tree.Expr) (method : String) :
    Option Signature :=
  if !receiver.namesClass scope &&
      scope.typeOf receiver = .object scope.className then
    scope.table.method? method
  else none

def permits (scope : Scope) (receiver : Tree.Expr) (method : String)
    (result : Ty) (args : List Ty) : Bool :=
  match scope.ownMethod? receiver method with
  | some signature =>
      result.agrees signature.returnTy && signature.accepts args
  | none => true

end Scope

namespace Tree

/-! ## Expressions -/

namespace Expr

mutual

/-- Whether the expression is well typed.  It need not have a value. -/
def isTyped (scope : Scope) : Expr → Bool
  | .int _ _ | .bool _ _ | .newObject _ _ => true
  | .var _ name => scope.isReadable name
  | .self _ => !scope.isStatic
  | .binary attr op left right =>
      left.isTyped scope && right.isTyped scope && attr.ty = op.resultTy &&
        op.takes (scope.typeOf left) (scope.typeOf right)
  | .not _ operand =>
      operand.isTyped scope && scope.typeOf operand = .boolean
  | .paren _ inner => inner.isTyped scope
  | .call attr receiver method args =>
      (receiver.namesClass scope || receiver.isTyped scope &&
          (scope.typeOf receiver).className?.isSome) &&
        areTyped scope args &&
        (args.map scope.typeOf).all (! ·.isVoid) &&
        scope.permits receiver method attr.ty (args.map scope.typeOf)
  | .newArray _ size => size.isTyped scope && scope.typeOf size = .int
  | .arrayLiteral _ elements =>
      areTyped scope elements && (elements.map scope.typeOf).all (· = .int)
  | .index _ array position =>
      array.isTyped scope && position.isTyped scope &&
        scope.typeOf array = .intArray && scope.typeOf position = .int
  | .length _ array =>
      array.isTyped scope && (scope.typeOf array).isArray

def areTyped (scope : Scope) : List Expr → Bool
  | [] => true
  | expr :: rest => expr.isTyped scope && areTyped scope rest

end

/-- Whether the expression has a value that may stand for one of the type. -/
def yields (scope : Scope) (ty : Ty) (expr : Expr) : Bool :=
  expr.isTyped scope && (scope.typeOf expr).agrees ty &&
    !(scope.typeOf expr).isVoid

variable {scope : Scope}

theorem isTyped_skipParens (expr : Expr) :
    expr.skipParens.isTyped scope = expr.isTyped scope := by
  induction expr with
  | paren attr inner ih => simpa [skipParens, isTyped] using ih
  | _ => rfl

theorem areTyped_eq_true {exprs : List Expr} :
    areTyped scope exprs = true ↔
      ∀ expr ∈ exprs, expr.isTyped scope = true := by
  induction exprs with
  | nil => simp [areTyped]
  | cons expr rest ih => simp [areTyped, ih]

end Expr

/-! ## Statements -/

namespace Stmt

mutual

def isTyped (scope : Scope) : Stmt → Bool
  | .block _ body => areTyped scope body
  | .assign _ target value =>
      target.isTyped scope && value.yields scope (scope.typeOf target)
  | .expr _ value => value.isTyped scope
  | .ret _ (some value) => value.yields scope scope.returnTy
  | .ret _ none => scope.returnTy.isVoid
  | .ifThen _ cond onTrue =>
      cond.yields scope .boolean && onTrue.isTyped scope
  | .ifElse _ cond onTrue onFalse =>
      cond.yields scope .boolean && onTrue.isTyped scope &&
        onFalse.isTyped scope
  | .loop _ cond body => cond.yields scope .boolean && body.isTyped scope

def areTyped (scope : Scope) : List Stmt → Bool
  | [] => true
  | stmt :: rest => stmt.isTyped scope && areTyped scope rest

end

theorem areTyped_eq_true {scope : Scope} {stmts : List Stmt} :
    areTyped scope stmts = true ↔
      ∀ stmt ∈ stmts, stmt.isTyped scope = true := by
  induction stmts with
  | nil => simp [areTyped]
  | cons stmt rest ih => simp [areTyped, ih]

end Stmt

/-! ## Programs -/

def Method.variableNames (method : Method) : List String :=
  (method.signature.params ++ method.signature.locals).map Symbol.name

def Method.isTyped (table : SymbolTable) (method : Method) : Bool :=
  Stmt.areTyped { table, method := method.name } method.body &&
    method.variableNames.Nodup && !method.variableNames.contains "this"

theorem Method.isTyped_eq_true {table : SymbolTable} {method : Method} :
    method.isTyped table = true ↔
      Stmt.areTyped { table, method := method.name } method.body = true ∧
        method.variableNames.Nodup ∧ "this" ∉ method.variableNames := by
  simp [isTyped, and_assoc]

/-- In a well-typed method every variable goes by its name. -/
theorem Method.resolve_variable {table : SymbolTable} {method : Method}
    (h : method.isTyped table = true)
    (known : table.method? method.name = some method.signature)
    {symbol : Symbol}
    (member : symbol ∈ method.signature.params ++ method.signature.locals) :
    let scope : Scope := { table, method := method.name }
    scope.resolve symbol.name = .localVar symbol ∨
      scope.resolve symbol.name = .param symbol := by
  intro scope
  obtain ⟨_, distinct, noReceiver⟩ := isTyped_eq_true.mp h
  have notSelf : symbol.name ≠ "this" := fun same =>
    noReceiver (same ▸ List.mem_map_of_mem member)
  rw [variableNames, List.map_append, List.nodup_append] at distinct
  obtain ⟨distinctParams, distinctLocals, apart⟩ := distinct
  unfold Scope.resolve
  simp only [scope, if_neg notSelf, SymbolTable.locals, SymbolTable.params,
    known, Option.map_some, Option.getD_some]
  rcases List.mem_append.mp member with isParam | isLocal
  · have notLocal :
        method.signature.locals.find? (·.name = symbol.name) = none := by
      rw [List.find?_eq_none]
      intro other isLocal same
      have same : other.name = symbol.name := by simpa using same
      exact apart _ (List.mem_map_of_mem isParam) _
        (List.mem_map_of_mem isLocal) same.symm
    rw [notLocal, find?_of_nodup Symbol.name distinctParams isParam]
    exact .inr rfl
  · rw [find?_of_nodup Symbol.name distinctLocals isLocal]
    exact .inl rfl

/-- Whether the program is well typed under the table that it has itself. -/
def Program.isTyped (program : Program) : Bool :=
  (program.declared.methods.map Method.name).Nodup &&
    program.declared.methods.all (Method.isTyped (.ofProgram program))

end Tree

end JavaMinus
