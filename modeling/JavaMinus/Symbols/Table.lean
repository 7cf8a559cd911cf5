import JavaMinus.Tree.Basic

/-!
# Symbol tables

What is declared in one compilation unit.  A table is derived from a tree or
handed over by a front end, and in the second case it need not agree with the
tree.  Where a name is declared twice, the first declaration counts.
-/

namespace JavaMinus

structure Symbol where
  name : String
  ty : Ty
  deriving DecidableEq, Inhabited

structure Signature where
  name : String
  params : List Symbol
  locals : List Symbol
  returnTy : Ty
  isStatic : Bool := false
  deriving DecidableEq, Inhabited

structure SymbolTable where
  className : String
  superclass : Option String := none
  -- The paths of the imports, with dots, in the order of declaration.
  imports : List String := []
  fields : List Symbol := []
  methods : List Signature := []
  deriving DecidableEq, Inhabited

def Signature.hasVararg (signature : Signature) : Bool :=
  match signature.params.getLast? with
  | some param => param.ty = .vararg
  | none => false

def Tree.Variable.symbol (decl : Tree.Variable) : Symbol :=
  { name := decl.name, ty := decl.ty }

/--
The signature of a method.  A static `main` that declares no parameter has
the one that the entry point of a program is called with.
-/
def Tree.Method.signature (method : Tree.Method) : Signature where
  name := method.name
  params :=
    if method.name = "main" && method.isStatic && method.params.isEmpty then
      [{ name := "args", ty := .stringArray }]
    else method.params.map Tree.Variable.symbol
  locals := method.locals.map Tree.Variable.symbol
  returnTy := method.returnTy
  isStatic := method.isStatic

namespace SymbolTable

def ofProgram (program : Tree.Program) : SymbolTable where
  className := program.declared.name
  superclass := program.declared.superclass
  imports := program.imports.map Tree.Import.dotted
  fields := program.declared.fields.map Tree.Variable.symbol
  methods := program.declared.methods.map Tree.Method.signature

def field? (table : SymbolTable) (name : String) : Option Symbol :=
  table.fields.find? (·.name = name)

def method? (table : SymbolTable) (name : String) : Option Signature :=
  table.methods.find? (·.name = name)

def params (table : SymbolTable) (method : String) : List Symbol :=
  ((table.method? method).map Signature.params).getD []

def locals (table : SymbolTable) (method : String) : List Symbol :=
  ((table.method? method).map Signature.locals).getD []

def returnTy? (table : SymbolTable) (method : String) : Option Ty :=
  (table.method? method).map Signature.returnTy

end SymbolTable

end JavaMinus
