import JavaMinus.Symbols.ClassNames

/-!
# Scopes

Where a name used in a method body comes from.  Locals hide parameters, which
hide fields, which hide imports, which hide the enclosing class and its
superclass.
-/

namespace JavaMinus

inductive Origin where
  | localVar (symbol : Symbol)
  | param (symbol : Symbol)
  | field (symbol : Symbol)
  -- An imported class, by its path with dots.
  | imported (path : String)
  -- The receiver, the enclosing class or its superclass.
  | enclosing
  | unknown
  deriving DecidableEq

/-- A method by its name, in the class that a table describes. -/
structure Scope where
  table : SymbolTable
  method : String

namespace Scope

def className (scope : Scope) : String := scope.table.className

/-- The declared return type; an unknown method returns nothing. -/
def returnTy (scope : Scope) : Ty :=
  (scope.table.returnTy? scope.method).getD .void

def resolve (scope : Scope) (name : String) : Origin :=
  let table := scope.table
  if name = "this" then .enclosing
  else if let some symbol :=
      (table.locals scope.method).find? (·.name = name) then
    .localVar symbol
  else if let some symbol :=
      (table.params scope.method).find? (·.name = name) then
    .param symbol
  else if let some symbol := table.field? name then .field symbol
  else if let some path := table.classNames.import? name then .imported path
  else if name = table.className || table.superclass = some name then
    .enclosing
  else .unknown

end Scope

end JavaMinus
