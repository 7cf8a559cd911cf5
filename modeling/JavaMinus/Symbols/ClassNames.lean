import JavaMinus.Symbols.Table

/-!
# Binary class names

The language names classes by their last segment; the target machine names
them by their whole path, with slashes.  A name that cannot be resolved
stands for itself.
-/

namespace JavaMinus

structure ClassNames where
  className : String
  imports : List String

def SymbolTable.classNames (table : SymbolTable) : ClassNames :=
  { className := table.className, imports := table.imports }

namespace ClassNames

/-- What follows the last dot of a path, or the path if it has none. -/
def lastSegment (path : String) : String :=
  String.ofList (path.toList.reverse.takeWhile (· != '.')).reverse

def slashed (path : String) : String :=
  path.map fun c => if c = '.' then '/' else c

def import? (names : ClassNames) (simple : String) : Option String :=
  names.imports.find? fun path => lastSegment path = simple

def binaryName (names : ClassNames) (name : String) : String :=
  if name = "this" || name = names.className then slashed names.className
  else match names.import? name with
    | some path => slashed path
    | none => if name = "String" then "java/lang/String" else name

end ClassNames

end JavaMinus
