/-!
# Paths

A path is a row of names with slashes between them.  Blank names and single
dots do not lead on, but what stands before them has to be a directory.  A
name has at most 255 bytes and a path at most 4095.
-/

namespace JavaMinus.Files

def isName (name : String) : Bool := name.utf8ByteSize ≤ 255

def isPath (path : String) : Bool :=
  !path.isEmpty && path.utf8ByteSize ≤ 4095 && !path.toList.contains '\x00'

def isAbsolute (path : String) : Bool := path.toList.head? = some '/'

/-- The path of a file in a directory.  An absolute path stands for itself. -/
def join (directory file : String) : String :=
  if isAbsolute file || directory.isEmpty then file
  else if directory.toList.getLast? = some '/' then directory ++ file
  else directory ++ "/" ++ file

/-- All names in a path, outermost first, with the blank ones and the dots. -/
def names (path : String) : List String :=
  (path.toList.splitOn '/').map String.ofList

/--
The names of the directories that lead to a path, outermost first.  The last
name is not among them, also when a dot follows it.
-/
def leadingNames (path : String) : List String :=
  ((names path).filter fun name => name ≠ "" && name ≠ ".").dropLast

def pathsFrom (start : String) : List String → List String
  | [] => []
  | name :: rest => (start ++ name) :: pathsFrom (start ++ name ++ "/") rest

def leading (path : String) : List String :=
  pathsFrom (if isAbsolute path then "/" else "") (leadingNames path)

end JavaMinus.Files
