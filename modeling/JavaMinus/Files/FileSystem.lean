/-!
# File systems

What the compiler asks of the file system it runs on.  Every request may
fail, and no reason is told.
-/

namespace JavaMinus.Files

inductive Kind where
  | file
  | directory
  deriving DecidableEq

class FileSystem (m : Type → Type) where
  kind? : String → m (Option Kind)
  read? : String → m (Option String)
  -- Makes a directory and those that lead to it, where they are missing. A
  -- path that ends with a dot only names a directory, so that one is not
  -- made, and a blank path asks for nothing.
  makeDirectories : String → m Bool
  write : String → String → m Bool

end JavaMinus.Files
