import JavaMinus.Compilation
import JavaMinus.Files.FileSystem
import JavaMinus.Files.Path
import JavaMinus.Tree.Decode

/-!
# Compiling files

The assembler text of a tree goes to a file named after its class, and the
three-address code, if asked for, to one beside it.  Nothing is touched
before the compilation has succeeded.
-/

namespace JavaMinus.Files

open FileSystem

def compileText (options : Options) (text : String) :
    Except Error Compilation :=
  match Tree.Program.parse? text with
  | some program => program.compile options
  | none => .error .malformed

def outputs (options : Options) (directory : String)
    (compilation : Compilation) : List (String × String) :=
  let name := compilation.ir.name
  (join directory (name ++ ".j"), compilation.assemblyText) ::
    if options.emitIr then
      [(join directory (name ++ ".ollir"), compilation.irText)]
    else []

variable {m : Type → Type} [Monad m] [FileSystem m]

def writeAll : List (String × String) → m Bool
  | [] => pure true
  | (path, content) :: rest => do
      if ← write path content then writeAll rest else pure false

def deliver (directory : String) (files : List (String × String)) :
    m (Except Error (List String)) := do
  if ← makeDirectories directory then
    if ← writeAll files then pure (.ok (files.map Prod.fst))
    else pure (.error .inaccessible)
  else pure (.error .inaccessible)

def compileFile (options : Options) (input directory : String) :
    m (Except Error (List String)) := do
  if (← kind? directory) = some .file then
    pure (.error (.notDirectory directory))
  else match ← read? input with
    | none => pure (.error .inaccessible)
    | some text =>
        match compileText options text with
        | .error error => pure (.error error)
        | .ok compilation =>
            deliver directory (outputs options directory compilation)

end JavaMinus.Files
