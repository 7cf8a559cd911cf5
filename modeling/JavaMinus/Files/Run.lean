import JavaMinus.Files.Command
import JavaMinus.Files.Compile
import JavaMinus.Tree.Outline

/-!
# Running commands

A command yields a status, what it prints, and for status 1 a complaint.
-/

namespace JavaMinus.Files

structure Outcome where
  status : Nat
  output : String := ""
  complaint : Option String := none
  deriving DecidableEq

namespace Outcome

def success (output : String) : Outcome := { status := 0, output }

def failure (complaint : String) : Outcome :=
  { status := 1, complaint := some complaint }

def misuse : Outcome := { status := 2 }

end Outcome

variable {m : Type → Type} [Monad m] [FileSystem m]

def load (input : String) : m (Except String Tree.Program) := do
  match ← FileSystem.read? input with
  | none => pure (.error ("failed to read " ++ input))
  | some text =>
      match Tree.Program.parse? text with
      | some program => pure (.ok program)
      | none =>
          pure (.error (input ++ " is not a valid attributed tree"))

def printFrom (input : String) (print : Tree.Program → Except Error String) :
    m Outcome := do
  match ← load input with
  | .error complaint => pure (.failure complaint)
  | .ok program =>
      match print program with
      | .ok output => pure (.success output)
      | .error error => pure (.failure error.message)

def Command.run : Command → m Outcome
  | .version => pure (.success "jmmc 0.1.0\n")
  | .compile input output options verbose => do
      match ← compileFile options input (output.getD ".") with
      | .error _ => pure (.failure ("failed to compile " ++ input))
      | .ok written =>
          pure (.success (if verbose then
            String.join (written.map fun path => "wrote " ++ path ++ "\n")
            else ""))
  | .ir input optimize =>
      printFrom input fun program =>
        (program.compile { optimize }).map Compilation.irText
  | .assembly input optimize =>
      printFrom input fun program =>
        (program.compile { optimize }).map Compilation.assemblyText
  | .tree input =>
      printFrom input fun program => .ok (program.outline.render 0)

def run (words : List String) : m Outcome :=
  match Command.ofWords? words with
  | some command => command.run
  | none => pure .misuse

end JavaMinus.Files
