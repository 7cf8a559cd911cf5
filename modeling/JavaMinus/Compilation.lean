import JavaMinus.Constants.Rounds
import JavaMinus.Jvm.Assembly
import JavaMinus.Lowering.Program

/-!
# Compilation

From an attributed tree to three-address code and assembler text.
-/

namespace JavaMinus

structure Options where
  optimize : Bool := false
  emitIr : Bool := false
  deriving DecidableEq

structure Compilation where
  ir : Ir.Class
  assembly : Jvm.Class

namespace Compilation

def irText (compilation : Compilation) : String := compilation.ir.text

def assemblyText (compilation : Compilation) : String :=
  compilation.assembly.text

end Compilation

namespace Tree.Program

def prepare (options : Options) (program : Program) : Round :=
  if options.optimize then program.simplify else ⟨program, 0, 0⟩

def toIr (table : SymbolTable) (program : Program) :
    Except Error Ir.Class :=
  match program.lower table {} with
  | .ok ir _ => .ok ir
  | .error cause _ => .error (.breach cause)

def compileWith (table : SymbolTable) (options : Options)
    (program : Program) : Except Error Compilation := do
  let ir ← (program.prepare options).program.toIr table
  let assembly ← Jvm.Class.ofIr table ir
  pure { ir, assembly }

def compile (options : Options) (program : Program) :
    Except Error Compilation :=
  program.compileWith (.ofProgram program) options

end Tree.Program

end JavaMinus
