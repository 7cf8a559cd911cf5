import JavaMinus.Ir.Text
import JavaMinus.Jvm.Code
import JavaMinus.Tree.Source

/-!
# Errors

Why a compilation fails.  A breach is a tree or a piece of code of a shape
that its producer promised not to hand over.
-/

namespace JavaMinus

inductive Breach where
  -- A value of vararg type outside a parameter list.
  | escapedVararg
  | noValue
  | tooFewArguments (method : String) (given least : Nat)
  | unnamedArray
  | arrayTooLong
  | notIndexable (operand : Ir.Operand)
  | notAssignable (name : String)
  | badTarget (target : Tree.Expr)
  | fault (cause : Jvm.Fault)
  | unbalanced (depth : Nat) (instr : Ir.Instr) (method : String)
  | valueInVoidReturn
  | noValueInReturn (ty : Ty)
  | strayField (name : String)
  | badDestination (dest : Ir.Operand)
  | arraySizeCount
  | objectArguments
  | nonObjectAllocation
  | unnamedMethod
  | specialOnNonObject
  | staticOnNonClass
  | virtualOnNonObject
  deriving Inhabited

def Breach.message : Breach → String
  | .escapedVararg => "vararg type escaped its parameter list"
  | .noValue => "expression produced no value"
  | .tooFewArguments method given least =>
      "call to " ++ method ++ " passes " ++ toString given ++
        " arguments, expected at least " ++ toString least
  | .unnamedArray => "array temporary has no name"
  | .arrayTooLong => "array literal too long"
  | .notIndexable operand => "'" ++ operand.text ++ "' cannot be indexed"
  | .notAssignable name => "'" ++ name ++ "' is not assignable"
  | .badTarget target => "invalid assignment target '" ++ target.text ++ "'"
  | .fault cause => "bytecode stack error: " ++ cause.message
  | .unbalanced depth instr method =>
      "stack depth " ++ toString depth ++ " after `" ++ instr.text ++
        "` in " ++ method
  | .valueInVoidReturn => "void return with an operand"
  | .noValueInReturn ty => "return of " ++ ty.text ++ " without an operand"
  | .strayField name =>
      "field " ++ name ++ " used outside a field instruction"
  | .badDestination dest => "cannot assign to '" ++ dest.text ++ "'"
  | .arraySizeCount => "array allocation needs exactly one size"
  | .objectArguments => "object allocation takes no arguments"
  | .nonObjectAllocation => "allocation of a non-object type"
  | .unnamedMethod => "invocation without a method name"
  | .specialOnNonObject => "invokespecial on a non-object"
  | .staticOnNonClass => "invokestatic target must be a class name"
  | .virtualOnNonObject => "invokevirtual on a non-object"

inductive Error where
  | breach (cause : Breach)
  | tooManyLocals (method : String)
  | notDirectory (path : String)
  | malformed
  | inaccessible
  deriving Inhabited

def Error.message : Error → String
  | .breach cause => "Internal compiler error: " ++ cause.message
  | .tooManyLocals method =>
      "Code generation error: too many locals in " ++ method
  | .notDirectory path =>
      "Configuration error: output path " ++ path ++ " is not a directory"
  | .malformed => "Malformed attributed tree"
  | .inaccessible => "IO error"

def Error.isBreach : Error → Bool
  | .breach _ => true
  | _ => false

end JavaMinus
