/-!
# Types

The language has two primitive types, arrays of ints, the array of strings
that `main` receives, and class types.  A vararg type is legal only as the
last formal parameter; inside the body such a parameter is the int array its
arguments were packed into, which is what `valueTy` says.
-/

namespace JavaMinus

inductive Ty where
  | int
  | boolean
  | void
  | intArray
  | stringArray
  | vararg
  | object (className : String)
  deriving DecidableEq, Inhabited

namespace Ty

def string : Ty := .object "String"

def text : Ty → String
  | .int => "int"
  | .boolean => "boolean"
  | .void => "void"
  | .intArray => "int[]"
  | .stringArray => "String[]"
  | .vararg => "int..."
  | .object className => className

/--
The spelling of a type in three-address code, where it follows a dot.  A
vararg is spelled as the array it is packed into.
-/
def suffix : Ty → String
  | .int => "i32"
  | .boolean => "bool"
  | .void => "V"
  | .intArray | .vararg => "array.i32"
  | .stringArray => "array.String"
  | .object className => className

/-- Values of these types are references; all others are 32-bit words. -/
def isReference : Ty → Bool
  | .intArray | .stringArray | .vararg | .object _ => true
  | .int | .boolean | .void => false

def isArray : Ty → Bool
  | .intArray | .stringArray | .vararg => true
  | .int | .boolean | .void | .object _ => false

def isVoid : Ty → Bool
  | .void => true
  | _ => false

/-- The type that a value of this type has inside a method body. -/
def valueTy : Ty → Ty
  | .vararg => .intArray
  | ty => ty

def className? : Ty → Option String
  | .object className => some className
  | _ => none

end Ty

end JavaMinus
