import JavaMinus.Symbols.ClassNames

/-!
# Descriptors

How the target machine spells the types of fields and methods.
-/

namespace JavaMinus

def Ty.descriptor (names : ClassNames) : Ty → String
  | .int => "I"
  | .boolean => "Z"
  | .void => "V"
  | .intArray | .vararg => "[I"
  | .stringArray => "[Ljava/lang/String;"
  | .object className => "L" ++ names.binaryName className ++ ";"

def methodDescriptor (names : ClassNames) (params : List Ty) (result : Ty) :
    String :=
  "(" ++ String.join (params.map (Ty.descriptor names)) ++ ")" ++
    result.descriptor names

end JavaMinus
