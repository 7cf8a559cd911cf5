/-!
# Registers

The local slots of a method.  In an instance method slot 0 is the receiver;
parameters follow in the order of declaration, and every other variable takes
the next slot when it is first used.  Slots are 16-bit words and wrap around.
-/

namespace JavaMinus.Ir

/-- The names that have a slot, in the order of their slots. -/
structure Registers where
  names : List String := []
  deriving DecidableEq, Inhabited

namespace Registers

def contains (registers : Registers) (name : String) : Bool :=
  registers.names.contains name

def size (registers : Registers) : Nat := registers.names.length

def slot? (registers : Registers) (name : String) : Option UInt16 :=
  (registers.names.idxOf? name).map Nat.toUInt16

def allocate (registers : Registers) (name : String) : Registers :=
  if registers.contains name then registers
  else { names := registers.names ++ [name] }

/-- The slot that a name has, or would be given next. -/
def slot (registers : Registers) (name : String) : UInt16 :=
  (registers.names.idxOf name).toUInt16

def allocateAll (registers : Registers) (names : List String) : Registers :=
  names.foldl allocate registers

def ofMethod (isStatic : Bool) (params : List String) : Registers :=
  (if isStatic then {} else allocate {} "this").allocateAll params

def entries (registers : Registers) : List (String × UInt16) :=
  registers.names.zipIdx.map fun (name, index) => (name, index.toUInt16)

end Registers

end JavaMinus.Ir
