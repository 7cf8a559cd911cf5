import JavaMinus.Ir.Labels
import JavaMinus.Ir.Registers
import JavaMinus.Symbols.Table

/-!
# Three-address code

Instructions over named operands.  On a stack machine every instruction is
neutral: what it pushes it consumes or stores before the next one starts.
-/

namespace JavaMinus.Ir

structure FieldRef where
  owner : String
  name : String
  ty : Ty
  deriving DecidableEq, Inhabited

inductive Operand where
  | literal (value : Int32) (ty : Ty)
  | var (name : String) (ty : Ty)
  | element (array : String) (position : Operand)
  | self (className : String)
  -- A field, which only field instructions can take.
  | field (ref : FieldRef)
  deriving DecidableEq, Inhabited

namespace Operand

def int (value : Int32) : Operand := .literal value .int

def bool (value : Bool) : Operand :=
  .literal (if value then 1 else 0) .boolean

def ty : Operand → Ty
  | .literal _ ty | .var _ ty => ty
  | .element _ _ => .int
  | .self className => .object className
  | .field ref => ref.ty

def varName? : Operand → Option String
  | .var name _ => some name
  | .element array _ => some array
  | .literal _ _ | .self _ | .field _ => none

end Operand

inductive CallKind where
  | new
  | special
  | static
  | virtual
  | arrayLength
  deriving DecidableEq, Inhabited

structure Call where
  kind : CallKind
  -- The receiver of a virtual or special call, the class of a static call
  -- or an allocation, the array whose length is taken.
  target : Operand
  method : Option String := none
  args : List Operand := []
  returnTy : Ty
  deriving DecidableEq, Inhabited

inductive Instr where
  | assign (dest : Operand) (ty : Ty) (value : Instr)
  | single (operand : Operand)
  | binary (op : Operator) (left right : Operand) (ty : Ty)
  | not (operand : Operand) (ty : Ty)
  | call (invocation : Call)
  | getField (object : Operand) (field : FieldRef)
  | putField (object : Operand) (field : FieldRef) (value : Operand)
  -- Continues at the label if the condition is not zero.
  | branch (condition : Operand) (label : String)
  | goto (label : String)
  | ret (ty : Ty) (operand : Option Operand)
  deriving DecidableEq, Inhabited

namespace Instr

def store (dest : Operand) (value : Instr) : Instr :=
  .assign dest dest.ty value

def isReturn : Instr → Bool
  | .ret _ _ => true
  | _ => false

def isJump : Instr → Bool
  | .goto _ | .ret _ _ => true
  | _ => false

def target? : Instr → Option String
  | .goto label | .branch _ label => some label
  | _ => none

end Instr

inductive Fragment where
  | label (name : String)
  | instr (code : Instr)
  deriving DecidableEq, Inhabited

structure Field where
  name : String
  ty : Ty
  isPublic : Bool := true
  isStatic : Bool := false
  isFinal : Bool := false
  deriving DecidableEq, Inhabited

structure Method where
  name : String
  isPublic : Bool := true
  isStatic : Bool := false
  isFinal : Bool := false
  isConstructor : Bool := false
  params : List Symbol := []
  returnTy : Ty
  instrs : List Instr
  labels : Labels := []
  registers : Registers
  deriving DecidableEq, Inhabited

namespace Method

def endsWithReturn (method : Method) : Bool :=
  match method.instrs.getLast? with
  | some instr => instr.isReturn
  | none => false

end Method

structure Class where
  name : String
  superclass : Option String := none
  imports : List String := []
  fields : List Field := []
  methods : List Method := []
  deriving DecidableEq, Inhabited

namespace Class

/-- Where the first method of this name stands that is no constructor. -/
def methodIndex? (cls : Class) (name : String) : Option Nat :=
  cls.methods.findIdx? fun method =>
    method.name = name && !method.isConstructor

def method? (cls : Class) (name : String) : Option Method := do
  cls.methods[← cls.methodIndex? name]?

def constructor? (cls : Class) : Option Method :=
  cls.methods.find? Method.isConstructor

end Class

end JavaMinus.Ir
