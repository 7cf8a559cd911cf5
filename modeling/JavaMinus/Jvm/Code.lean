import JavaMinus.Jvm.Opcode

/-!
# Code buffers

The lines of a method as they are emitted, with the depth of the operand
stack after them and the greatest depth so far.  An instruction first pops
and then pushes; when a push fails, what was popped stays popped.
-/

namespace JavaMinus.Jvm

/-! ## Lines -/

inductive Argument where
  | int (value : Int32)
  | slot (index : UInt16)
  | step (index : UInt16) (delta : Int8)
  | label (name : String)
  | symbol (text : String)
  -- A method, with how many values a call of it pops and pushes.
  | method (target : String) (popped pushed : Nat)
  deriving DecidableEq

inductive Line where
  | label (name : String)
  | plain (op : Opcode)
  | apply (op : Opcode) (arg : Argument)
  deriving DecidableEq

def Argument.text : Argument → String
  | .int value => toString value.toInt
  | .slot index => toString index.toNat
  | .step index delta => toString index.toNat ++ " " ++ toString delta.toInt
  | .label name => name
  | .symbol text => text
  | .method target _ _ => target

def Line.text : Line → String
  | .label name => name ++ ":"
  | .plain op => "   " ++ op.mnemonic
  | .apply op arg => "   " ++ op.mnemonic ++ " " ++ arg.text

/-! ## Buffers -/

structure Code where
  depth : Nat := 0
  peak : Nat := 0
  lines : Array Line := #[]
  deriving DecidableEq, Inhabited

inductive Fault where
  | underflow (op : Opcode) (needed depth : Nat)
  | overflow
  | invalidOpcode (byte : UInt8)
  | slotOutOfRange (slot : UInt16)
  deriving DecidableEq

def Fault.message : Fault → String
  | .underflow op needed depth =>
      "Stack underflow: " ++ op.mnemonic ++ " needs " ++ toString needed ++
        " values, depth is " ++ toString depth
  | .overflow => "Stack overflow"
  | .invalidOpcode byte =>
      "Invalid opcode: 0x" ++ String.ofList
        [Nat.digitChar (byte.toNat / 16), Nat.digitChar (byte.toNat % 16)]
  | .slotOutOfRange slot =>
      "Local variable index out of bounds: " ++ toString slot.toNat

def maxDepth : Nat := 65535

/-- An action on a code buffer.  It may fail, and the buffer is then kept. -/
abbrev Emit := EStateM Fault Code

namespace Emit

/-! ## Stack accounting -/

def pop (op : Opcode) (count : Nat) : Emit Unit := do
  let code ← get
  if code.depth < count then throw (.underflow op count code.depth)
  else set { code with depth := code.depth - count }

def push (count : Nat) : Emit Unit := do
  let code ← get
  let depth := code.depth + count
  if maxDepth < depth then throw .overflow
  else set { code with depth, peak := max code.peak depth }

/-- Goes on from a depth that a branch to this place was taken at. -/
def resetDepth (depth : Nat) : Emit Unit :=
  modify fun code => { code with depth }

def account (op : Opcode) : Emit Unit :=
  match op.effect? with
  | some (popped, pushed) => do
      pop op popped
      push pushed
  | none => throw (.invalidOpcode op.byte)

/-! ## Emission -/

def line (entry : Line) : Emit Unit :=
  modify fun code => { code with lines := code.lines.push entry }

def label (name : String) : Emit Unit := line (.label name)

def plain (op : Opcode) : Emit Unit := do
  account op
  line (.plain op)

def apply (op : Opcode) (arg : Argument) : Emit Unit := do
  account op
  line (.apply op arg)

def int (value : Int32) : Emit Unit :=
  let word := value.toInt
  if h : -1 ≤ word ∧ word ≤ 5 then
    plain (.iconst ⟨(word + 1).toNat, by omega⟩)
  else if -128 ≤ word ∧ word ≤ 127 then apply .bipush (.int value)
  else if -32768 ≤ word ∧ word ≤ 32767 then apply .sipush (.int value)
  else apply .ldc (.int value)

def slot (op : Opcode) (index : UInt16) : Emit Unit :=
  match op.shortForm? index with
  | some short => plain short
  | none => apply op (.slot index)

def increment (index : UInt16) (delta : Int8) : Emit Unit :=
  if 255 < index then throw (.slotOutOfRange index)
  else apply .iinc (.step index delta)

/-- A call; `popped` counts the receiver if there is one. -/
def invoke (op : Opcode) (target : String) (popped pushed : Nat) :
    Emit Unit := do
  pop op popped
  push pushed
  line (.apply op (.method target popped pushed))

def branch (op : Opcode) (name : String) : Emit Unit :=
  apply op (.label name)

end Emit

/-! ## Requests -/

inductive Request where
  | plain (op : UInt8)
  | symbol (op : UInt8) (text : String)
  | int (value : Int32)
  | slot (op : UInt8) (index : UInt16)
  | increment (index : UInt16) (delta : Int8)
  | invoke (op : UInt8) (target : String) (popped pushed : UInt16)
  | branch (op : UInt8) (name : String)

namespace Request

def opcode (byte : UInt8) : Emit Opcode :=
  match Opcode.ofByte? byte with
  | some op => pure op
  | none => throw (.invalidOpcode byte)

def perform : Request → Emit Unit
  | .plain op => do Emit.plain (← opcode op)
  | .symbol op text => do Emit.apply (← opcode op) (.symbol text)
  | .int value => Emit.int value
  | .slot op index => do Emit.slot (← opcode op) index
  | .increment index delta => Emit.increment index delta
  | .invoke op target popped pushed => do
      Emit.invoke (← opcode op) target popped.toNat pushed.toNat
  | .branch op name => do Emit.branch (← opcode op) name

end Request

end JavaMinus.Jvm
