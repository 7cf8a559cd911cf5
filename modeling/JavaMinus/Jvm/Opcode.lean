/-!
# Opcodes

The instructions of the virtual machine that code is emitted for, with their
byte values, mnemonics and effects on the operand stack.
-/

namespace JavaMinus.Jvm

inductive Test where
  | eq
  | ne
  | lt
  | ge
  | gt
  | le
  deriving DecidableEq, Inhabited

inductive Opcode where
  -- Pushes a word from minus one to five, which is one less than `index`.
  | iconst (index : Fin 7)
  | bipush
  | sipush
  | ldc
  | iload
  | aload
  | istore
  | astore
  -- The forms of the above for the first four slots.
  | iloadAt (slot : Fin 4)
  | aloadAt (slot : Fin 4)
  | istoreAt (slot : Fin 4)
  | astoreAt (slot : Fin 4)
  | iaload
  | iastore
  | pop
  | dup
  | iadd
  | isub
  | imul
  | idiv
  | iand
  | ixor
  | iinc
  | branchIf (test : Test)
  | goto
  | ireturn
  | areturn
  | vreturn
  | getfield
  | putfield
  | invokevirtual
  | invokespecial
  | invokestatic
  | new
  | newarray
  | arraylength
  deriving DecidableEq, Inhabited

namespace Opcode

def truth : Bool → Opcode
  | false => .iconst ⟨1, by decide⟩
  | true => .iconst ⟨2, by decide⟩

def all : List Opcode := List.flatten [
  (List.finRange 7).map .iconst,
  [.bipush, .sipush, .ldc, .iload, .aload],
  (List.finRange 4).map .iloadAt,
  (List.finRange 4).map .aloadAt,
  [.iaload, .istore, .astore],
  (List.finRange 4).map .istoreAt,
  (List.finRange 4).map .astoreAt,
  [.iastore, .pop, .dup, .iadd, .isub, .imul, .idiv, .iand, .ixor, .iinc],
  [.branchIf .eq, .branchIf .ne, .branchIf .lt, .branchIf .ge, .branchIf .gt,
    .branchIf .le],
  [.goto, .ireturn, .areturn, .vreturn, .getfield, .putfield],
  [.invokevirtual, .invokespecial, .invokestatic],
  [.new, .newarray, .arraylength]]

def byte : Opcode → UInt8
  | .iconst index => 0x02 + index.val.toUInt8
  | .bipush => 0x10
  | .sipush => 0x11
  | .ldc => 0x12
  | .iload => 0x15
  | .aload => 0x19
  | .iloadAt slot => 0x1a + slot.val.toUInt8
  | .aloadAt slot => 0x2a + slot.val.toUInt8
  | .iaload => 0x2e
  | .istore => 0x36
  | .astore => 0x3a
  | .istoreAt slot => 0x3b + slot.val.toUInt8
  | .astoreAt slot => 0x4b + slot.val.toUInt8
  | .iastore => 0x4f
  | .pop => 0x57
  | .dup => 0x59
  | .iadd => 0x60
  | .isub => 0x64
  | .imul => 0x68
  | .idiv => 0x6c
  | .iand => 0x7e
  | .ixor => 0x82
  | .iinc => 0x84
  | .branchIf .eq => 0x99
  | .branchIf .ne => 0x9a
  | .branchIf .lt => 0x9b
  | .branchIf .ge => 0x9c
  | .branchIf .gt => 0x9d
  | .branchIf .le => 0x9e
  | .goto => 0xa7
  | .ireturn => 0xac
  | .areturn => 0xb0
  | .vreturn => 0xb1
  | .getfield => 0xb4
  | .putfield => 0xb5
  | .invokevirtual => 0xb6
  | .invokespecial => 0xb7
  | .invokestatic => 0xb8
  | .new => 0xbb
  | .newarray => 0xbc
  | .arraylength => 0xbe

/-- The opcode with a byte value; many bytes are no opcode here. -/
def ofByte? (value : UInt8) : Option Opcode :=
  all.find? (·.byte = value)

def mnemonic : Opcode → String
  | .iconst index =>
      if index = 0 then "iconst_m1" else "iconst_" ++ toString (index.val - 1)
  | .bipush => "bipush"
  | .sipush => "sipush"
  | .ldc => "ldc"
  | .iload => "iload"
  | .aload => "aload"
  | .istore => "istore"
  | .astore => "astore"
  | .iloadAt slot => "iload_" ++ toString slot.val
  | .aloadAt slot => "aload_" ++ toString slot.val
  | .istoreAt slot => "istore_" ++ toString slot.val
  | .astoreAt slot => "astore_" ++ toString slot.val
  | .iaload => "iaload"
  | .iastore => "iastore"
  | .pop => "pop"
  | .dup => "dup"
  | .iadd => "iadd"
  | .isub => "isub"
  | .imul => "imul"
  | .idiv => "idiv"
  | .iand => "iand"
  | .ixor => "ixor"
  | .iinc => "iinc"
  | .branchIf .eq => "ifeq"
  | .branchIf .ne => "ifne"
  | .branchIf .lt => "iflt"
  | .branchIf .ge => "ifge"
  | .branchIf .gt => "ifgt"
  | .branchIf .le => "ifle"
  | .goto => "goto"
  | .ireturn => "ireturn"
  | .areturn => "areturn"
  | .vreturn => "return"
  | .getfield => "getfield"
  | .putfield => "putfield"
  | .invokevirtual => "invokevirtual"
  | .invokespecial => "invokespecial"
  | .invokestatic => "invokestatic"
  | .new => "new"
  | .newarray => "newarray"
  | .arraylength => "arraylength"

/--
How many values an instruction pops and then pushes.  For invocations that
depends on the method.
-/
def effect? : Opcode → Option (Nat × Nat)
  | .iconst _ | .bipush | .sipush | .ldc => some (0, 1)
  | .iload | .aload | .iloadAt _ | .aloadAt _ => some (0, 1)
  | .istore | .astore | .istoreAt _ | .astoreAt _ => some (1, 0)
  | .iaload => some (2, 1)
  | .iastore => some (3, 0)
  | .pop => some (1, 0)
  | .dup => some (1, 2)
  | .iadd | .isub | .imul | .idiv | .iand | .ixor => some (2, 1)
  | .iinc | .goto | .vreturn => some (0, 0)
  | .branchIf _ | .ireturn | .areturn => some (1, 0)
  | .getfield => some (1, 1)
  | .putfield => some (2, 0)
  | .invokevirtual | .invokespecial | .invokestatic => none
  | .new => some (0, 1)
  | .newarray | .arraylength => some (1, 1)

def shortForm? (op : Opcode) (slot : UInt16) : Option Opcode :=
  if h : slot.toNat < 4 then
    match op with
    | .iload => some (.iloadAt ⟨slot.toNat, h⟩)
    | .aload => some (.aloadAt ⟨slot.toNat, h⟩)
    | .istore => some (.istoreAt ⟨slot.toNat, h⟩)
    | .astore => some (.astoreAt ⟨slot.toNat, h⟩)
    | _ => none
  else none

end Opcode

end JavaMinus.Jvm
