import JavaMinus.Error
import JavaMinus.Jvm.Descriptor

/-!
# Emitting code

Three-address instructions as instructions of the stack machine.  Variables
get their slots as they are met.  A comparison is a subtraction whose sign
decides between two blocks, one for each truth value.
-/

namespace JavaMinus.Jvm

open Ir (Operand Instr Call FieldRef Registers)

structure Linkage where
  className : String
  superclass : Option String
  table : SymbolTable

namespace Linkage

def names (linkage : Linkage) : ClassNames := linkage.table.classNames

def superName (linkage : Linkage) : String :=
  match linkage.superclass with
  | some superclass => linkage.names.binaryName superclass
  | none => "java/lang/Object"

end Linkage

structure Frame where
  registers : Registers
  code : Code := {}
  -- The number of comparisons so far, which tells their labels apart.
  comparisons : Nat := 0

abbrev Gen := EStateM Breach Frame

namespace Gen

def emit {α : Type} (action : Emit α) : Gen α := fun frame =>
  match action frame.code with
  | .ok value code => .ok value { frame with code }
  | .error fault code => .error (.fault fault) { frame with code }

/-- The slot of a variable, which it is given on its first use. -/
def slot (name : String) : Gen UInt16 :=
  modifyGet fun frame =>
    (frame.registers.slot name,
      { frame with registers := frame.registers.allocate name })

def depth : Gen Nat := do
  pure (← get).code.depth

/-! ## Operands -/

def load : Operand → Gen Unit
  | .literal value _ => emit (.int value)
  | .var name ty => do
      let index ← slot name
      emit (.slot (if ty.isReference then .aload else .iload) index)
  | .self _ => emit (.plain (.aloadAt 0))
  | .element array position => do
      let index ← slot array
      emit (.slot .aload index)
      load position
      emit (.plain .iaload)
  | .field ref => throw (.strayField ref.name)

def loadAll : List Operand → Gen Unit
  | [] => pure ()
  | operand :: rest => do
      load operand
      loadAll rest

def store (name : String) (ty : Ty) : Gen Unit := do
  let index ← slot name
  emit (.slot (if ty.isReference then .astore else .istore) index)

/-! ## Operations -/

/-- Replaces the two words on top by one or zero. -/
def compare (test : Test) : Gen Unit := do
  let number ← modifyGet fun frame =>
    (frame.comparisons, { frame with comparisons := frame.comparisons + 1 })
  let trueLabel := "cmp_true_" ++ toString number
  let endLabel := "cmp_end_" ++ toString number
  emit (.plain .isub)
  emit (.branch (.branchIf test) trueLabel)
  let before ← depth
  emit (.plain (.truth false))
  emit (.branch .goto endLabel)
  emit (.label trueLabel)
  emit (.resetDepth before)
  emit (.plain (.truth true))
  emit (.label endLabel)

def operate : Operator → Gen Unit
  | .add => emit (.plain .iadd)
  | .sub => emit (.plain .isub)
  | .mul => emit (.plain .imul)
  | .div => emit (.plain .idiv)
  | .and => emit (.plain .iand)
  | .lt => compare .lt
  | .gt => compare .gt
  | .eq => compare .eq
  | .ne => compare .ne

def fieldTarget (linkage : Linkage) (field : FieldRef) : String :=
  linkage.names.binaryName field.owner ++ "/" ++ field.name ++ " " ++
    field.ty.descriptor linkage.names

/-! ## Calls -/

def allocate (linkage : Linkage) (call : Call) : Gen Unit :=
  if call.returnTy.isArray then
    match call.args with
    | [size] => do
        load size
        emit (.apply .newarray (.symbol "int"))
    | _ => throw .arraySizeCount
  else if !call.args.isEmpty then throw .objectArguments
  else match call.returnTy.className? with
    | some className =>
        emit (.apply .new (.symbol (linkage.names.binaryName className)))
    | none => throw .nonObjectAllocation

/-- The signature of a method of this very class that is called virtually. -/
def ownSignature? (linkage : Linkage) (call : Call) (method : String) :
    Option Signature :=
  if call.kind = .virtual ∧
      call.target.ty.className? = some linkage.className then
    linkage.table.method? method
  else none

/--
The instruction for a call and the class that the method is looked up in.  A
method that this class does not declare is looked up in its superclass.
-/
def dispatch (linkage : Linkage) (call : Call) (own : Option Signature) :
    Gen (Opcode × String) :=
  match call.kind with
  | .special =>
      match call.target with
      | .self _ => pure (.invokespecial, linkage.superName)
      | target =>
          match target.ty.className? with
          | some receiver =>
              pure (.invokespecial, linkage.names.binaryName receiver)
          | none => throw .specialOnNonObject
  | .static =>
      match call.target with
      | .var name _ => pure (.invokestatic, linkage.names.binaryName name)
      | _ => throw .staticOnNonClass
  | _ =>
      match call.target.ty.className? with
      | some receiver =>
          if receiver = linkage.className ∧ own = none ∧
              linkage.superclass.isSome then
            pure (.invokevirtual, linkage.superName)
          else pure (.invokevirtual, linkage.names.binaryName receiver)
      | none => throw .virtualOnNonObject

def callDescriptor (linkage : Linkage) (call : Call) :
    Option Signature → String
  | some signature =>
      methodDescriptor linkage.names (signature.params.map Symbol.ty)
        signature.returnTy
  | none =>
      methodDescriptor linkage.names (call.args.map Operand.ty)
        call.returnTy

/--
Receiver and arguments are loaded before the target is looked at.  A call never
has more of them than a count of words can say, as the stack is full before.
-/
def invoke (linkage : Linkage) (call : Call) : Gen Unit :=
  match call.method with
  | none => throw .unnamedMethod
  | some method => do
      let loaded :=
        if call.kind = .static then call.args else call.target :: call.args
      loadAll loaded
      let own := ownSignature? linkage call method
      let (op, owner) ← dispatch linkage call own
      let target :=
        owner ++ "/" ++ method ++ callDescriptor linkage call own
      emit (.invoke op target loaded.length
        (if call.returnTy.isVoid then 0 else 1))

def call (linkage : Linkage) (call : Call) : Gen Unit :=
  match call.kind with
  | .new => allocate linkage call
  | .arrayLength => do
      load call.target
      emit (.plain .arraylength)
  | .special | .virtual | .static => invoke linkage call

/-! ## Instructions -/

/-- What an operation adds to a variable, if it does nothing else. -/
def step? (name : String) (op : Operator) (left right : Operand) :
    Option Int :=
  match op with
  | .add =>
      if isSelf left then literal? right
      else if isSelf right then literal? left
      else none
  | .sub => if isSelf left then (literal? right).map (- ·) else none
  | _ => none
where
  isSelf : Operand → Bool
    | .var other _ => other = name
    | _ => false
  literal? : Operand → Option Int
    | .literal value _ => some value.toInt
    | _ => none

def increment? (name : String) (ty : Ty) (value : Instr) : Option Int8 :=
  match value with
  | .binary op left right _ => do
      let step ← step? name op left right
      if ty = .int ∧ -128 ≤ step ∧ step ≤ 127 then some (Int8.ofInt step)
      else none
  | _ => none

/-- Emits the increment if the slot of the variable allows one. -/
def tryIncrement (name : String) (ty : Ty) (value : Instr) : Gen Bool :=
  match increment? name ty value with
  | some delta => do
      let index ← slot name
      if index ≤ 255 then do
        emit (.increment index delta)
        pure true
      else pure false
  | none => pure false

def ret : Ty → Option Operand → Gen Unit
  | ty, some operand => do
      load operand
      if ty.isReference then emit (.plain .areturn)
      else if ty.isVoid then throw .valueInVoidReturn
      else emit (.plain .ireturn)
  | ty, none =>
      if ty.isVoid then emit (.plain .vreturn)
      else throw (.noValueInReturn ty)

def instr (linkage : Linkage) : Instr → Gen Unit
  | .assign (.element array position) _ value => do
      let index ← slot array
      emit (.slot .aload index)
      load position
      instr linkage value
      emit (.plain .iastore)
  | .assign (.var name _) ty value => do
      if ← tryIncrement name ty value then pure ()
      else do
        instr linkage value
        store name ty
  | .assign dest _ _ => throw (.badDestination dest)
  | .single operand => load operand
  | .binary op left right _ => do
      load left
      load right
      operate op
  | .not operand _ => do
      load operand
      emit (.plain (.truth true))
      emit (.plain .ixor)
  | .call invocation => call linkage invocation
  | .getField object field => do
      load object
      emit (.apply .getfield (.symbol (fieldTarget linkage field)))
  | .putField object field value => do
      load object
      load value
      emit (.apply .putfield (.symbol (fieldTarget linkage field)))
  | .branch condition label => do
      load condition
      emit (.branch (.branchIf .ne) label)
  | .goto label => emit (.branch .goto label)
  | .ret ty operand => ret ty operand

/-- A call whose value nobody takes leaves it on the stack; it is dropped. -/
def dropResult : Instr → Gen Unit
  | .call invocation =>
      if invocation.returnTy.isVoid then pure () else emit (.plain .pop)
  | _ => pure ()

end Gen

end JavaMinus.Jvm
