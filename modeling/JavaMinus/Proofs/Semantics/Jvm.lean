import JavaMinus.Jvm.Assembly
import JavaMinus.Proofs.Semantics.Ir
import JavaMinus.Proofs.Semantics.References

/-!
# The meaning of machine code

A machine that runs the lines of a method on an operand stack and on local
slots.  Values carry no types there: loads and stores move any value.  Fields
and methods are what the text of an instruction is read as.  A call takes as
many values as the type of the method says that was read, whatever the code
that emitted it had in mind.
-/

namespace JavaMinus.Jvm

structure Runtime where
  oracle : Oracle
  field? : String → Option FieldId
  method? : String → Option MethodRef

/-- References are read as they are spelled on the target machine. -/
def Runtime.reading (oracle : Oracle) : Runtime where
  oracle
  field? := readFieldId
  method? := readMethodRef

abbrev Slots := UInt16 → Option Value

def Slots.set (slots : Slots) (index : UInt16) (value : Value) : Slots :=
  fun other => if other = index then some value else slots other

inductive Control where
  | next (stack : List Value) (slots : Slots)
  | jump (label : String) (stack : List Value)
  | ret (value : Option Value)

def Test.holds : Test → Int32 → Bool
  | .eq, word => word = 0
  | .ne, word => word ≠ 0
  | .lt, word => word < 0
  | .ge, word => 0 ≤ word
  | .gt, word => 0 < word
  | .le, word => word ≤ 0

/-! ## Instructions -/

section Instructions

variable (stack : List Value) (slots : Slots)

def push (value : Value) : Effect Control :=
  pure (.next (value :: stack) slots)

def pushWithin (low high : Int) (word : Int32) : Effect Control :=
  if low ≤ word.toInt ∧ word.toInt ≤ high then push stack slots (.word word)
  else Effect.stuck

def loadSlot (index : UInt16) : Effect Control :=
  match slots index with
  | some value => push stack slots value
  | none => Effect.stuck

def storeSlot (index : UInt16) : Effect Control :=
  match stack with
  | value :: rest => pure (.next rest (slots.set index value))
  | [] => Effect.stuck

/-- Adds to the word in a slot, whose index has to fit a byte. -/
def addToSlot (index : UInt16) (delta : Int8) : Effect Control :=
  match slots index with
  | some value => do
      let word ← Effect.word value
      if index ≤ 255 then
        pure (.next stack
          (slots.set index (.word (word + delta.toInt32))))
      else Effect.stuck
  | none => Effect.stuck

def onWords (operation : Int32 → Int32 → Effect Int32) : Effect Control :=
  match stack with
  | right :: left :: rest => do
      let left ← Effect.word left
      let right ← Effect.word right
      let word ← operation left right
      push rest slots (.word word)
  | _ => Effect.stuck

def onTop (action : Value → Effect Value) : Effect Control :=
  match stack with
  | value :: rest => do
      let value ← action value
      push rest slots value
  | [] => Effect.stuck

def branchOn (test : Test) (label : String) : Effect Control :=
  match stack with
  | value :: rest => do
      let word ← Effect.word value
      pure (if test.holds word then .jump label rest else .next rest slots)
  | [] => Effect.stuck

def invoke (runtime : Runtime) (kind : Ir.CallKind) (target : String) :
    Effect Control :=
  match runtime.method? target with
  | none => Effect.stuck
  | some method =>
      let count := method.taken kind
      if stack.length < count then Effect.stuck
      else do
        let value ← Effect.call runtime.oracle (method.callee kind)
          (stack.take count).reverse
        let rest := stack.drop count
        pure (.next (if method.isVoid then rest else value :: rest) slots)

def getField (runtime : Runtime) (target : String) : Effect Control :=
  match runtime.field? target with
  | none => Effect.stuck
  | some field => onTop stack slots fun object => Effect.getField object field

/-- Writes the value on top to a field of the object below it. -/
def putField (runtime : Runtime) (target : String) : Effect Control :=
  match runtime.field? target, stack with
  | some field, value :: object :: rest => do
      Effect.putField object field value
      pure (.next rest slots)
  | _, _ => Effect.stuck

end Instructions

def Opcode.run (stack : List Value) (slots : Slots) :
    Opcode → Effect Control
  | .iconst index =>
      push stack slots (.word (.ofInt ((index.val : Int) - 1)))
  | .iloadAt slot | .aloadAt slot => loadSlot stack slots slot.val.toUInt16
  | .istoreAt slot | .astoreAt slot => storeSlot stack slots slot.val.toUInt16
  | .iaload =>
      match stack with
      | position :: array :: rest => do
          let value ← Effect.load array position
          push rest slots value
      | _ => Effect.stuck
  | .iastore =>
      match stack with
      | value :: position :: array :: rest => do
          Effect.store array position value
          pure (.next rest slots)
      | _ => Effect.stuck
  | .pop =>
      match stack with
      | _ :: rest => pure (.next rest slots)
      | [] => Effect.stuck
  | .dup =>
      match stack with
      | value :: _ => push stack slots value
      | [] => Effect.stuck
  | .iadd => onWords stack slots fun left right => pure (left + right)
  | .isub => onWords stack slots fun left right => pure (left - right)
  | .imul => onWords stack slots fun left right => pure (left * right)
  | .idiv => onWords stack slots fun left right =>
      if right = 0 then Effect.trap .zeroDivision else pure (left / right)
  | .iand => onWords stack slots fun left right => pure (left &&& right)
  | .ixor => onWords stack slots fun left right => pure (left ^^^ right)
  | .ireturn | .areturn =>
      match stack with
      | value :: _ => pure (.ret (some value))
      | [] => Effect.stuck
  | .vreturn => pure (.ret none)
  | .arraylength => onTop stack slots Effect.length
  | _ => Effect.stuck

def Opcode.runWith (runtime : Runtime) (stack : List Value) (slots : Slots) :
    Opcode → Argument → Effect Control
  | .bipush, .int word => pushWithin stack slots (-128) 127 word
  | .sipush, .int word => pushWithin stack slots (-32768) 32767 word
  | .ldc, .int word => push stack slots (.word word)
  | .iload, .slot index | .aload, .slot index => loadSlot stack slots index
  | .istore, .slot index | .astore, .slot index =>
      storeSlot stack slots index
  | .iinc, .step index delta => addToSlot stack slots index delta
  | .branchIf test, .label name => branchOn stack slots test name
  | .goto, .label name => pure (.jump name stack)
  | .getfield, .symbol text => getField stack slots runtime text
  | .putfield, .symbol text => putField stack slots runtime text
  | .invokevirtual, .method target _ _ =>
      invoke stack slots runtime .virtual target
  | .invokespecial, .method target _ _ =>
      invoke stack slots runtime .special target
  | .invokestatic, .method target _ _ =>
      invoke stack slots runtime .static target
  | .new, .symbol text => do
      let object ← Effect.call runtime.oracle { kind := .new, owner := text } []
      push stack slots object
  | .newarray, .symbol text =>
      if text = "int" then onTop stack slots Effect.newArray
      else Effect.stuck
  | _, _ => Effect.stuck

def Line.run (runtime : Runtime) (stack : List Value) (slots : Slots) :
    Line → Effect Control
  | .label _ => pure (.next stack slots)
  | .plain op => op.run stack slots
  | .apply op arg => op.runWith runtime stack slots arg

/-! ## The machine -/

structure State where
  pc : Nat
  stack : List Value
  slots : Slots
  world : World
  jumps : List String := []

instance : HasWorld State := ⟨State.world⟩

def State.follow (lines : List Line) (state : State) (world : World) :
    Control → Progress State
  | .next stack slots =>
      .next { state with pc := state.pc + 1, stack, slots, world }
  | .jump name stack =>
      if .label name ∈ lines then
        .next { state with
          pc := lines.idxOf (.label name), stack, world
          jumps := state.jumps ++ [name] }
      else .done .stuck { state with world }
  | .ret value => .done (.returned value) { state with world }

def step (runtime : Runtime) (lines : List Line) (state : State) :
    Progress State :=
  match lines[state.pc]? with
  | some line =>
      match line.run runtime state.stack state.slots state.world with
      | .ok control world => state.follow lines world control
      | .error exit world => .done exit { state with world }
  | none => .done .stuck state

end JavaMinus.Jvm
