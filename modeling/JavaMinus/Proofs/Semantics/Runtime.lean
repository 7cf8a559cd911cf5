import JavaMinus.Ir.Basic
import JavaMinus.Proofs.Semantics.Descriptors

/-!
# What programs act on

Trees, three-address code and machine code compute with the same values and
act on the same world: the fields of objects, the int arrays, and a record of
everything that was done so far.  A call is answered by an oracle, which may
change fields and arrays at will but never sees the variables of the caller.
-/

namespace JavaMinus

/-! ## Values -/

inductive Value where
  | word (value : Int32)
  | null
  | array (address : Nat)
  | object (identity : Nat)
  deriving DecidableEq, Inhabited

namespace Value

def ofBool (truth : Bool) : Value := .word (if truth then 1 else 0)

def truth? : Value → Option Bool
  | .word value =>
      if value = 0 then some false
      else if value = 1 then some true
      else none
  | .null | .array _ | .object _ => none

theorem eq_ofBool_of_truth? {value : Value} {truth : Bool}
    (h : value.truth? = some truth) : value = ofBool truth := by
  cases value with
  | word value =>
      simp only [truth?] at h
      split at h
      · simp_all [ofBool]
      · split at h
        · simp_all [ofBool]
        · contradiction
  | null => simp [truth?] at h
  | array address => simp [truth?] at h
  | object identity => simp [truth?] at h

end Value

abbrev Locals := String → Option Value

def Locals.set (locals : Locals) (name : String) (value : Value) : Locals :=
  fun other => if other = name then some value else locals other

@[simp] theorem Locals.set_self (locals : Locals) (name : String)
    (value : Value) : locals.set name value name = some value := by
  simp [Locals.set]

theorem Locals.set_of_ne (locals : Locals) {name other : String}
    (value : Value) (h : other ≠ name) :
    locals.set name value other = locals other := by
  simp [Locals.set, h]

/-! ## The world -/

/--
What is called: a method by its name, or the making of an object.  The class
and the types are given as far as the call names them.
-/
structure Callee where
  kind : Ir.CallKind
  owner : Option String := none
  name : String := ""
  ty : Option Jvm.MethodTy := none
  deriving DecidableEq

structure FieldId where
  owner : Option String := none
  name : String
  ty : Option Jvm.Erased := none
  deriving DecidableEq

inductive Event where
  | call (callee : Callee) (values : List Value)
  | getField (object : Value) (field : FieldId)
  | putField (object : Value) (field : FieldId) (value : Value)
  | newArray (size : Int32)
  | load (address : Nat) (position : Int32)
  | store (address : Nat) (position value : Int32)
  | length (address : Nat)
  deriving DecidableEq

structure Memory where
  fields : Value → FieldId → Value
  arrays : List (List Int32)

structure World extends Memory where
  trace : List Event

inductive Trap where
  | zeroDivision
  | nullReference
  | outOfBounds
  | negativeSize
  -- A method that was called failed.
  | thrown
  deriving DecidableEq

inductive Exit where
  | returned (value : Option Value)
  | trapped (cause : Trap)
  -- The program makes no sense here; a well-typed one never gets here.
  | stuck
  -- A loop was not followed to its end.
  | outOfFuel
  deriving DecidableEq

def Exit.IsOutcome : Exit → Prop
  | .returned _ | .trapped _ => True
  | .stuck | .outOfFuel => False

/--
The answer to a call: a value or a failure, and the memory after it.  What a
method without a result answers is never used.
-/
abbrev Oracle := Callee → List Value → World → Except Trap Value × Memory

/-! ## Actions -/

abbrev Effect := EStateM Exit World

namespace Effect

variable {α : Type}

def trap (cause : Trap) : Effect α := throw (.trapped cause)

def stuck : Effect α := throw .stuck

def log (event : Event) : Effect Unit :=
  modify fun world => { world with trace := world.trace ++ [event] }

def read (locals : Locals) (name : String) : Effect Value :=
  match locals name with
  | some value => pure value
  | none => stuck

def word : Value → Effect Int32
  | .word value => pure value
  | .null | .array _ | .object _ => stuck

def truth (value : Value) : Effect Bool :=
  match value.truth? with
  | some truth => pure truth
  | none => stuck

/-! ### Fields -/

def getField (object : Value) (field : FieldId) : Effect Value :=
  if object = .null then trap .nullReference
  else do
    log (.getField object field)
    pure ((← get).fields object field)

def putField (object : Value) (field : FieldId) (value : Value) :
    Effect Unit :=
  if object = .null then trap .nullReference
  else do
    log (.putField object field value)
    modify fun world =>
      { world with
        fields := fun other field' =>
          if other = object ∧ field' = field then value
          else world.fields other field' }

/-! ### Arrays -/

def elements : Value → Effect (Nat × List Int32)
  | .array address => do
      match (← get).arrays[address]? with
      | some elements => pure (address, elements)
      | none => stuck
  | .null => trap .nullReference
  | .word _ | .object _ => stuck

def newArray (size : Value) : Effect Value := do
  let size ← word size
  if size.toInt < 0 then trap .negativeSize
  else do
    log (.newArray size)
    let world ← get
    set { world with
      arrays := world.arrays ++ [List.replicate size.toInt.toNat 0] }
    pure (.array world.arrays.length)

def load (array position : Value) : Effect Value := do
  let position ← word position
  let (address, elements) ← elements array
  if position.toInt < 0 then trap .outOfBounds
  else match elements[position.toInt.toNat]? with
    | some value => do
        log (.load address position)
        pure (.word value)
    | none => trap .outOfBounds

def store (array position value : Value) : Effect Unit := do
  let position ← word position
  let value ← word value
  let (address, elements) ← elements array
  if position.toInt < 0 ∨ (elements.length : Int) ≤ position.toInt then
    trap .outOfBounds
  else do
    log (.store address position value)
    modify fun world =>
      { world with
        arrays := world.arrays.set address
          (elements.set position.toInt.toNat value) }

def length (array : Value) : Effect Value := do
  let (address, elements) ← elements array
  log (.length address)
  pure (.word (.ofInt elements.length))

def fill (array : Value) : Nat → List Value → Effect Unit
  | _, [] => pure ()
  | position, value :: rest => do
      store array (.word (.ofNat position)) value
      fill array (position + 1) rest

def arrayOf (values : List Value) : Effect Value := do
  let array ← newArray (.word (.ofNat values.length))
  fill array 0 values
  pure array

/-! ### Calls -/

/-- A call; the first value is the receiver where there is one. -/
def call (oracle : Oracle) (callee : Callee) (values : List Value) :
    Effect Value :=
  match callee.kind, values with
  | .virtual, .null :: _ | .special, .null :: _ => trap .nullReference
  | _, _ => do
      log (.call callee values)
      let world ← get
      let (answer, memory) := oracle callee values world
      set ({ toMemory := memory, trace := world.trace } : World)
      match answer with
      | .ok value => pure value
      | .error cause => trap cause

end Effect

/-! ## Operators -/

/--
The word that an operation yields.  Arithmetic is exact and then wraps
around; division truncates toward zero.
-/
def Operator.apply : Operator → Int32 → Int32 → Effect Int32
  | .add, left, right => pure (.ofInt (left.toInt + right.toInt))
  | .sub, left, right => pure (.ofInt (left.toInt - right.toInt))
  | .mul, left, right => pure (.ofInt (left.toInt * right.toInt))
  | .div, left, right =>
      if right = 0 then Effect.trap .zeroDivision
      else pure (.ofInt (left.toInt.tdiv right.toInt))
  | .lt, left, right => pure (if left.toInt < right.toInt then 1 else 0)
  | .gt, left, right => pure (if right.toInt < left.toInt then 1 else 0)
  | .eq, left, right => pure (if left = right then 1 else 0)
  | .ne, left, right => pure (if left = right then 0 else 1)
  | .and, left, right => pure (left &&& right)

namespace Operator

/-! ### Arithmetic on words -/

variable (left right : Int32)

theorem apply_add : Operator.add.apply left right = pure (left + right) := by
  simp [apply, Int32.ofInt_add]

theorem apply_sub : Operator.sub.apply left right = pure (left - right) := by
  simp [apply, Int32.ofInt_sub]

theorem apply_mul : Operator.mul.apply left right = pure (left * right) := by
  simp [apply, Int32.ofInt_mul]

theorem apply_div : Operator.div.apply left right =
    if right = 0 then Effect.trap .zeroDivision else pure (left / right) := by
  rw [apply, Int32.ofInt_tdiv (Int32.minValue_le_toInt left)
    (Int32.toInt_le left) (Int32.minValue_le_toInt right)
    (Int32.toInt_le right), Int32.ofInt_toInt, Int32.ofInt_toInt]

end Operator

def Effect.operate (op : Operator) (left right : Value) : Effect Value := do
  let left ← word left
  let right ← word right
  pure (.word (← op.apply left right))

end JavaMinus
