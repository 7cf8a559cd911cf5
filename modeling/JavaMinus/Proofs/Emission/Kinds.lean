import JavaMinus.Proofs.Emission.Discipline
import JavaMinus.Proofs.Emission.Slots

/-!
# Kinds of values

A machine that knows no values, but only whether each of them is an int or a
reference.  It goes all ways through the lines of a method.  A line that finds
other kinds than those it works on cannot be run.
-/

namespace JavaMinus

/-- What the target machine tells apart before it runs a method. -/
inductive Kind where
  | int
  | reference
  deriving DecidableEq

/-- Truth values are ints. -/
def Ty.kind (ty : Ty) : Kind :=
  if ty.isReference then .reference else .int

def Ty.result? (ty : Ty) : Option Kind :=
  if ty.isVoid then none else some ty.kind

@[simp] theorem Ty.kind_valueTy (ty : Ty) : ty.valueTy.kind = ty.kind := by
  cases ty <;> rfl

theorem Ty.kind_of_result? {ty ty' : Ty} (h : ty.result? = ty'.result?) :
    ty.kind = ty'.kind := by
  cases ty <;> cases ty' <;> simp_all [result?, isVoid, kind, isReference]

namespace Jvm

/-! ## Descriptors -/

def SpellsField (text : String) (ty : Ty) : Prop :=
  ∃ (field : String) (names : ClassNames),
    text = field ++ " " ++ ty.descriptor names

def SpellsMethod (text : String) (params : List Ty) (result : Ty) : Prop :=
  ∃ (method : String) (names : ClassNames),
    text = method ++ methodDescriptor names params result

def lastKind? (text : String) : Option Kind :=
  match text.toList.reverse with
  | 'V' :: _ => none
  | 'I' :: '[' :: _ | ';' :: _ => some .reference
  | _ => some .int

theorem lastKind?_descriptor {mark : String} {char : Char}
    (isMark : mark.toList = [char]) (other : char ≠ '[') (front : String)
    (ty : Ty) (names : ClassNames) :
    lastKind? (front ++ mark ++ ty.descriptor names) = ty.result? := by
  cases ty with
  | int | boolean | void =>
      simp [lastKind?, Ty.descriptor, isMark, Ty.result?, Ty.isVoid, Ty.kind,
        Ty.isReference, other]
  | intArray | stringArray | vararg | object =>
      simp [lastKind?, Ty.descriptor, Ty.result?, Ty.isVoid, Ty.kind,
        Ty.isReference]

/-- However the name of a field is read, its kind is the same. -/
theorem SpellsField.lastKind? {text : String} {ty : Ty}
    (h : SpellsField text ty) : lastKind? text = ty.result? := by
  obtain ⟨field, names, rfl⟩ := h
  have isMark : " ".toList = [' '] := rfl
  exact lastKind?_descriptor isMark (by decide) field ty names

theorem SpellsMethod.lastKind? {text : String} {params : List Ty}
    {result : Ty} (h : SpellsMethod text params result) :
    lastKind? text = result.result? := by
  obtain ⟨method, names, rfl⟩ := h
  have isMark : ")".toList = [')'] := rfl
  rw [methodDescriptor, ← String.append_assoc, ← String.append_assoc]
  exact lastKind?_descriptor isMark (by decide) _ result names

theorem SpellsField.of_read {text : String} {field : FieldId}
    {names : ClassNames} {ty : Ty} (read : readFieldId text = some field)
    (isTy : field.ty = some (ty.erased names)) : SpellsField text ty := by
  obtain ⟨owner, erased, _, known, _, whole⟩ := eq_append_of_readFieldId read
  rw [isTy, Option.some.injEq] at known
  refine ⟨owner ++ "/" ++ field.name, names, ?_⟩
  apply String.toList_injective
  rw [whole, ← known]
  simp [Ty.toList_descriptor]

theorem SpellsMethod.of_read {text : String} {method : MethodRef}
    {names : ClassNames} {params : List Ty} {result : Ty}
    (read : readMethodRef text = some method)
    (isTy : method.ty = methodErasure names params result) :
    SpellsMethod text params result := by
  refine ⟨method.owner ++ "/" ++ method.name, names, ?_⟩
  apply String.toList_injective
  rw [(eq_append_of_readMethodRef read).2, isTy]
  simp [toList_methodDescriptor]

def Erased.kind : Erased → Kind
  | .value (.object _) | .value (.array _) => .reference
  | .value (.primitive _) | .void => .int

theorem Erased.kind_erased (names : ClassNames) (ty : Ty) :
    (ty.erased names).kind = ty.kind := by
  cases ty <;> rfl

/-- If its names can be read, a text spells the kinds of one method only. -/
theorem methodDescriptor_kinds_unique {owner owner' name name' : String}
    {names names' : ClassNames} {params params' : List Ty} {result result' : Ty}
    (legible : Legible '(' owner name) (legible' : Legible '(' owner' name')
    (plain : ∀ ty ∈ result :: params, ty.IsPlain names)
    (plain' : ∀ ty ∈ result' :: params', ty.IsPlain names')
    (same : owner ++ "/" ++ name ++ methodDescriptor names params result =
      owner' ++ "/" ++ name' ++ methodDescriptor names' params' result') :
    params.map Ty.kind = params'.map Ty.kind ∧
      result.kind = result'.kind := by
  have read := readMethodRef_methodDescriptor legible plain
  rw [same, readMethodRef_methodDescriptor legible' plain', Option.some.injEq,
    MethodRef.mk.injEq, methodErasure, methodErasure, MethodTy.mk.injEq] at read
  obtain ⟨_, _, sameParams, sameResult⟩ := read
  have kinds := congrArg (List.map Erased.kind) sameParams
  have kind := congrArg Erased.kind sameResult
  simp only [List.map_map, Function.comp_def, Erased.kind_erased] at kinds kind
  exact ⟨kinds.symm, kind.symm⟩

/-! ## Lines -/

/--
The kinds that an instruction takes from the top of the stack and those that
it puts there, the topmost first.  Some instructions have to be read on.
-/
def Opcode.kinds? : Opcode → Option (List Kind × List Kind)
  | .iconst _ | .bipush | .sipush | .ldc | .iload | .iloadAt _ =>
      some ([], [.int])
  | .aload | .aloadAt _ | .new => some ([], [.reference])
  | .istore | .istoreAt _ | .branchIf _ | .ireturn => some ([.int], [])
  | .astore | .astoreAt _ | .areturn => some ([.reference], [])
  | .iaload => some ([.int, .reference], [.int])
  | .iastore => some ([.int, .int, .reference], [])
  | .iadd | .isub | .imul | .idiv | .iand | .ixor =>
      some ([.int, .int], [.int])
  | .iinc | .goto | .vreturn => some ([], [])
  | .newarray => some ([.int], [.reference])
  | .arraylength => some ([.reference], [.int])
  | .pop | .dup | .getfield | .putfield => none
  | .invokevirtual | .invokespecial | .invokestatic => none

def Opcode.receiver : Opcode → List Kind
  | .invokestatic => []
  | _ => [.reference]

/-- The kinds that a line pops and then pushes, the topmost first. -/
inductive Line.Takes : Line → List Kind → List Kind → Prop where
  | label (name : String) : Takes (.label name) [] []
  | plain {op : Opcode} {popped pushed : List Kind}
      (known : op.kinds? = some (popped, pushed)) :
      Takes (.plain op) popped pushed
  | apply {op : Opcode} {arg : Argument} {popped pushed : List Kind}
      (known : op.kinds? = some (popped, pushed)) :
      Takes (.apply op arg) popped pushed
  | pop (kind : Kind) : Takes (.plain .pop) [kind] []
  | dup (kind : Kind) : Takes (.plain .dup) [kind] [kind, kind]
  | getfield {text : String} {ty : Ty} (spells : SpellsField text ty) :
      Takes (.apply .getfield (.symbol text)) [.reference] [ty.kind]
  | putfield {text : String} {ty : Ty} (spells : SpellsField text ty) :
      Takes (.apply .putfield (.symbol text)) [ty.kind, .reference] []
  | invoke {op : Opcode} {target : String} {popped pushed : Nat}
      {params : List Ty} {result : Ty} (unknown : op.kinds? = none)
      (spells : SpellsMethod target params result)
      (count : params.length + op.receiver.length = popped) :
      Takes (.apply op (.method target popped pushed))
        ((params.map Ty.kind).reverse ++ op.receiver)
        result.result?.toList

theorem Line.Takes.unique {line : Line}
    {popped pushed rest popped' pushed' rest' : List Kind}
    (h : line.Takes popped pushed) (h' : line.Takes popped' pushed')
    (same : popped ++ rest = popped' ++ rest') :
    pushed ++ rest = pushed' ++ rest' := by
  cases h with
  | label name =>
      cases h'
      exact same
  | plain known =>
      cases h' with
      | plain known' =>
          rw [known] at known'
          cases known'
          rw [List.append_cancel_left same]
      | pop | dup => simp [Opcode.kinds?] at known
  | apply known =>
      cases h' with
      | apply known' =>
          rw [known] at known'
          cases known'
          rw [List.append_cancel_left same]
      | getfield | putfield => simp [Opcode.kinds?] at known
      | invoke unknown => simp [known] at unknown
  | pop kind =>
      cases h' with
      | plain known => simp [Opcode.kinds?] at known
      | pop kind' => simpa using (List.cons.inj same).2
  | dup kind =>
      cases h' with
      | plain known => simp [Opcode.kinds?] at known
      | dup kind' =>
          obtain ⟨rfl, rfl⟩ := List.cons.inj same
          rfl
  | getfield spells =>
      cases h' with
      | apply known => simp [Opcode.kinds?] at known
      | getfield spells' =>
          have kinds := spells.lastKind?.symm.trans spells'.lastKind?
          rw [Ty.kind_of_result? kinds, List.append_cancel_left same]
  | putfield spells =>
      cases h' with
      | apply known => simp [Opcode.kinds?] at known
      | putfield spells' => simp_all
  | invoke unknown spells count =>
      cases h' with
      | apply known => simp [known] at unknown
      | invoke unknown' spells' count' =>
          have kinds := spells.lastKind?.symm.trans spells'.lastKind?
          have length := count.trans count'.symm
          obtain ⟨_, rfl⟩ := List.append_inj same (by simp; omega)
          rw [kinds]

/-! ## Slots -/

def Line.slotKind? : Line → Option (Nat × Kind)
  | .plain (.iloadAt slot) | .plain (.istoreAt slot) => some (slot.val, .int)
  | .plain (.aloadAt slot) | .plain (.astoreAt slot) =>
      some (slot.val, .reference)
  | .apply .iload (.slot index) | .apply .istore (.slot index)
  | .apply .iinc (.step index _) => some (index.toNat, .int)
  | .apply .aload (.slot index) | .apply .astore (.slot index) =>
      some (index.toNat, .reference)
  | _ => none

/-- Whether the line writes to its slot without looking at it. -/
def Line.isStore : Line → Bool
  | .plain (.istoreAt _) | .plain (.astoreAt _)
  | .apply .istore _ | .apply .astore _ => true
  | _ => false

def Line.isWrite : Line → Bool
  | .apply .iinc _ => true
  | line => line.isStore

/-- The kinds of the values in slots; not all were written to. -/
abbrev SlotKinds := Nat → Option Kind

def SlotKinds.after (slots : SlotKinds) (line : Line) : SlotKinds :=
  match line.slotKind? with
  | some (index, kind) =>
      if line.isWrite then Function.update slots index (some kind) else slots
  | none => slots

theorem SlotKinds.after_eq_some {slots : SlotKinds} {line : Line} {index : Nat}
    {kind : Kind} (h : slots.after line index = some kind) :
    slots index = some kind ∨ line.slotKind? = some (index, kind) := by
  unfold SlotKinds.after at h
  cases uses : line.slotKind? with
  | none =>
      rw [uses] at h
      exact .inl h
  | some entry =>
      obtain ⟨slot, written⟩ := entry
      simp only [uses] at h
      split at h
      · by_cases same : index = slot
        · subst same
          rw [Function.update_self, Option.some.injEq] at h
          exact .inr (by rw [h])
        · rw [Function.update_of_ne same] at h
          exact .inl h
      · exact .inl h

/-! ## Runs -/

structure Shape where
  pc : Nat
  stack : List Kind
  slots : SlotKinds

namespace Shape

def entry (isStatic : Bool) (params : List Ty) : Shape where
  pc := 0
  stack := []
  slots index :=
    ((if isStatic then [] else [.reference]) ++ params.map Ty.kind)[index]?

structure Accepts (shape : Shape) (line : Line)
    (popped pushed rest : List Kind) : Prop where
  takes : line.Takes popped pushed
  stack : shape.stack = popped ++ rest
  slot : ∀ index kind, line.slotKind? = some (index, kind) →
    line.isStore = false →
    shape.slots index = none ∨ shape.slots index = some kind

inductive Steps (lines : List Line) : Shape → Shape → Prop where
  | step {shape : Shape} {line : Line} {popped pushed rest : List Kind}
      {next : Nat} (fetch : lines[shape.pc]? = some line)
      (accepts : shape.Accepts line popped pushed rest)
      (flows : Flows lines shape.pc next) :
      Steps lines shape ⟨next, pushed ++ rest, shape.slots.after line⟩

def Reaches (lines : List Line) : Shape → Shape → Prop :=
  Relation.ReflTransGen (Steps lines)

end Shape

def returnOp (ty : Ty) : Opcode :=
  if ty.isVoid then .vreturn
  else if ty.isReference then .areturn else .ireturn

/--
However the lines of a method are run, every line finds what it needs.  What
is found at a line does not depend on the way there.
-/
structure Method.KindCorrect (method : Method) (isStatic : Bool)
    (params : List Ty) (returnTy : Ty) : Prop where
  header : method.isStatic = isStatic ∧
    SpellsMethod method.descriptor params returnTy
  accepts : ∀ shape line,
    (Shape.entry isStatic params).Reaches method.lines shape →
    method.lines[shape.pc]? = some line →
    ∃ popped pushed rest, shape.Accepts line popped pushed rest
  returns : ∀ shape line,
    (Shape.entry isStatic params).Reaches method.lines shape →
    method.lines[shape.pc]? = some line → line.isReturn = true →
    line = .plain (returnOp returnTy) ∧ shape.stack = returnTy.result?.toList
  joins : ∀ shape shape',
    (Shape.entry isStatic params).Reaches method.lines shape →
    (Shape.entry isStatic params).Reaches method.lines shape' →
    shape.pc = shape'.pc → shape.stack = shape'.stack ∧
      ∀ index kind kind', shape.slots index = some kind →
        shape'.slots index = some kind' → kind = kind'

end Jvm

end JavaMinus
