import JavaMinus.Jvm.Emission
import JavaMinus.Proofs.Emission.Descriptors
import JavaMinus.Proofs.Semantics.References

/-!
# What calls and fields refer to

Three-address code says itself which field or method it refers to: the class,
the name and the types.  The text that is emitted for a reference is read back
as just this, if the names have none of the marks in them that a reader looks
for.
-/

namespace JavaMinus.Jvm

open Ir (Operand Call FieldRef)

/-! ## References -/

namespace Linkage

variable (linkage : Linkage)

def fieldId (field : FieldRef) : FieldId where
  owner := linkage.names.binaryName field.owner
  name := field.name
  ty := field.ty.erased linkage.names

/-- The signature of the enclosing class that a call is linked by, if any. -/
def own? (call : Call) : Option Signature :=
  if call.kind = .virtual ∧
      call.target.ty.className? = some linkage.className then
    call.method.bind linkage.table.method?
  else none

def shape (call : Call) : List Ty × Ty :=
  match linkage.own? call with
  | some signature => (signature.params.map Symbol.ty, signature.returnTy)
  | none => (call.args.map Operand.ty, call.returnTy)

/--
The class in which a method is looked up.  It is the superclass for methods
that the class has not declared, and for those that are called on the receiver
without a lookup in its own class.
-/
def owner? (call : Call) : Option String :=
  match call.kind, call.target with
  | .special, .self _ =>
      (linkage.superclass.map linkage.names.binaryName).getD
        "java/lang/Object"
  | .static, .var name _ => some (linkage.names.binaryName name)
  | .static, _ => none
  | kind, target =>
      target.ty.className?.map fun receiver =>
        linkage.names.binaryName <|
          if kind ≠ .special ∧ receiver = linkage.className ∧
              linkage.own? call = none then
            linkage.superclass.getD receiver
          else receiver

def callee (call : Call) : Callee :=
  match call.kind with
  | .new =>
      { kind := .new
        owner := call.returnTy.className?.map linkage.names.binaryName }
  | kind =>
      { kind
        owner := linkage.owner? call
        name := call.method.getD ""
        ty := methodErasure linkage.names (linkage.shape call).1
          (linkage.shape call).2 }

end Linkage

/-! ## Emitted texts -/

variable {linkage : Linkage} {call : Call} {owner name : String}

theorem readFieldId_fieldTarget {field : FieldRef}
    (legible : Legible ' ' (linkage.names.binaryName field.owner) field.name)
    (plain : field.ty.IsPlain linkage.names) :
    readFieldId (Gen.fieldTarget linkage field) =
      some (linkage.fieldId field) := by
  refine readFieldId_append legible plain.erased ?_
  simp [Gen.fieldTarget, Ty.toList_descriptor]

theorem readMethodRef_methodDescriptor {names : ClassNames} {params : List Ty}
    {result : Ty} (legible : Legible '(' owner name)
    (plain : ∀ ty ∈ result :: params, ty.IsPlain names) :
    readMethodRef (owner ++ "/" ++ name ++
        methodDescriptor names params result) =
      some { owner, name, ty := methodErasure names params result } := by
  refine readMethodRef_append legible (plain_methodErasure plain) ?_
  simp [toList_methodDescriptor]

namespace Gen

theorem ownSignature?_eq (named : call.method = some name) :
    ownSignature? linkage call name = linkage.own? call := by
  simp only [ownSignature?, Linkage.own?, named, Option.bind_some]

theorem callDescriptor_own? :
    callDescriptor linkage call (linkage.own? call) =
      methodDescriptor linkage.names (linkage.shape call).1
        (linkage.shape call).2 := by
  rw [Linkage.shape]
  cases linkage.own? call <;> rfl

end Gen

end JavaMinus.Jvm
