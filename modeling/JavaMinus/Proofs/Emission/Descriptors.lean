import JavaMinus.Jvm.Descriptor
import JavaMinus.Proofs.Semantics.Descriptors

/-!
# Descriptors of types and methods

What is left of a type on the target machine, and that the machine reads
exactly this from its descriptor.
-/

namespace JavaMinus

open Jvm (Erased FieldTy MethodTy)

namespace Ty

def erased (names : ClassNames) : Ty → Erased
  | .int => .value (.primitive .int)
  | .boolean => .value (.primitive .boolean)
  | .void => .void
  | .intArray | .vararg => .value (.array (.primitive .int))
  | .stringArray => .value (.array (.object "java/lang/String"))
  | .object className => .value (.object (names.binaryName className))

/-- If the type names a class, its binary name has no semicolon. -/
def IsPlain (names : ClassNames) (ty : Ty) : Prop :=
  ∀ className ∈ ty.className?, ';' ∉ (names.binaryName className).toList

instance (names : ClassNames) (ty : Ty) : Decidable (ty.IsPlain names) :=
  inferInstanceAs (Decidable (∀ className ∈ ty.className?,
    ';' ∉ (names.binaryName className).toList))

theorem toList_descriptor (names : ClassNames) (ty : Ty) :
    (ty.descriptor names).toList = (ty.erased names).spell := by
  cases ty <;>
    simp [descriptor, erased, Erased.spell, FieldTy.spell, Jvm.Primitive.letter]

theorem erased_eq_void (names : ClassNames) (ty : Ty) :
    decide (ty.erased names = .void) = ty.isVoid := by
  cases ty <;> rfl

theorem IsPlain.erased {names : ClassNames} {ty : Ty}
    (h : ty.IsPlain names) : (ty.erased names).Plain := by
  cases ty with
  | object className => exact h className rfl
  | stringArray => exact (by decide : ';' ∉ "java/lang/String".toList)
  | int | boolean | void | intArray | vararg => trivial

end Ty

def methodErasure (names : ClassNames) (params : List Ty) (result : Ty) :
    MethodTy where
  params := params.map (Ty.erased names)
  result := result.erased names

theorem plain_methodErasure {names : ClassNames} {params : List Ty}
    {result : Ty} (h : ∀ ty ∈ result :: params, ty.IsPlain names) :
    (methodErasure names params result).Plain := by
  rw [List.forall_mem_cons] at h
  exact ⟨List.forall_mem_map.mpr fun ty member => (h.2 ty member).erased,
    h.1.erased⟩

theorem toList_methodDescriptor (names : ClassNames) (params : List Ty)
    (result : Ty) :
    (methodDescriptor names params result).toList =
      (methodErasure names params result).spell := by
  simp [methodDescriptor, methodErasure, MethodTy.spell, Ty.toList_descriptor,
    List.flatMap_map]

/--
A method descriptor is read to its end, and what is read is the erasure of
each parameter and of the result; no other text is read as these.  Hence two
descriptors are the same exactly if the types are the same in every position
after erasure.
-/
theorem methodDescriptor_decodes (names : ClassNames) (params : List Ty)
    (result : Ty) (plain : ∀ ty ∈ result :: params, ty.IsPlain names) :
    (∀ text : String, Jvm.readMethod text.toList =
        some (methodErasure names params result, []) ↔
      text = methodDescriptor names params result) ∧
    ∀ (names' : ClassNames) (params' : List Ty) (result' : Ty),
      (∀ ty ∈ result' :: params', ty.IsPlain names') →
      (methodDescriptor names params result =
          methodDescriptor names' params' result' ↔
        params.map (Ty.erased names) = params'.map (Ty.erased names') ∧
          result.erased names = result'.erased names') := by
  have isPlain := plain_methodErasure plain
  constructor
  · intro text
    rw [Jvm.readMethod_eq_some, List.append_nil, ← toList_methodDescriptor,
      String.toList_inj]
    exact and_iff_right isPlain
  · intro names' params' result' plain'
    rw [← String.toList_inj, toList_methodDescriptor, toList_methodDescriptor,
      isPlain.spell_inj (plain_methodErasure plain'), methodErasure,
      methodErasure, MethodTy.mk.injEq]

/-- Types that differ in the source may be the same to the machine. -/
theorem methodDescriptor_decodes_imported :
    let names : ClassNames :=
      { className := "Foo", imports := ["io", "java.util.List"] }
    let params : List Ty :=
      [.int, .vararg, .object "List", .stringArray, .object "this"]
    let params' : List Ty :=
      [.int, .intArray, .object "List", .stringArray, .object "Foo"]
    (∀ ty ∈ .string :: params, ty.IsPlain names) ∧
    (∀ ty ∈ .string :: params', ty.IsPlain names) ∧
    Jvm.readMethod ("(I[ILjava/util/List;[Ljava/lang/String;LFoo;)" ++
        "Ljava/lang/String;").toList =
      some (methodErasure names params .string, []) ∧
    methodDescriptor names params .string =
      methodDescriptor names params' .string := by
  intro names params params'
  have plain : ∀ ty ∈ .string :: params, ty.IsPlain names := by decide +kernel
  have plain' : ∀ ty ∈ .string :: params', ty.IsPlain names := by decide +kernel
  have decodes := methodDescriptor_decodes names params .string plain
  exact ⟨plain, plain', (decodes.1 _).mpr (by decide +kernel),
    (decodes.2 names params' .string plain').mpr (by decide +kernel)⟩

example : methodDescriptor { className := "Foo", imports := [] }
      [.object "A;LB"] .void =
    methodDescriptor { className := "Foo", imports := [] }
      [.object "A", .object "B"] .void := by
  decide +kernel

end JavaMinus
