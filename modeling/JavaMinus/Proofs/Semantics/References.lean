import JavaMinus.Proofs.Lists
import JavaMinus.Proofs.Semantics.Runtime

/-!
# Reading references

An instruction names a field or a method in one text: the class, a slash, the
name and the type.  A blank stands before the type of a field, and that of a
method opens with a parenthesis.  The last slash before this ends the name of
the class, which may have slashes in it.
-/

namespace JavaMinus.Jvm

structure MethodRef where
  owner : String
  name : String
  ty : MethodTy
  deriving DecidableEq

namespace MethodRef

def callee (method : MethodRef) (kind : Ir.CallKind) : Callee where
  kind
  owner := method.owner
  name := method.name
  ty := method.ty

def taken (method : MethodRef) (kind : Ir.CallKind) : Nat :=
  if kind = .static then method.ty.params.length
  else method.ty.params.length + 1

def isVoid (method : MethodRef) : Bool := method.ty.result = .void

end MethodRef

/-! ## The reader -/

/-- The class and the name of a member, which the last slash keeps apart. -/
def readPath (path : List Char) : Option (String × String) :=
  match path.reverse.dropWhile (· ≠ '/') with
  | [] => none
  | _ :: owner =>
      some (String.ofList owner.reverse,
        String.ofList (path.reverse.takeWhile (· ≠ '/')).reverse)

/-- The class and the name of a member, and the text from a mark on. -/
def readMember (mark : Char) (text : String) :
    Option ((String × String) × List Char) :=
  (readPath (text.toList.takeWhile (· ≠ mark))).map
    (·, text.toList.dropWhile (· ≠ mark))

def readFieldId (text : String) : Option FieldId := do
  let ((owner, name), rest) ← readMember ' ' text
  match readErased rest.tail with
  | some (ty, []) => some { owner, name, ty }
  | _ => none

def readMethodRef (text : String) : Option MethodRef := do
  let ((owner, name), rest) ← readMember '(' text
  match readMethod rest with
  | some (ty, []) => some { owner, name, ty }
  | _ => none

/-! ## What is read -/

structure Legible (mark : Char) (owner name : String) : Prop where
  inOwner : mark ∉ owner.toList
  inName : mark ∉ name.toList
  noSlash : '/' ∉ name.toList

theorem readPath_append {owner name : String} (noSlash : '/' ∉ name.toList) :
    readPath (owner.toList ++ '/' :: name.toList) = some (owner, name) := by
  have reversed : (owner.toList ++ '/' :: name.toList).reverse =
      name.toList.reverse ++ '/' :: owner.toList.reverse := by simp
  have none : '/' ∉ name.toList.reverse := by simpa using noSlash
  simp only [readPath, reversed, dropWhile_ne_append none,
    takeWhile_ne_append none, List.reverse_reverse, String.ofList_toList]

theorem readMember_append {mark : Char} {owner name : String}
    {rest : List Char} {text : String} (legible : Legible mark owner name)
    (isMark : mark ≠ '/')
    (whole : text.toList =
      owner.toList ++ '/' :: name.toList ++ mark :: rest) :
    readMember mark text = some ((owner, name), mark :: rest) := by
  have none : mark ∉ owner.toList ++ '/' :: name.toList := by
    simp [legible.inOwner, legible.inName, isMark]
  rw [readMember, whole, takeWhile_ne_append none, dropWhile_ne_append none,
    readPath_append legible.noSlash]
  rfl

theorem eq_append_of_readPath {path : List Char} {owner name : String}
    (h : readPath path = some (owner, name)) :
    path = owner.toList ++ '/' :: name.toList := by
  rw [readPath] at h
  split at h
  · cases h
  next slash rest found =>
    cases h
    have isSlash := eq_of_dropWhile_ne found
    have whole := List.takeWhile_append_dropWhile (p := (· ≠ '/'))
      (l := path.reverse)
    rw [found, isSlash] at whole
    have := congrArg List.reverse whole
    simpa using this.symm

theorem eq_append_of_readMember {mark : Char} {text owner name : String}
    {rest : List Char}
    (h : readMember mark text = some ((owner, name), rest)) :
    text.toList = owner.toList ++ '/' :: name.toList ++ rest := by
  obtain ⟨path, read, same⟩ := Option.map_eq_some_iff.mp h
  cases same
  rw [← eq_append_of_readPath read, List.takeWhile_append_dropWhile]

theorem readFieldId_append {owner name text : String} {ty : Erased}
    (legible : Legible ' ' owner name) (plain : ty.Plain)
    (whole : text.toList =
      owner.toList ++ '/' :: name.toList ++ ' ' :: ty.spell) :
    readFieldId text = some { owner, name, ty } := by
  have read := readErased_append plain []
  rw [List.append_nil] at read
  simp only [readFieldId, readMember_append legible (by decide) whole,
    Option.bind_eq_bind, Option.bind_some, List.tail_cons, read]

theorem readMethodRef_append {owner name text : String} {ty : MethodTy}
    (legible : Legible '(' owner name) (plain : ty.Plain)
    (whole : text.toList =
      owner.toList ++ '/' :: name.toList ++ ty.spell) :
    readMethodRef text = some { owner, name, ty } := by
  have read : readMethod ty.spell = some (ty, []) :=
    readMethod_eq_some.mpr ⟨plain, (List.append_nil _).symm⟩
  obtain ⟨rest, opens⟩ : ∃ rest, ty.spell = '(' :: rest := ⟨_, rfl⟩
  rw [opens] at read whole
  simp only [readMethodRef, readMember_append legible (by decide) whole,
    Option.bind_eq_bind, Option.bind_some, read]

theorem eq_append_of_readFieldId {text : String} {field : FieldId}
    (h : readFieldId text = some field) :
    ∃ (owner : String) (ty : Erased), field.owner = some owner ∧
      field.ty = some ty ∧ ty.Plain ∧ text.toList =
        owner.toList ++ '/' :: field.name.toList ++ ' ' :: ty.spell := by
  obtain ⟨⟨⟨owner, name⟩, rest⟩, member, h⟩ := Option.bind_eq_some_iff.mp h
  have whole := eq_append_of_readMember member
  obtain ⟨path, _, same⟩ := Option.map_eq_some_iff.mp member
  dsimp only at h
  split at h
  next ty read =>
    cases h
    obtain ⟨plain, tail⟩ := eq_append_of_readErased read
    refine ⟨owner, ty, rfl, rfl, plain, ?_⟩
    cases rest with
    | nil => cases read
    | cons char rest =>
        rw [List.append_nil] at tail
        rw [whole, ← tail, eq_of_dropWhile_ne (congrArg Prod.snd same)]
        rfl
  next => cases h

theorem eq_append_of_readMethodRef {text : String} {method : MethodRef}
    (h : readMethodRef text = some method) :
    method.ty.Plain ∧ text.toList =
      method.owner.toList ++ '/' :: method.name.toList ++
        method.ty.spell := by
  obtain ⟨⟨⟨owner, name⟩, rest⟩, member, h⟩ := Option.bind_eq_some_iff.mp h
  dsimp only at h
  split at h
  next ty read =>
    cases h
    obtain ⟨plain, rfl⟩ := readMethod_eq_some.mp read
    rw [List.append_nil] at member
    exact ⟨plain, eq_append_of_readMember member⟩
  next => cases h

end JavaMinus.Jvm
