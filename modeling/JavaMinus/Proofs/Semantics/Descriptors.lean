import Mathlib.Data.List.Basic

/-!
# Reading descriptors

The target machine reads a descriptor from its front, with nothing between the
types.  A class name ends at the first semicolon and every other type by
itself, so what has been read never depends on what follows.  Each part of the
reader takes exactly the texts that spell what it gives back.
-/

namespace JavaMinus.Jvm

/-! ## Types of the target machine -/

inductive Primitive where
  | byte
  | char
  | double
  | float
  | int
  | long
  | short
  | boolean
  deriving DecidableEq

inductive FieldTy where
  | primitive (kind : Primitive)
  | object (binaryName : String)
  | array (element : FieldTy)
  deriving DecidableEq

inductive Erased where
  | void
  | value (ty : FieldTy)
  deriving DecidableEq

structure MethodTy where
  params : List Erased
  result : Erased
  deriving DecidableEq

namespace Primitive

def letter : Primitive → Char
  | .byte => 'B'
  | .char => 'C'
  | .double => 'D'
  | .float => 'F'
  | .int => 'I'
  | .long => 'J'
  | .short => 'S'
  | .boolean => 'Z'

def all : List Primitive :=
  [.byte, .char, .double, .float, .int, .long, .short, .boolean]

def ofLetter? (letter : Char) : Option Primitive :=
  all.find? (·.letter = letter)

theorem letter_of_ofLetter? {letter : Char} {kind : Primitive}
    (h : ofLetter? letter = some kind) : letter = kind.letter := by
  simpa [eq_comm] using List.find?_some h

end Primitive

/-! ## Spelling -/

namespace FieldTy

def spell : FieldTy → List Char
  | .primitive kind => [kind.letter]
  | .object binaryName => 'L' :: binaryName.toList ++ [';']
  | .array element => '[' :: element.spell

theorem spell_eq_cons (ty : FieldTy) :
    ∃ first more, ty.spell = first :: more ∧ first ≠ 'V' ∧ first ≠ ')' := by
  cases ty with
  | primitive kind => exact ⟨kind.letter, [], rfl, by cases kind <;> decide⟩
  | object binaryName => exact ⟨'L', _, rfl, by decide, by decide⟩
  | array element => exact ⟨'[', _, rfl, by decide, by decide⟩

def Plain : FieldTy → Prop
  | .primitive _ => True
  | .object binaryName => ';' ∉ binaryName.toList
  | .array element => element.Plain

end FieldTy

namespace Erased

def spell : Erased → List Char
  | .void => ['V']
  | .value ty => ty.spell

theorem spell_eq_cons (ty : Erased) :
    ∃ first more, ty.spell = first :: more ∧ first ≠ ')' := by
  cases ty with
  | void => exact ⟨'V', [], rfl, by decide⟩
  | value ty =>
      obtain ⟨first, more, spelled, _, goesOn⟩ := ty.spell_eq_cons
      exact ⟨first, more, spelled, goesOn⟩

def Plain : Erased → Prop
  | .void => True
  | .value ty => ty.Plain

end Erased

namespace MethodTy

def spell (method : MethodTy) : List Char :=
  '(' :: method.params.flatMap Erased.spell ++ ')' :: method.result.spell

def Plain (method : MethodTy) : Prop :=
  (∀ ty ∈ method.params, ty.Plain) ∧ method.result.Plain

end MethodTy

/-! ## Types -/

def readName : List Char → Option (List Char × List Char)
  | [] => none
  | char :: chars =>
      if char = ';' then some ([], chars)
      else (readName chars).map fun (name, rest) => (char :: name, rest)

def readField : List Char → Option (FieldTy × List Char)
  | [] => none
  | char :: chars =>
      if char = 'L' then
        (readName chars).map fun (name, rest) =>
          (.object (String.ofList name), rest)
      else if char = '[' then
        (readField chars).map fun (element, rest) => (.array element, rest)
      else (Primitive.ofLetter? char).map fun kind => (.primitive kind, chars)

/-- A parameter may be declared void, so this is read in every position. -/
def readErased : List Char → Option (Erased × List Char)
  | [] => none
  | char :: chars =>
      if char = 'V' then some (.void, chars)
      else (readField (char :: chars)).map fun (ty, rest) => (.value ty, rest)

section Types

variable {chars rest : List Char}

theorem readName_append {name : List Char} (plain : ';' ∉ name) :
    readName (name ++ ';' :: rest) = some (name, rest) := by
  induction name with
  | nil => rfl
  | cons char name ih =>
      rw [List.mem_cons, not_or] at plain
      rw [List.cons_append, readName, if_neg (Ne.symm plain.1), ih plain.2]
      rfl

theorem eq_append_of_readName {name : List Char}
    (h : readName chars = some (name, rest)) :
    ';' ∉ name ∧ chars = name ++ ';' :: rest := by
  induction chars generalizing name with
  | nil => cases h
  | cons char chars ih =>
      rw [readName] at h
      split at h
      next ends =>
        cases h
        simp [ends]
      next goesOn =>
        obtain ⟨⟨name, rest⟩, read, rfl, rfl⟩ := Option.map_eq_some_iff.mp h
        obtain ⟨plain, rfl⟩ := ih read
        exact ⟨by simp [plain, Ne.symm goesOn], rfl⟩

theorem readField_append {ty : FieldTy} (plain : ty.Plain) :
    readField (ty.spell ++ rest) = some (ty, rest) := by
  induction ty with
  | primitive kind => cases kind <;> rfl
  | object binaryName =>
      rw [FieldTy.spell, List.cons_append, List.cons_append, List.append_assoc,
        readField, if_pos rfl, List.singleton_append, readName_append plain]
      simp
  | array element ih =>
      rw [FieldTy.spell, List.cons_append, readField, if_neg (by decide),
        if_pos rfl, ih plain]
      rfl

theorem eq_append_of_readField {ty : FieldTy}
    (h : readField chars = some (ty, rest)) :
    ty.Plain ∧ chars = ty.spell ++ rest := by
  induction chars generalizing ty with
  | nil => cases h
  | cons char chars ih =>
      rw [readField] at h
      split at h
      next isObject =>
        obtain ⟨⟨name, rest⟩, read, rfl, rfl⟩ := Option.map_eq_some_iff.mp h
        obtain ⟨plain, rfl⟩ := eq_append_of_readName read
        simp [FieldTy.Plain, FieldTy.spell, isObject, plain]
      next =>
        split at h
        next isArray =>
          obtain ⟨⟨element, rest⟩, read, rfl, rfl⟩ :=
            Option.map_eq_some_iff.mp h
          obtain ⟨plain, rfl⟩ := ih read
          exact ⟨plain, by rw [isArray]; rfl⟩
        next =>
          obtain ⟨kind, known, rfl, rfl⟩ := Option.map_eq_some_iff.mp h
          exact ⟨trivial, by rw [Primitive.letter_of_ofLetter? known]; rfl⟩

theorem readErased_append {ty : Erased} (plain : ty.Plain) (rest : List Char) :
    readErased (ty.spell ++ rest) = some (ty, rest) := by
  cases ty with
  | void => rfl
  | value ty =>
      obtain ⟨first, more, spelled, isValue, _⟩ := ty.spell_eq_cons
      rw [Erased.spell, spelled, List.cons_append, readErased, if_neg isValue,
        ← List.cons_append, ← spelled, readField_append plain]
      rfl

theorem eq_append_of_readErased {ty : Erased}
    (h : readErased chars = some (ty, rest)) :
    ty.Plain ∧ chars = ty.spell ++ rest := by
  cases chars with
  | nil => cases h
  | cons char chars =>
      rw [readErased] at h
      split at h
      next isVoid =>
        cases h
        exact ⟨trivial, by rw [isVoid]; rfl⟩
      next =>
        obtain ⟨⟨ty, rest⟩, read, rfl, rfl⟩ := Option.map_eq_some_iff.mp h
        exact eq_append_of_readField read

theorem readErased_shorter {ty : Erased}
    (h : readErased chars = some (ty, rest)) : rest.length < chars.length := by
  obtain ⟨_, rfl⟩ := eq_append_of_readErased h
  obtain ⟨first, more, spelled, _⟩ := ty.spell_eq_cons
  rw [spelled, List.cons_append, List.length_cons, List.length_append]
  omega

end Types

/-! ## Methods -/

def readParams : List Char → Option (List Erased × List Char)
  | [] => none
  | char :: chars =>
      if char = ')' then some ([], chars)
      else match _known : readErased (char :: chars) with
        | none => none
        | some (ty, rest) =>
            (readParams rest).map fun (tys, rest) => (ty :: tys, rest)
termination_by chars => chars.length
decreasing_by exact readErased_shorter _known

def readMethod : List Char → Option (MethodTy × List Char)
  | [] => none
  | char :: chars =>
      if char = '(' then
        (readParams chars).bind fun (params, chars) =>
          (readErased chars).map fun (result, rest) =>
            ({ params, result }, rest)
      else none

section Methods

variable {chars rest : List Char}

theorem readParams_of_readErased {char : Char} {ty : Erased}
    (goesOn : char ≠ ')')
    (read : readErased (char :: chars) = some (ty, rest)) :
    readParams (char :: chars) =
      (readParams rest).map fun (tys, rest) => (ty :: tys, rest) := by
  rw [readParams, if_neg goesOn]
  split
  next failed =>
    rw [read] at failed
    cases failed
  next known =>
    rw [read] at known
    cases known
    rfl

theorem readParams_append {tys : List Erased} (plain : ∀ ty ∈ tys, ty.Plain) :
    readParams (tys.flatMap Erased.spell ++ ')' :: rest) =
      some (tys, rest) := by
  induction tys with
  | nil =>
      rw [List.flatMap_nil, List.nil_append, readParams, if_pos rfl]
  | cons ty tys ih =>
      rw [List.forall_mem_cons] at plain
      obtain ⟨first, more, spelled, goesOn⟩ := ty.spell_eq_cons
      have read := readErased_append plain.1
        (tys.flatMap Erased.spell ++ ')' :: rest)
      rw [spelled, List.cons_append] at read
      rw [List.flatMap_cons, List.append_assoc, spelled, List.cons_append,
        readParams_of_readErased goesOn read, ih plain.2]
      rfl

theorem eq_append_of_readParams {tys : List Erased}
    (h : readParams chars = some (tys, rest)) :
    (∀ ty ∈ tys, ty.Plain) ∧
      chars = tys.flatMap Erased.spell ++ ')' :: rest := by
  -- Every call of the reader takes one type and goes on behind it.
  fun_induction readParams chars generalizing tys with
  | case1 => cases h
  | case2 chars =>
      cases h
      simp
  | case3 => cases h
  | case4 char chars goesOn ty mid read ih =>
      obtain ⟨⟨tys, rest⟩, readAll, rfl, rfl⟩ := Option.map_eq_some_iff.mp h
      obtain ⟨plain, spelled⟩ := eq_append_of_readErased read
      obtain ⟨plains, rfl⟩ := ih readAll
      exact ⟨List.forall_mem_cons.mpr ⟨plain, plains⟩, by simp [spelled]⟩

/-- The reader takes exactly what is spelled, whatever follows it. -/
theorem readMethod_eq_some {method : MethodTy} :
    readMethod chars = some (method, rest) ↔
      method.Plain ∧ chars = method.spell ++ rest := by
  constructor
  · intro h
    cases chars with
    | nil => cases h
    | cons char chars =>
        rw [readMethod] at h
        split at h
        next opens =>
          obtain ⟨⟨params, mid⟩, readAll, h⟩ := Option.bind_eq_some_iff.mp h
          obtain ⟨⟨result, rest⟩, read, rfl, rfl⟩ :=
            Option.map_eq_some_iff.mp h
          obtain ⟨plains, rfl⟩ := eq_append_of_readParams readAll
          obtain ⟨plain, rfl⟩ := eq_append_of_readErased read
          exact ⟨⟨plains, plain⟩, by simp [MethodTy.spell, opens]⟩
        next => cases h
  · rintro ⟨⟨plains, plain⟩, rfl⟩
    rw [MethodTy.spell, List.cons_append, List.cons_append, readMethod,
      if_pos rfl, List.append_assoc, List.cons_append, readParams_append plains,
      Option.bind_some]
    dsimp only
    rw [readErased_append plain]
    rfl

theorem MethodTy.Plain.spell_inj {method method' : MethodTy}
    (plain : method.Plain) (plain' : method'.Plain) :
    method.spell = method'.spell ↔ method = method' := by
  constructor
  · intro same
    have read : readMethod method.spell = some (method, []) :=
      readMethod_eq_some.mpr ⟨plain, (List.append_nil _).symm⟩
    have read' : readMethod method'.spell = some (method', []) :=
      readMethod_eq_some.mpr ⟨plain', (List.append_nil _).symm⟩
    rw [same, read'] at read
    cases read
    rfl
  · rintro rfl
    rfl

end Methods

end JavaMinus.Jvm
