import JavaMinus.Json.Decode
import Mathlib.Data.List.Nodup

/-!
# Decoding what was encoded

An encoding is decoded to the value that it was made of exactly if enough
brackets may open for it.
-/

namespace JavaMinus.Json

variable {α β : Type}

def within (brackets needed : Nat) (result : Option α) : Option α :=
  if needed ≤ brackets then result else none

section Within

variable (brackets needed : Nat) (result : Option α)

@[simp] theorem within_zero : within brackets 0 result = result :=
  if_pos (Nat.zero_le _)

@[simp] theorem within_succ :
    within (brackets + 1) (needed + 1) result =
      within brackets needed result := by
  simp only [within, Nat.add_le_add_iff_right]

@[simp] theorem zero_within_succ : within 0 (needed + 1) result = none :=
  if_neg (Nat.not_succ_le_zero _)

@[simp] theorem within_max (other : Nat) :
    within brackets (max needed other) result =
      within brackets needed (within brackets other result) := by
  simp only [within, Nat.max_le, ite_and]

@[simp] theorem within_bind (next : α → Option β) :
    (within brackets needed result).bind next =
      within brackets needed (result.bind next) := by
  unfold within
  split <;> rfl

@[simp] theorem within_map (next : α → β) :
    (within brackets needed result).map next =
      within brackets needed (result.map next) := by
  unfold within
  split <;> rfl

end Within

/-- Decoding gives the value back if all brackets may open, and else fails. -/
def Decodes (decode : Nat → Json → Option α) (json : Json) (value : α) :
    Prop :=
  ∀ brackets, decode brackets json = within brackets json.depth (some value)

/-! ## Scalars -/

@[simp] theorem string?_text (value : String) :
    (text value).string? = some value := rfl

@[simp] theorem depth_text (value : String) : (text value).depth = 0 := rfl

@[simp] theorem depth_int (value : Int) : (int value).depth = 0 := rfl

@[simp] theorem depth_bool (value : Bool) : (bool value).depth = 0 := rfl

@[simp] theorem depth_null : null.depth = 0 := rfl

@[simp] theorem bool?_bool (value : Bool) :
    (bool value).bool? = some value := rfl

theorem decodes_text (value : String) :
    Decodes (fun _ => string?) (text value) value := by
  intro brackets
  simp

@[simp] theorem int32?_int (value : Int32) :
    (int value.toInt).int32? = some value := by
  have low := Int32.minValue_le_toInt value
  have high := Int32.toInt_le value
  rw [Int32.toInt_minValue] at low
  rw [Int32.toInt_maxValue] at high
  change (if _ then some (Int32.ofInt value.toInt) else none) = _
  rw [if_pos ⟨low, high⟩, Int32.ofInt_toInt]

theorem uint64?_of_int? {json : Json} {value : Int}
    (known : json.int? = some value)
    (fits : 0 ≤ value ∧ value < 18446744073709551616) :
    json.uint64? = some (UInt64.ofNat value.toNat) := by
  rw [uint64?, known]
  exact if_pos fits

@[simp] theorem uint64?_int (value : UInt64) :
    (int value.toNat).uint64? = some value := by
  have small := value.toNat_lt
  have known : (int value.toNat).int? = some (value.toNat : Int) := rfl
  rw [uint64?_of_int? known (by omega), Int.toNat_natCast, UInt64.ofNat_toNat]

theorem nullable_of_ne {json : Json} (given : json ≠ .null)
    (decode : Json → Option α) :
    Json.nullable decode json = (decode json).map some := by
  cases json with
  | null => exact absurd rfl given
  | bool | num | str | arr | obj => rfl

theorem Decodes.nullable {decode : Nat → Json → Option α} {json : Json}
    {value : α} (h : Decodes decode json value) (given : json ≠ .null) :
    Decodes (fun brackets => Json.nullable (decode brackets)) json
      (some value) := by
  intro brackets
  simp [nullable_of_ne given, h brackets]

@[simp] theorem depth_textOrNull (name : Option String) :
    ((name.map text).getD null).depth = 0 := by
  cases name <;> rfl

@[simp] theorem nullable_textOrNull (name : Option String) :
    Json.nullable string? ((name.map text).getD null) = some name := by
  cases name <;> rfl

/-! ## Lists -/

theorem depth_arr_le {encode : α → Json} {bound : Nat} {values : List α}
    (h : ∀ value ∈ values, (encode value).depth ≤ bound) :
    (arr (values.map encode)).depth ≤ bound + 1 := by
  rw [depth, Nat.add_le_add_iff_right]
  induction values with
  | nil => exact Nat.zero_le _
  | cons value values ih =>
      obtain ⟨first, others⟩ := List.forall_mem_cons.mp h
      exact Nat.max_le.mpr ⟨first, ih others⟩

theorem mapM_decode {decode : Nat → Json → Option α} {encode : α → Json}
    {values : List α}
    (h : ∀ value ∈ values, Decodes decode (encode value) value)
    (brackets : Nat) :
    (values.map encode).mapM (decode brackets) =
      within brackets (depthItems (values.map encode)) (some values) := by
  induction values with
  | nil => simp [depthItems]
  | cons value values ih =>
      obtain ⟨first, others⟩ := List.forall_mem_cons.mp h
      simp [depthItems, first brackets, ih others]

theorem Decodes.list {decode : Nat → Json → Option α} {encode : α → Json}
    {values : List α}
    (h : ∀ value ∈ values, Decodes decode (encode value) value) :
    Decodes (listWithin decode) (.arr (values.map encode)) values := by
  intro brackets
  cases brackets with
  | zero => simp [listWithin, depth]
  | succ brackets =>
      simp [listWithin, Json.list, items?, depth, mapM_decode h]

/-! ## Records and alternatives -/

@[simp] theorem fields?_record {names : List String}
    {members : List (String × Json)}
    (named : members.map Prod.fst = names) (distinct : names.Nodup) :
    (record members).fields? names = some ⟨false, members⟩ := by
  have keyed : (members.map fun member => (some member.1, member.2)).mapM
      (fun member => member.1.map (·, member.2)) = some members := by
    clear named
    induction members with
    | nil => rfl
    | cons member members ih => simp_all
  have known : members.filter (fun member => names.contains member.1) =
      members := by
    rw [List.filter_eq_self, ← named]
    intro member present
    simpa using ⟨member.2, present⟩
  subst named
  simp only [record, fields?]
  rw [keyed]
  simp only [bind, Option.bind_some]
  rw [known, if_pos distinct]

namespace Fields

variable (positional : Bool) (entries : List (String × Json))

@[simp] theorem required_mk (name : String) (decode : Json → Option α) :
    required ⟨positional, entries⟩ name decode =
      (entries.lookup name).bind decode := rfl

@[simp] theorem optional_mk (name : String) (missing : α)
    (decode : Json → Option α) :
    optional ⟨positional, entries⟩ name missing decode =
      (entries.lookup name).elim (some missing) decode := by
  rw [optional]
  cases entries.lookup name <;> rfl

@[simp] theorem nullable_mk (name : String) (decode : Json → Option α) :
    nullable ⟨positional, entries⟩ name decode = (entries.lookup name).elim
      (if positional then none else some none) (Json.nullable decode) := by
  rw [nullable]
  cases entries.lookup name <;> rfl

end Fields

@[simp] theorem depth_record (members : List (String × Json)) :
    (record members).depth = depthItems (members.map Prod.snd) + 1 := by
  rw [record, depth]
  induction members with
  | nil => rfl
  | cons member members ih => simp_all [depthItems, depthMembers]

theorem Decodes.record {decode : Nat → Json → Option α}
    {members : List (String × Json)} {value : α}
    (zero : decode 0 (record members) = none)
    (succ : ∀ brackets, decode (brackets + 1) (record members) =
      within brackets (depthItems (members.map Prod.snd)) (some value)) :
    Decodes decode (Json.record members) value := by
  intro brackets
  cases brackets with
  | zero => simp [zero]
  | succ brackets => simp [succ]

@[simp] theorem depth_tagged (name : String) (payload : Json) :
    (tagged name payload).depth = payload.depth + 1 := by
  simp [tagged, depth, depthMembers]

theorem Decodes.tagged {decode : Nat → Json → Option α} {name : String}
    {payload : Json} {value : α}
    (zero : decode 0 (tagged name payload) = none)
    (succ : ∀ brackets, decode (brackets + 1) (tagged name payload) =
      within brackets payload.depth (some value)) :
    Decodes decode (Json.tagged name payload) value := by
  intro brackets
  cases brackets with
  | zero => simp [zero]
  | succ brackets => simp [succ]

@[simp] theorem variant?_text (brackets : Nat) (name : String) :
    (text name).variant? brackets = some (name, none) := by
  cases brackets <;> rfl

@[simp] theorem variant?_zero (name : String) (payload : Json) :
    (tagged name payload).variant? 0 = none := rfl

@[simp] theorem variant?_succ (brackets : Nat) (name : String)
    (payload : Json) :
    (tagged name payload).variant? (brackets + 1) =
      some (name, some payload) := rfl

@[simp] theorem bare?_text (brackets : Nat) (name : String) :
    (text name).bare? brackets = some name := by
  simp [bare?]

end JavaMinus.Json
