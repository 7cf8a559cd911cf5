import JavaMinus.Json.Basic

/-!
# Decoding

What the record formats have in common.  A record is an object, or the array
of its fields in their order; keys that it does not have are passed over.  An
alternative is its name, or an object with that name as its only key.

Decoders of values with an inner structure are told how many brackets may
still open.  Values that are passed over do not count.
-/

namespace JavaMinus.Json

variable {α : Type}

def maxDepth : Nat := 127

/-! ## Scalars -/

def string? : Json → Option String
  | .str value => value
  | _ => none

def bool? : Json → Option Bool
  | .bool value => some value
  | _ => none

def int? : Json → Option Int
  | .num value => value
  | _ => none

def int32? (json : Json) : Option Int32 := do
  let value ← json.int?
  if -2147483648 ≤ value ∧ value ≤ 2147483647 then some (Int32.ofInt value)
  else none

def uint64? (json : Json) : Option UInt64 := do
  let value ← json.int?
  if 0 ≤ value ∧ value < 18446744073709551616 then
    some (UInt64.ofNat value.toNat)
  else none

def nullable (decode : Json → Option α) : Json → Option (Option α)
  | .null => some none
  | json => (decode json).map some

/-! ## Lists -/

def items? : Json → Option (List Json)
  | .arr items => some items
  | _ => none

def list (decode : Json → Option α) (json : Json) : Option (List α) := do
  (← json.items?).mapM decode

/-- A list whose bracket is the next that may open. -/
def listWithin (decode : Nat → Json → Option α) :
    Nat → Json → Option (List α)
  | 0, _ => none
  | brackets + 1, json => json.list (decode brackets)

/-! ## Records -/

structure Fields where
  -- Whether they were given as an array.
  positional : Bool
  entries : List (String × Json)

/--
The fields of a record with these names.  No field may be given twice, and an
array may leave out the last ones but has nothing beyond them.
-/
def fields? (names : List String) : Json → Option Fields
  | .obj members => do
      let members ← members.mapM fun (key, value) => key.map (·, value)
      let known := members.filter fun (key, _) => names.contains key
      if (known.map Prod.fst).Nodup then some ⟨false, known⟩ else none
  | .arr items =>
      if items.length ≤ names.length then some ⟨true, names.zip items⟩
      else none
  | _ => none

namespace Fields

def required (fields : Fields) (name : String) (decode : Json → Option α) :
    Option α := do
  decode (← fields.entries.lookup name)

def optional (fields : Fields) (name : String) (missing : α)
    (decode : Json → Option α) : Option α :=
  match fields.entries.lookup name with
  | some json => decode json
  | none => some missing

/-- A field that may be null.  Only an object may leave it out. -/
def nullable (fields : Fields) (name : String) (decode : Json → Option α) :
    Option (Option α) :=
  match fields.entries.lookup name with
  | some json => Json.nullable decode json
  | none => if fields.positional then none else some none

end Fields

/-! ## Alternatives -/

def variant? : Nat → Json → Option (String × Option Json)
  | _, .str (some name) => some (name, none)
  | _ + 1, .obj [(some name, payload)] => some (name, some payload)
  | _, _ => none

/-- The name of an alternative that has no payload, or null for one. -/
def bare? (brackets : Nat) (json : Json) : Option String :=
  match json.variant? brackets with
  | some (name, none) | some (name, some .null) => some name
  | _ => none

def tagged (name : String) (payload : Json) : Json :=
  .obj [(some name, payload)]

end JavaMinus.Json
