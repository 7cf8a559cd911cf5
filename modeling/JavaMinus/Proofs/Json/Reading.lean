import JavaMinus.Json.Reader
import JavaMinus.Proofs.Json.Scanning

/-!
# Reading what was written

A value is read back from its text, whatever it holds and however deep it is
nested.
-/

namespace JavaMinus.Json

@[induction_eliminator]
theorem induction {motive : Json → Prop} (null : motive .null)
    (bool : ∀ value, motive (.bool value))
    (num : ∀ value, motive (.num value)) (str : ∀ value, motive (.str value))
    (arr : ∀ items, (∀ item ∈ items, motive item) → motive (.arr items))
    (obj : ∀ members, (∀ member ∈ members, motive member.2) →
      motive (.obj members)) (json : Json) : motive json := by
  refine @Json.rec motive (fun items => ∀ item ∈ items, motive item)
    (fun members => ∀ member ∈ members, motive member.2)
    (fun member => motive member.2) null bool num str arr obj (by simp) ?_
    (by simp) ?_ (fun _ _ h => h) json
  · intro item items ih ihs
    exact List.forall_mem_cons.mpr ⟨ih, ihs⟩
  · intro member members ih ihs
    exact List.forall_mem_cons.mpr ⟨ih, ihs⟩

/-! ## Separated parts -/

def entryTokens (member : Option String × Json) : List Token :=
  .str member.1 :: .colon :: member.2.tokens

theorem itemTokens_cons (item : Json) (items : List Json) :
    itemTokens (item :: items) =
      item.tokens ++ items.flatMap fun other => .comma :: other.tokens := by
  induction items generalizing item with
  | nil => simp [itemTokens]
  | cons next items ih => simp [itemTokens, ih]

theorem memberTokens_cons (member : Option String × Json)
    (members : List (Option String × Json)) :
    memberTokens (member :: members) = entryTokens member ++
      members.flatMap fun other => .comma :: entryTokens other := by
  induction members generalizing member with
  | nil => simp [memberTokens, entryTokens]
  | cons next members ih => simp [memberTokens, entryTokens, ih]

/-! ## Scanning -/

namespace Token

/-- The tokens are found again if no word or number goes on behind them. -/
def Scans (tokens : List Token) : Prop :=
  ∀ rest, Ends rest →
    scan (tokens.flatMap text ++ rest) = (scan rest).map (tokens ++ ·)

def IsMark (token : Token) : Prop :=
  ∃ c, token.text = [c] ∧ punctuation? c = some token

variable {token : Token} {front back : List Token}

theorem scans_nil : Scans [] := by
  intro rest _
  simp

theorem scans_single (token : Token) : Scans [token] := by
  intro rest ends
  simpa using scan_text token ends

theorem IsMark.ends (mark : IsMark token) (rest : List Char) :
    Ends (token.text ++ rest) := by
  obtain ⟨c, written, known⟩ := mark
  rw [written]
  rintro _ ⟨⟩
  rw [← Bool.not_eq_true]
  intro scalar
  rw [punctuation?_of_isScalarChar scalar] at known
  cases known

namespace Scans

theorem mark (h : Scans back) (mark : IsMark token) :
    Scans (token :: back) := by
  intro rest ends
  obtain ⟨c, written, known⟩ := mark
  rw [List.flatMap_cons, written, List.append_assoc, List.singleton_append,
    scan_punctuation known, h rest ends, Option.map_map]
  rfl

theorem before (h : Scans front) (mark : IsMark token)
    (h' : Scans (token :: back)) : Scans (front ++ token :: back) := by
  intro rest ends
  have between : Ends ((token :: back).flatMap text ++ rest) := by
    rw [List.flatMap_cons, List.append_assoc]
    exact mark.ends _
  rw [List.flatMap_append, List.append_assoc, h _ between, h' rest ends,
    Option.map_map]
  simp [Function.comp_def]

theorem separated {first : List Token} {parts : List (List Token)}
    {close : Token} (h : Scans first) (hs : ∀ part ∈ parts, Scans part)
    (closes : IsMark close) :
    Scans (first ++ (parts.flatMap (.comma :: ·) ++ [close])) := by
  induction parts generalizing first with
  | nil => exact h.before closes (scans_nil.mark closes)
  | cons part parts ih =>
      obtain ⟨hpart, hparts⟩ := List.forall_mem_cons.mp hs
      have comma : IsMark .comma := ⟨',', rfl, rfl⟩
      simpa using h.before comma ((ih hpart hparts).mark comma)

end Scans

end Token

theorem scans_tokens (json : Json) : Token.Scans json.tokens := by
  induction json with
  | null => exact Token.scans_single _
  | bool value => exact Token.scans_single _
  | num value => exact Token.scans_single _
  | str value => exact Token.scans_single _
  | arr items ih =>
      have opens : Token.IsMark .openBracket := ⟨'[', rfl, rfl⟩
      have closes : Token.IsMark .closeBracket := ⟨']', rfl, rfl⟩
      rw [tokens]
      cases items with
      | nil => exact (Token.scans_single _).mark opens
      | cons item items =>
          obtain ⟨first, others⟩ := List.forall_mem_cons.mp ih
          have parts := first.separated
            (List.forall_mem_map.mpr others) closes
          rw [itemTokens_cons]
          simpa [List.flatMap_map] using parts.mark opens
  | obj members ih =>
      have opens : Token.IsMark .openBrace := ⟨'\x7b', rfl, rfl⟩
      have closes : Token.IsMark .closeBrace := ⟨'\x7d', rfl, rfl⟩
      have colon : Token.IsMark .colon := ⟨':', rfl, rfl⟩
      have entries : ∀ member ∈ members, Token.Scans (entryTokens member) :=
        fun member present => (Token.scans_single _).before colon
          ((ih member present).mark colon)
      rw [tokens]
      cases members with
      | nil => exact (Token.scans_single _).mark opens
      | cons member members =>
          obtain ⟨first, others⟩ := List.forall_mem_cons.mp entries
          have parts := first.separated
            (List.forall_mem_map.mpr others) closes
          rw [memberTokens_cons]
          simpa [List.flatMap_map] using parts.mark opens

/-! ## Reading -/

theorem readTokens_items {items : List Json}
    (ih : ∀ item ∈ items, ∀ rest mayClose frames,
      readTokens (item.tokens ++ rest) (.value mayClose) frames =
        readTokens rest (.done item) frames)
    (first : Json) (before : List Json) (rest : List Token)
    (frames : List Frame) :
    readTokens
      ((items.flatMap fun other => .comma :: other.tokens) ++
        .closeBracket :: rest)
      (.done first) (.arr before :: frames) =
      readTokens rest (.done (.arr (before.reverse ++ first :: items)))
        frames := by
  induction items generalizing first before with
  | nil => simp [readTokens, readStep]
  | cons item items ihs =>
      obtain ⟨readItem, readItems⟩ := List.forall_mem_cons.mp ih
      simp [readTokens, readStep, readItem, ihs readItems]

theorem readTokens_entry {member : Option String × Json}
    (ih : ∀ rest mayClose frames,
      readTokens (member.2.tokens ++ rest) (.value mayClose) frames =
        readTokens rest (.done member.2) frames)
    (before : List (Option String × Json)) (mayClose : Bool)
    (rest : List Token) (frames : List Frame) :
    readTokens (entryTokens member ++ rest) (.key before mayClose) frames =
      readTokens rest (.done member.2) (.obj before member.1 :: frames) := by
  simp [entryTokens, readTokens, readStep, ih]

theorem readTokens_members {members : List (Option String × Json)}
    (ih : ∀ member ∈ members, ∀ rest mayClose frames,
      readTokens (member.2.tokens ++ rest) (.value mayClose) frames =
        readTokens rest (.done member.2) frames)
    (key : Option String) (value : Json)
    (before : List (Option String × Json)) (rest : List Token)
    (frames : List Frame) :
    readTokens
      ((members.flatMap fun other => .comma :: entryTokens other) ++
        .closeBrace :: rest)
      (.done value) (.obj before key :: frames) =
      readTokens rest
        (.done (.obj (before.reverse ++ (key, value) :: members)))
        frames := by
  induction members generalizing key value before with
  | nil => simp [readTokens, readStep]
  | cons member members ihs =>
      obtain ⟨readMember, readMembers⟩ := List.forall_mem_cons.mp ih
      simp [readTokens, readStep, readTokens_entry readMember,
        ihs readMembers]

/-- The machine reads the tokens of a value as that value. -/
theorem readTokens_tokens (json : Json) (rest : List Token) (mayClose : Bool)
    (frames : List Frame) :
    readTokens (json.tokens ++ rest) (.value mayClose) frames =
      readTokens rest (.done json) frames := by
  induction json generalizing rest mayClose frames with
  | null | bool value | num value | str value => rfl
  | arr items ih =>
      cases items with
      | nil => rfl
      | cons item items =>
          obtain ⟨readItem, readItems⟩ := List.forall_mem_cons.mp ih
          simp [tokens, itemTokens_cons, readTokens, readStep, readItem,
            readTokens_items readItems]
  | obj members ih =>
      cases members with
      | nil => rfl
      | cons member members =>
          obtain ⟨readMember, readMembers⟩ := List.forall_mem_cons.mp ih
          simp [tokens, memberTokens_cons, readTokens, readStep,
            readTokens_entry readMember, readTokens_members readMembers]

theorem parse?_render (json : Json) : parse? json.render = some json := by
  have ends : Token.Ends [] := by simp [Token.Ends]
  have scanned : Token.scan json.render.toList = some json.tokens := by
    have h := scans_tokens json [] ends
    rw [List.append_nil, Token.scan, Option.map_some, List.append_nil] at h
    rw [render, String.toList_ofList, h]
  have read := readTokens_tokens json [] false []
  rw [List.append_nil] at read
  simp [parse?, scanned, read, readTokens]

end JavaMinus.Json
