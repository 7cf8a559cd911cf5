import JavaMinus.Json.Writer
import Mathlib.Data.List.TakeWhile

/-!
# Scanning what was written

The text of a token is scanned as that token.  A word or a number ends where
a character follows that can be no part of one, all other tokens end by
themselves.
-/

namespace JavaMinus.Json.Token

/-! ## Strings -/

def piece (c : Char) : Piece :=
  if (letter? c).isNone ∧ c.toNat < 0x20 then .unit c.toNat else .char c

section Strings

variable {rest after : List Char} {pieces : List Piece}

theorem hexDigit?_digitChar {digit : Nat} (small : digit < 16) :
    hexDigit? (Nat.digitChar digit) = some digit := by
  have every : ∀ digit : Fin 16,
      hexDigit? (Nat.digitChar digit) = some digit.val := by decide
  exact every ⟨digit, small⟩

theorem scanString_letter {c letter : Char} (known : letter? c = some letter)
    (scanned : scanString rest = some (pieces, after)) :
    scanString ('\\' :: letter :: rest) = some (.char c :: pieces, after) := by
  unfold letter? at known
  split at known <;> cases known <;> simp [scanString, escaped?, scanned]

theorem scanString_control {code : Nat} (control : code < 0x20)
    (scanned : scanString rest = some (pieces, after)) :
    scanString ('\\' :: 'u' :: '0' :: '0' :: Nat.digitChar (code / 16) ::
      Nat.digitChar (code % 16) :: rest) =
      some (.unit code :: pieces, after) := by
  have zero : hexDigit? '0' = some 0 := rfl
  have value : code / 16 * 16 + code % 16 = code := by omega
  rw [scanString, zero, hexDigit?_digitChar (by omega),
    hexDigit?_digitChar (by omega), scanned]
  simp [value]

theorem scanString_raw {c : Char} (unescaped : letter? c = none)
    (visible : 0x20 ≤ c.toNat)
    (scanned : scanString rest = some (pieces, after)) :
    scanString (c :: rest) = some (.char c :: pieces, after) := by
  have noQuote : c ≠ '"' := by
    rintro rfl
    cases unescaped
  have noBackslash : c ≠ '\\' := by
    rintro rfl
    cases unescaped
  unfold scanString
  split <;> simp_all

theorem scanString_charText (c : Char)
    (scanned : scanString rest = some (pieces, after)) :
    scanString (charText c ++ rest) = some (piece c :: pieces, after) := by
  rw [charText]
  cases known : letter? c with
  | some letter => simpa [piece, known] using scanString_letter known scanned
  | none =>
      dsimp only
      split
      next control =>
        simpa [piece, known, control] using scanString_control control scanned
      next visible =>
        simpa [piece, known, visible] using
          scanString_raw known (Nat.le_of_not_lt visible) scanned

theorem scanString_text (chars rest : List Char) :
    scanString (chars.flatMap charText ++ '"' :: rest) =
      some (chars.map piece, rest) := by
  induction chars with
  | nil => simp [scanString]
  | cons c chars ih =>
      rw [List.flatMap_cons, List.append_assoc, scanString_charText c ih,
        List.map_cons]

theorem spell_control {code : Nat} (control : code < 0x20)
    (pieces : List Piece) :
    spell (.unit code :: pieces) =
      (spell pieces).map (Char.ofNat code :: ·) := by
  have notHigh : isHighSurrogate code = false := by
    simp only [isHighSurrogate, Bool.and_eq_false_iff, decide_eq_false_iff_not]
    omega
  have notLow : isLowSurrogate code = false := by
    simp only [isLowSurrogate, Bool.and_eq_false_iff, decide_eq_false_iff_not]
    omega
  cases pieces with
  | nil => simp [spell, notHigh, notLow]
  | cons next pieces => cases next <;> simp [spell, notHigh, notLow]

theorem spell_pieces (chars : List Char) :
    spell (chars.map piece) = some chars := by
  induction chars with
  | nil => rfl
  | cons c chars ih =>
      rw [List.map_cons, piece]
      split
      next control =>
        rw [spell_control control.2, ih, Char.ofNat_toNat]
        rfl
      next => rw [spell, ih]; rfl

end Strings

/-! ## Numbers -/

theorem isDigit_of_mem_toDigits {value : Nat} {c : Char}
    (member : c ∈ Nat.toDigits 10 value) : c.isDigit = true :=
  Nat.isDigit_of_mem_toDigits (by decide) (by decide) member

theorem toDigits_eq_cons {value : Nat} (positive : 0 < value) :
    ∃ first rest, Nat.toDigits 10 value = first :: rest ∧ first ≠ '0' := by
  induction value using Nat.strongRecOn with
  | _ value ih =>
      rw [Nat.toDigits_eq_if (by decide)]
      split
      next small =>
        have notZero : Nat.digitChar value ≠ '0' := by
          rw [Ne, Nat.digitChar_eq_zero]
          omega
        exact ⟨_, [], rfl, notZero⟩
      next large =>
        obtain ⟨first, rest, digits, notZero⟩ :=
          ih (value / 10) (by omega) (by omega)
        exact ⟨first, rest ++ _, by rw [digits]; rfl, notZero⟩

theorem isWhole_toDigits (value : Nat) :
    isWhole (Nat.toDigits 10 value) = true := by
  rcases Nat.eq_zero_or_pos value with rfl | positive
  · rfl
  · obtain ⟨first, rest, digits, notZero⟩ := toDigits_eq_cons positive
    have allDigits : (first :: rest).all Char.isDigit = true := by
      rw [← digits, List.all_eq_true]
      exact fun _ => isDigit_of_mem_toDigits
    rw [digits]
    unfold isWhole
    split <;> simp_all

theorem takeWhile_toDigits (value : Nat) :
    (Nat.toDigits 10 value).takeWhile Char.isDigit = Nat.toDigits 10 value :=
  List.takeWhile_eq_self_iff.mpr fun _ => isDigit_of_mem_toDigits

theorem dropWhile_toDigits (value : Nat) :
    (Nat.toDigits 10 value).dropWhile Char.isDigit = [] :=
  List.dropWhile_eq_nil_iff.mpr fun _ => isDigit_of_mem_toDigits

theorem number?_intText (value : Int) :
    number? (intText value) = some (some value) := by
  cases value with
  | ofNat value =>
      have unsigned (body : List Char) :
          Nat.toDigits 10 value ≠ '-' :: body := by
        intro signed
        have isDigit : '-'.isDigit = true :=
          isDigit_of_mem_toDigits (signed ▸ List.mem_cons_self)
        cases isDigit
      simp [intText, number?, takeWhile_toDigits, dropWhile_toDigits,
        isWhole_toDigits, isTail, isExponent, Nat.ofDigitChars_ten_toDigits]
  | negSucc value =>
      simp [intText, number?, takeWhile_toDigits, dropWhile_toDigits,
        isWhole_toDigits, isTail, isExponent, Nat.ofDigitChars_ten_toDigits]
      omega

theorem isScalarChar_of_isDigit {c : Char} (digit : c.isDigit = true) :
    isScalarChar c = true := by
  simp [isScalarChar, Char.isAlphanum, digit]

theorem isScalarChar_intText {value : Int} {c : Char}
    (member : c ∈ intText value) : isScalarChar c = true := by
  cases value with
  | ofNat value => exact isScalarChar_of_isDigit (isDigit_of_mem_toDigits member)
  | negSucc value =>
      rcases List.mem_cons.mp member with rfl | member
      · rfl
      · exact isScalarChar_of_isDigit (isDigit_of_mem_toDigits member)

theorem scalar?_intText (value : Int) :
    scalar? (intText value) = some (.num (some value)) := by
  have noWord (word : List Char) (noNumber : number? word = none) :
      intText value ≠ word := by
    rintro rfl
    rw [number?_intText] at noNumber
    cases noNumber
  rw [scalar?, if_neg (noWord _ (by decide)), if_neg (noWord _ (by decide)),
    if_neg (noWord _ (by decide)), number?_intText]
  rfl

/-! ## Tokens -/

def Ends (text : List Char) : Prop := ∀ c ∈ text.head?, isScalarChar c = false

theorem isBlank_of_isScalarChar {c : Char} (h : isScalarChar c = true) :
    isBlank c = false := by
  apply Bool.eq_false_iff.mpr
  intro blank
  simp only [isBlank, Bool.or_eq_true, beq_iff_eq] at blank
  rcases blank with ((rfl | rfl) | rfl) | rfl <;> cases h

theorem punctuation?_of_isScalarChar {c : Char} (h : isScalarChar c = true) :
    punctuation? c = none := by
  unfold punctuation?
  split <;> first | rfl | cases h

theorem scan_scalar {token : Token} {lexeme rest : List Char}
    (known : scalar? lexeme = some token)
    (within : lexeme.all isScalarChar = true) (ends : Ends rest) :
    scan (lexeme ++ rest) = (scan rest).map (token :: ·) := by
  cases lexeme with
  | nil => cases known
  | cons c lexeme =>
      obtain ⟨first, others⟩ :=
        List.forall_mem_cons.mp (List.all_eq_true.mp within)
      have taken : (lexeme ++ rest).takeWhile isScalarChar = lexeme := by
        rw [List.takeWhile_append_of_pos others]
        cases rest <;> simp_all [Ends]
      have dropped : (lexeme ++ rest).dropWhile isScalarChar = rest := by
        rw [List.dropWhile_append_of_pos others]
        cases rest <;> simp_all [Ends]
      have noQuote : c ≠ '"' := by
        rintro rfl
        cases first
      rw [List.cons_append, scan, isBlank_of_isScalarChar first,
        punctuation?_of_isScalarChar first]
      dsimp only
      rw [if_neg Bool.false_ne_true, if_neg noQuote, taken, known, dropped]

theorem scan_punctuation {c : Char} {token : Token}
    (known : punctuation? c = some token) (rest : List Char) :
    scan (c :: rest) = (scan rest).map (token :: ·) := by
  have noBlank : isBlank c = false := by
    unfold punctuation? at known
    split at known <;> first | rfl | cases known
  rw [scan, if_neg (by simp [noBlank]), known]

theorem scan_quoted {quoted rest after : List Char} {pieces : List Piece}
    (scanned : scanString (quoted ++ rest) = some (pieces, after)) :
    scan ('"' :: quoted ++ rest) = (scan after).map
      (.str ((spell pieces).map String.ofList) :: ·) := by
  have noBlank : isBlank '"' = false := rfl
  have noPunctuation : punctuation? '"' = none := rfl
  rw [List.cons_append, scan, noBlank, if_neg Bool.false_ne_true,
    noPunctuation]
  dsimp only
  rw [if_pos rfl]
  split
  next other after' found =>
    rw [scanned] at found
    cases found
    rfl
  next missing =>
    rw [scanned] at missing
    cases missing

theorem scan_text (token : Token) {rest : List Char} (ends : Ends rest) :
    scan (token.text ++ rest) = (scan rest).map (token :: ·) := by
  cases token with
  | openBrace | closeBrace | openBracket | closeBracket | comma | colon =>
      exact scan_punctuation rfl rest
  | null => exact scan_scalar rfl rfl ends
  | bool value => cases value <;> exact scan_scalar rfl rfl ends
  | num value =>
      cases value with
      | none => exact scan_scalar rfl rfl ends
      | some value =>
          exact scan_scalar (scalar?_intText value)
            (List.all_eq_true.mpr fun _ => isScalarChar_intText) ends
  | str value =>
      cases value with
      | none =>
          have scanned : scanString
              (['\\', 'u', 'd', '8', '0', '0', '"'] ++ rest) =
              some ([.unit 0xD800], rest) := by
            simp [scanString, hexDigit?]
          have written : (Token.str none).text =
              '"' :: ['\\', 'u', 'd', '8', '0', '0', '"'] := by
            decide
          rw [written, scan_quoted scanned]
          rfl
      | some value =>
          have scanned : scanString
              ((value.toList.flatMap charText ++ ['"']) ++ rest) =
              some (value.toList.map piece, rest) := by
            rw [List.append_assoc]
            exact scanString_text value.toList rest
          have written : (Token.str (some value)).text =
              '"' :: (value.toList.flatMap charText ++ ['"']) :=
            rfl
          rw [written, scan_quoted scanned, spell_pieces, Option.map_some,
            String.ofList_toList]

end JavaMinus.Json.Token
