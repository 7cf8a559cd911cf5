import JavaMinus.Json.Basic

/-!
# JSON tokens

The lexical level of strict JSON: blanks are space, tab, line feed and
carriage return; strings hold no raw control characters; words and numbers
are the longest runs of letters, digits and the signs that numbers use.
-/

namespace JavaMinus.Json

inductive Token where
  | openBrace
  | closeBrace
  | openBracket
  | closeBracket
  | comma
  | colon
  | null
  | bool (value : Bool)
  | num (value : Option Int)
  | str (value : Option String)
  deriving DecidableEq

namespace Token

/-! ## Strings -/

/-- A character of a string, or a code unit written as an escape. -/
inductive Piece where
  | char (value : Char)
  | unit (value : Nat)
  deriving DecidableEq

def isHighSurrogate (unit : Nat) : Bool := 0xD800 ≤ unit && unit < 0xDC00

def isLowSurrogate (unit : Nat) : Bool := 0xDC00 ≤ unit && unit < 0xE000

def joinSurrogates (high low : Nat) : Char :=
  Char.ofNat (0x10000 + (high - 0xD800) * 0x400 + (low - 0xDC00))

/-- The characters that pieces spell, unless a surrogate stands alone. -/
def spell : List Piece → Option (List Char)
  | [] => some []
  | .char value :: rest => (spell rest).map (value :: ·)
  | .unit high :: .unit low :: rest =>
      if isHighSurrogate high then
        if isLowSurrogate low then
          (spell rest).map (joinSurrogates high low :: ·)
        else none
      else if isLowSurrogate high then none
      else (spell (.unit low :: rest)).map (Char.ofNat high :: ·)
  | .unit unit :: rest =>
      if isHighSurrogate unit || isLowSurrogate unit then none
      else (spell rest).map (Char.ofNat unit :: ·)

def hexDigit? (digit : Char) : Option Nat :=
  if digit.isDigit then some (digit.toNat - '0'.toNat)
  else if 'a' ≤ digit && digit ≤ 'f' then some (digit.toNat - 'a'.toNat + 10)
  else if 'A' ≤ digit && digit ≤ 'F' then some (digit.toNat - 'A'.toNat + 10)
  else none

def escaped? : Char → Option Char
  | '"' => some '"'
  | '\\' => some '\\'
  | '/' => some '/'
  | 'b' => some '\x08'
  | 'f' => some '\x0c'
  | 'n' => some '\n'
  | 'r' => some '\x0d'
  | 't' => some '\t'
  | _ => none

def scanString : List Char → Option (List Piece × List Char)
  | [] => none
  | '"' :: rest => some ([], rest)
  | '\\' :: 'u' :: a :: b :: c :: d :: rest => do
      let unit :=
        (((← hexDigit? a) * 16 + (← hexDigit? b)) * 16 + (← hexDigit? c)) * 16 +
          (← hexDigit? d)
      let (pieces, after) ← scanString rest
      some (.unit unit :: pieces, after)
  | '\\' :: letter :: rest => do
      let value ← escaped? letter
      let (pieces, after) ← scanString rest
      some (.char value :: pieces, after)
  | value :: rest => do
      if value.toNat < 0x20 then none
      else
        let (pieces, after) ← scanString rest
        some (.char value :: pieces, after)

theorem scanString_length {input after : List Char} {pieces : List Piece}
    (h : scanString input = some (pieces, after)) :
    after.length < input.length := by
  fun_induction scanString input generalizing pieces after with
  | case1 => simp at h
  | case2 rest =>
      simp only [Option.some.injEq, Prod.mk.injEq] at h
      simp [← h.2]
  | case3 a b c d rest ih =>
      simp only [bind, Option.bind_eq_some_iff, Option.some.injEq,
        Prod.mk.injEq] at h
      obtain ⟨_, _, _, _, _, _, _, _, ⟨_, tail⟩, scanned, _, rfl⟩ := h
      have := ih scanned
      simp only [List.length_cons]
      omega
  | case4 letter rest _ ih =>
      simp only [bind, Option.bind_eq_some_iff, Option.some.injEq,
        Prod.mk.injEq] at h
      obtain ⟨_, _, ⟨_, tail⟩, scanned, _, rfl⟩ := h
      have := ih scanned
      simp only [List.length_cons]
      omega
  | case5 => simp at h
  | case6 value rest _ _ _ _ ih =>
      simp only [bind, Option.bind_eq_some_iff, Option.some.injEq,
        Prod.mk.injEq] at h
      obtain ⟨⟨_, tail⟩, scanned, _, rfl⟩ := h
      have := ih scanned
      simp only [List.length_cons]
      omega

/-! ## Words and numbers -/

/-- A whole number is a zero, or starts with another digit. -/
def isWhole : List Char → Bool
  | [] => false
  | ['0'] => true
  | first :: rest => first != '0' && (first :: rest).all Char.isDigit

def isDigits (text : List Char) : Bool :=
  !text.isEmpty && text.all Char.isDigit

def isExponent : List Char → Bool
  | [] => true
  | mark :: '+' :: digits => (mark == 'e' || mark == 'E') && isDigits digits
  | mark :: '-' :: digits => (mark == 'e' || mark == 'E') && isDigits digits
  | mark :: digits => (mark == 'e' || mark == 'E') && isDigits digits

def isTail : List Char → Bool
  | '.' :: rest =>
      !(rest.takeWhile Char.isDigit).isEmpty &&
        isExponent (rest.dropWhile Char.isDigit)
  | rest => isExponent rest

/--
The number that a lexeme denotes, if it is one.  A zero with a minus sign is
a number but no integer, as is all that has a fraction or an exponent.
-/
def number? (lexeme : List Char) : Option (Option Int) :=
  let (negative, body) := match lexeme with
    | '-' :: body => (true, body)
    | body => (false, body)
  let whole := body.takeWhile Char.isDigit
  let tail := body.dropWhile Char.isDigit
  if isWhole whole && isTail tail then
    let magnitude := Nat.ofDigitChars 10 whole 0
    if !tail.isEmpty || (negative && magnitude == 0) then some none
    else if negative then some (some (-(magnitude : Int)))
    else some (some magnitude)
  else none

def scalar? (lexeme : List Char) : Option Token :=
  if lexeme = "null".toList then some .null
  else if lexeme = "true".toList then some (.bool true)
  else if lexeme = "false".toList then some (.bool false)
  else (number? lexeme).map .num

/-! ## Scanning -/

def isBlank (c : Char) : Bool :=
  c == ' ' || c == '\t' || c == '\n' || c == '\x0d'

def isScalarChar (c : Char) : Bool :=
  c.isAlphanum || c == '+' || c == '-' || c == '.'

def punctuation? : Char → Option Token
  | '\x7b' => some .openBrace
  | '\x7d' => some .closeBrace
  | '[' => some .openBracket
  | ']' => some .closeBracket
  | ',' => some .comma
  | ':' => some .colon
  | _ => none

def scan : List Char → Option (List Token)
  | [] => some []
  | c :: rest =>
      if isBlank c then scan rest
      else match punctuation? c with
        | some token => (scan rest).map (token :: ·)
        | none =>
            if c = '"' then
              match _scanned : scanString rest with
              | some (pieces, after) =>
                  (scan after).map
                    (.str ((spell pieces).map String.ofList) :: ·)
              | none => none
            else
              match scalar? (c :: rest.takeWhile isScalarChar) with
              | some token =>
                  (scan (rest.dropWhile isScalarChar)).map (token :: ·)
              | none => none
termination_by text => text.length
decreasing_by
  · simp
  · simp
  · have := scanString_length _scanned
    simp only [List.length_cons]
    omega
  · have := (List.dropWhile_sublist (l := rest) isScalarChar).length_le
    simp only [List.length_cons]
    omega

end Token

end JavaMinus.Json
