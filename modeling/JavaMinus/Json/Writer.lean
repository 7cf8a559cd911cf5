import JavaMinus.Json.Token

/-!
# Writing JSON

Values are written without blanks.  A string escapes quotes, backslashes and
control characters and keeps all other characters as they are.  A number that
is no integer is written as a negative zero and a string with a lone
surrogate as such a surrogate, so that every value is read back.
-/

namespace JavaMinus.Json

namespace Token

def letter? : Char → Option Char
  | '"' => some '"'
  | '\\' => some '\\'
  | '\x08' => some 'b'
  | '\x0c' => some 'f'
  | '\n' => some 'n'
  | '\x0d' => some 'r'
  | '\t' => some 't'
  | _ => none

def charText (c : Char) : List Char :=
  match letter? c with
  | some letter => ['\\', letter]
  | none =>
      if c.toNat < 0x20 then
        ['\\', 'u', '0', '0', Nat.digitChar (c.toNat / 16),
          Nat.digitChar (c.toNat % 16)]
      else [c]

def intText : Int → List Char
  | .ofNat value => Nat.toDigits 10 value
  | .negSucc value => '-' :: Nat.toDigits 10 (value + 1)

def text : Token → List Char
  | .openBrace => ['\x7b']
  | .closeBrace => ['\x7d']
  | .openBracket => ['[']
  | .closeBracket => [']']
  | .comma => [',']
  | .colon => [':']
  | .null => "null".toList
  | .bool true => "true".toList
  | .bool false => "false".toList
  | .num (some value) => intText value
  | .num none => "-0".toList
  | .str (some value) => '"' :: value.toList.flatMap charText ++ ['"']
  | .str none => "\"\\ud800\"".toList

end Token

mutual

def tokens : Json → List Token
  | .null => [.null]
  | .bool value => [.bool value]
  | .num value => [.num value]
  | .str value => [.str value]
  | .arr items => .openBracket :: itemTokens items ++ [.closeBracket]
  | .obj members => .openBrace :: memberTokens members ++ [.closeBrace]

def itemTokens : List Json → List Token
  | [] => []
  | [item] => item.tokens
  | item :: rest => item.tokens ++ .comma :: itemTokens rest

def memberTokens : List (Option String × Json) → List Token
  | [] => []
  | [(key, value)] => .str key :: .colon :: value.tokens
  | (key, value) :: rest =>
      .str key :: .colon :: value.tokens ++ .comma :: memberTokens rest

end

def render (json : Json) : String :=
  String.ofList (json.tokens.flatMap Token.text)

end JavaMinus.Json
