import JavaMinus.Json.Token

/-!
# Reading JSON

Tokens are read by a machine that keeps the containers still open on a stack,
so that any depth of nesting can be read.
-/

namespace JavaMinus.Json

/-- A container still open, with what it holds so far, latest first. -/
inductive Frame where
  | arr (items : List Json)
  | obj (members : List (Option String × Json)) (key : Option String)

inductive Stage where
  -- A value; the bracket just opened may close instead.
  | value (mayClose : Bool)
  | key (members : List (Option String × Json)) (mayClose : Bool)
  | colon (members : List (Option String × Json)) (key : Option String)
  | done (value : Json)

def readStep : Token → Stage → List Frame → Option (Stage × List Frame)
  | .null, .value _, frames => some (.done .null, frames)
  | .bool value, .value _, frames => some (.done (.bool value), frames)
  | .num value, .value _, frames => some (.done (.num value), frames)
  | .str value, .value _, frames => some (.done (.str value), frames)
  | .openBracket, .value _, frames => some (.value true, .arr [] :: frames)
  | .openBrace, .value _, frames => some (.key [] true, frames)
  | .closeBracket, .value true, .arr items :: frames =>
      some (.done (.arr items.reverse), frames)
  | .closeBrace, .key members true, frames =>
      some (.done (.obj members.reverse), frames)
  | .str key, .key members _, frames => some (.colon members key, frames)
  | .colon, .colon members key, frames =>
      some (.value false, .obj members key :: frames)
  | .comma, .done value, .arr items :: frames =>
      some (.value false, .arr (value :: items) :: frames)
  | .closeBracket, .done value, .arr items :: frames =>
      some (.done (.arr (value :: items).reverse), frames)
  | .comma, .done value, .obj members key :: frames =>
      some (.key ((key, value) :: members) false, frames)
  | .closeBrace, .done value, .obj members key :: frames =>
      some (.done (.obj ((key, value) :: members).reverse), frames)
  | _, _, _ => none

def readTokens : List Token → Stage → List Frame → Option Json
  | [], .done value, [] => some value
  | [], _, _ => none
  | token :: rest, stage, frames =>
      match readStep token stage frames with
      | some (stage, frames) => readTokens rest stage frames
      | none => none

def parse? (text : String) : Option Json := do
  readTokens (← Token.scan text.toList) (.value false) []

end JavaMinus.Json
