/-!
# JSON values

The formats read here hold no numbers but integers and no text but proper
Unicode.  Numbers and strings of other kinds are well-formed JSON all the
same and may stand where nobody looks at them, so a value records that it is
one of them and nothing more.
-/

namespace JavaMinus

inductive Json where
  | null
  | bool (value : Bool)
  -- A number; `none` unless it is written as an integer.
  | num (value : Option Int)
  -- A string; `none` when a surrogate escape in it stands alone.
  | str (value : Option String)
  | arr (items : List Json)
  | obj (members : List (Option String × Json))
  deriving Inhabited

namespace Json

def text (value : String) : Json := .str (some value)

def int (value : Int) : Json := .num (some value)

def record (members : List (String × Json)) : Json :=
  .obj (members.map fun (key, value) => (some key, value))

mutual

/-- How many brackets and braces are open at once, at most. -/
def depth : Json → Nat
  | .null | .bool _ | .num _ | .str _ => 0
  | .arr items => depthItems items + 1
  | .obj members => depthMembers members + 1

def depthItems : List Json → Nat
  | [] => 0
  | item :: rest => max item.depth (depthItems rest)

def depthMembers : List (Option String × Json) → Nat
  | [] => 0
  | (_, value) :: rest => max value.depth (depthMembers rest)

end

end Json

end JavaMinus
