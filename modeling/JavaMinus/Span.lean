/-!
# Source positions
-/

namespace JavaMinus

structure Location where
  line : UInt64 := 0
  column : UInt64 := 0
  deriving DecidableEq, Inhabited

structure Span where
  start : Location := {}
  stop : Location := {}
  deriving DecidableEq, Inhabited

def Span.text (span : Span) : String :=
  toString span.start.line.toNat ++ ":" ++ toString span.start.column.toNat

end JavaMinus
