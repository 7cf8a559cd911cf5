import JavaMinus.Error

/-!
# Fresh names

Temporaries and labels are numbered by two counters that run through a whole
compilation and have no upper end here.  Every temporary is therefore another
one, and it avoids the names that are reserved for the variables of the method
at hand.  Labels have different numbers, but two of them can be the same text
if a stem ends with a digit.
-/

namespace JavaMinus

structure Supply where
  nextTemp : Nat := 0
  nextLabel : Nat := 0
  reserved : List String := []
  deriving Inhabited

namespace Supply

def tempName (number : Nat) : String := "tmp" ++ toString number

/--
The first number from `start` on whose name is not reserved.  No more names
than there are reserved ones have to be passed over.
-/
def firstFree (reserved : List String) : Nat → Nat → Nat
  | 0, start => start
  | more + 1, start =>
      if reserved.contains (tempName start) then
        firstFree reserved more (start + 1)
      else start

def freshTemp (supply : Supply) : String × Supply :=
  let number :=
    firstFree supply.reserved supply.reserved.length supply.nextTemp
  (tempName number, { supply with nextTemp := number + 1 })

def freshLabel (stem : String) (supply : Supply) : String × Supply :=
  (stem ++ toString supply.nextLabel,
    { supply with nextLabel := supply.nextLabel + 1 })

def reserve (names : List String) (supply : Supply) : Supply :=
  { supply with reserved := names }

end Supply

/-- An action that draws names.  The names stay drawn if it fails. -/
abbrev Lower := EStateM Breach Supply

namespace Lower

def suffix : Ty → Lower String
  | .vararg => throw .escapedVararg
  | ty => pure ty.suffix

def label (stem : String) : Lower String :=
  modifyGet (Supply.freshLabel stem)

def tempName (ty : Ty) : Lower String := do
  let _ ← suffix ty
  modifyGet Supply.freshTemp

def temp (ty : Ty) : Lower Ir.Operand := do
  let name ← tempName ty
  pure (.var name ty)

end Lower

end JavaMinus
