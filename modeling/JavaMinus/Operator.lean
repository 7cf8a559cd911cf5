import JavaMinus.Ty

/-!
# Binary operators

Arithmetic is on 32-bit words and wraps around.  Division truncates toward
zero, and the least word divided by minus one is the least word again.
-/

namespace JavaMinus

inductive Operator where
  | add
  | sub
  | mul
  | div
  | lt
  | gt
  | eq
  | ne
  | and
  deriving DecidableEq, Inhabited

namespace Operator

def symbol : Operator → String
  | .add => "+"
  | .sub => "-"
  | .mul => "*"
  | .div => "/"
  | .lt => "<"
  | .gt => ">"
  | .eq => "=="
  | .ne => "!="
  | .and => "&&"

def isArithmetic : Operator → Bool
  | .add | .sub | .mul | .div => true
  | .lt | .gt | .eq | .ne | .and => false

def resultTy (op : Operator) : Ty :=
  if op.isArithmetic then .int else .boolean

/--
The word an arithmetic operation yields.  There is none for a division by
zero, which fails when the program runs, nor for the other operators.
-/
def compute? : Operator → Int32 → Int32 → Option Int32
  | .add, left, right => some (left + right)
  | .sub, left, right => some (left - right)
  | .mul, left, right => some (left * right)
  | .div, left, right => if right = 0 then none else some (left / right)
  | _, _, _ => none

end Operator

end JavaMinus
