/-!
# Label tables

Each label of a method stands before an instruction, given by its index, or
after the last one.  Labels are kept in the order of their names, which is
the order in which those at the same place are shown.
-/

namespace JavaMinus.Ir

/-- Labels with the index of the instruction they precede, by name. -/
abbrev Labels := List (String × Nat)

namespace Labels

/-- Places a label; a label placed before moves. -/
def place (name : String) (index : Nat) : Labels → Labels
  | [] => [(name, index)]
  | (other, spot) :: rest =>
      if name < other then (name, index) :: (other, spot) :: rest
      else if name = other then (name, index) :: rest
      else (other, spot) :: place name index rest

def before (index : Nat) (labels : Labels) : List String :=
  (labels.filter fun (_, place) => place = index).map Prod.fst

end Labels

end JavaMinus.Ir
