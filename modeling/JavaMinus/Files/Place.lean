/-!
# Places

Where something can stand in a tree of directories.
-/

namespace JavaMinus.Files

/--
The names that lead to a place from the root, innermost first.  Their number
is kept with them, so that places of different depth are told apart at once.
-/
structure Place where
  depth : Nat
  names : List String
  depth_eq : depth = names.length
  deriving DecidableEq

namespace Place

def root : Place := ⟨0, [], rfl⟩

def enter (place : Place) (name : String) : Place :=
  ⟨place.depth + 1, name :: place.names, by
    rw [place.depth_eq, List.length_cons]⟩

/-- The directory that a place is in; the root is in itself. -/
def leave (place : Place) : Place :=
  ⟨place.depth - 1, place.names.tail, by
    rw [place.depth_eq, List.length_tail]⟩

/-- The place that names lead to from the root, outermost first. -/
def ofNames (names : List String) : Place := names.foldl enter root

end Place

end JavaMinus.Files
