/-!
# Counted results

A pass over a tree yields the new tree and the number of nodes that it
replaced.  The counts of the parts of a pass add up.
-/

namespace JavaMinus

structure Counted (α : Type) where
  value : α
  count : Nat

namespace Counted

instance : Monad Counted where
  pure value := ⟨value, 0⟩
  bind first next :=
    let second := next first.value
    ⟨second.value, first.count + second.count⟩

def replaced {α : Type} (value : α) : Counted α := ⟨value, 1⟩

end Counted

end JavaMinus
