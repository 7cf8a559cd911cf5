import Mathlib.Data.List.Forall2

/-!
# Lists

Facts about lists that the theory of several parts rests on.
-/

namespace JavaMinus

/-! ## Related lists -/

theorem forall₂_trans {α : Type} {rel : α → α → Prop}
    (trans : ∀ first second third, rel first second → rel second third →
      rel first third) {first second third : List α}
    (h : List.Forall₂ rel first second) (h' : List.Forall₂ rel second third) :
    List.Forall₂ rel first third := by
  induction h generalizing third with
  | nil => exact h'
  | cons here _ ih =>
      cases h' with
      | cons here' rest => exact .cons (trans _ _ _ here here') (ih rest)

theorem exists_of_forall₂ {α β : Type} {related : α → β → Prop}
    {first : List α} {second : List β} {right : β}
    (h : List.Forall₂ related first second) (member : right ∈ second) :
    ∃ left ∈ first, related left right := by
  induction h with
  | nil => simp at member
  | cons here _ ih =>
      rcases List.mem_cons.mp member with rfl | member
      · exact ⟨_, by simp, here⟩
      · obtain ⟨left, inside, there⟩ := ih member
        exact ⟨left, by simp [inside], there⟩

theorem exists_getElem?_of_forall₂ {α β : Type} {related : α → β → Prop}
    {first : List α} {second : List β} {index : Nat} {left : α}
    (h : List.Forall₂ related first second)
    (found : first[index]? = some left) :
    ∃ right, second[index]? = some right ∧ related left right := by
  induction h generalizing index with
  | nil => simp at found
  | cons here _ ih =>
      cases index with
      | zero =>
          cases found
          exact ⟨_, rfl, here⟩
      | succ index => exact ih found

/-! ## Searching -/

theorem find?_of_nodup {α : Type} (name : α → String) {values : List α}
    {value : α} (distinct : (values.map name).Nodup)
    (member : value ∈ values) :
    values.find? (name · = name value) = some value := by
  induction values with
  | nil => simp at member
  | cons first rest ih =>
      rw [List.map_cons, List.nodup_cons] at distinct
      rcases List.mem_cons.mp member with rfl | member
      · simp
      · have other : name first ≠ name value := fun same =>
          distinct.1 (same ▸ List.mem_map_of_mem member)
        rw [List.find?_cons_of_neg (by simpa using other),
          ih distinct.2 member]

theorem exists_of_filterMap {α β : Type} {values : List α} {pick : α → Option β}
    {place : Nat} {picked : β}
    (h : (values.filterMap pick)[place]? = some picked) :
    ∃ index value, values[index]? = some value ∧ pick value = some picked ∧
      ((values.take index).filterMap pick).length = place := by
  induction values generalizing place with
  | nil => simp at h
  | cons value values ih =>
      cases here : pick value with
      | none =>
          obtain ⟨index, found, fetch, isPicked, before⟩ :=
            ih (by simpa [here] using h)
          exact ⟨index + 1, found, fetch, isPicked,
            by simpa [here] using before⟩
      | some first =>
          cases place with
          | zero =>
              obtain rfl : first = picked := by simpa [here] using h
              exact ⟨0, value, rfl, here, rfl⟩
          | succ place =>
              obtain ⟨index, found, fetch, isPicked, before⟩ :=
                ih (by simpa [here] using h)
              exact ⟨index + 1, found, fetch, isPicked,
                by simpa [here] using before⟩

/-! ## Marks -/

theorem takeWhile_ne_append {mark : Char} {front rest : List Char}
    (h : mark ∉ front) :
    (front ++ mark :: rest).takeWhile (· ≠ mark) = front := by
  rw [List.takeWhile_append_of_pos, List.takeWhile_cons_of_neg,
    List.append_nil]
  · simp
  · exact fun char member => by simpa using ne_of_mem_of_not_mem member h

theorem dropWhile_ne_append {mark : Char} {front rest : List Char}
    (h : mark ∉ front) :
    (front ++ mark :: rest).dropWhile (· ≠ mark) = mark :: rest := by
  rw [List.dropWhile_append_of_pos, List.dropWhile_cons_of_neg]
  · simp
  · exact fun char member => by simpa using ne_of_mem_of_not_mem member h

theorem eq_of_dropWhile_ne {mark char : Char} {chars rest : List Char}
    (h : chars.dropWhile (· ≠ mark) = char :: rest) : char = mark := by
  have first := List.head?_dropWhile_not (· ≠ mark) chars
  rw [h] at first
  simpa using first

end JavaMinus
