import JavaMinus.Lowering.Supply
import JavaMinus.Proofs.Actions

/-!
# Drawing names

A temporary is never a name that the supply already keeps: one that is
reserved, or an earlier temporary.  Labels are told apart by their numbers,
since what stands before the number does not end with a digit.
-/

namespace JavaMinus

/-! ## Numbers in names -/

theorem toDigits_injective {first second : Nat}
    (h : Nat.toDigits 10 first = Nat.toDigits 10 second) :
    first = second := by
  have values := congrArg (Nat.ofDigitChars 10 · 0) h
  simpa using values

theorem toString_injective {first second : Nat}
    (h : toString first = toString second) : first = second := by
  have digits := congrArg String.toList h
  exact toDigits_injective (by simpa [Nat.toList_repr] using digits)

/-- Whether the text can be followed by a number without confusion. -/
def endsPlain (stem : String) : Bool :=
  stem.toList.getLast?.all fun char => !char.isDigit

/-- The text ends with the digits of the number and no further digit. -/
def Numbered (number : Nat) (text : String) : Prop :=
  ∃ stem : String, text = stem ++ toString number ∧ endsPlain stem = true

namespace Numbered

private def tail (text : String) : List Char :=
  text.toList.reverse.takeWhile Char.isDigit

private theorem tail_eq {number : Nat} {text : String}
    (h : Numbered number text) :
    tail text = (Nat.toDigits 10 number).reverse := by
  obtain ⟨stem, rfl, plain⟩ := h
  have digits : ∀ char ∈ (Nat.toDigits 10 number).reverse,
      char.isDigit = true := by
    intro char member
    exact Nat.isDigit_of_mem_toDigits (by decide) (by decide)
      (List.mem_reverse.mp member)
  have rest : stem.toList.reverse.takeWhile Char.isDigit = [] := by
    rw [endsPlain, ← List.head?_reverse] at plain
    cases chars : stem.toList.reverse with
    | nil => rfl
    | cons char chars' =>
        rw [chars] at plain
        simpa [List.takeWhile_cons] using plain
  simp only [tail, String.toList_append, List.reverse_append]
  rw [show (toString number).toList = Nat.toDigits 10 number from
      Nat.toList_repr,
    List.takeWhile_append_of_pos digits, rest, List.append_nil]

theorem unique {first second : Nat} {text : String}
    (h : Numbered first text) (h' : Numbered second text) :
    first = second := by
  have digits := (tail_eq h).symm.trans (tail_eq h')
  exact toDigits_injective (List.reverse_inj.mp digits)

end Numbered

def labelStems : List String :=
  ["then", "endif", "whileCond", "whileBody", "whileEnd", "andRight", "andEnd"]

def IsLabel (number : Nat) (text : String) : Prop :=
  ∃ stem ∈ labelStems, text = stem ++ toString number

theorem IsLabel.numbered {number : Nat} {text : String}
    (h : IsLabel number text) : Numbered number text := by
  obtain ⟨stem, member, rfl⟩ := h
  have plain : ∀ stem ∈ labelStems, endsPlain stem = true := by decide
  exact ⟨stem, rfl, plain stem member⟩

namespace Supply

/-! ## Temporaries -/

theorem tempName_injective {first second : Nat}
    (h : tempName first = tempName second) : first = second := by
  have chars := congrArg String.toList h
  simp only [tempName, String.toList_append] at chars
  exact toString_injective (String.toList_injective
    (List.append_cancel_left chars))

theorem tempName_ne_this (number : Nat) : tempName number ≠ "this" := by
  intro same
  have chars := congrArg String.toList same
  simp [tempName] at chars

/-- The names that a new temporary must not take. -/
def Kept (supply : Supply) (name : String) : Prop :=
  name ∈ supply.reserved ∨
    ∃ number < supply.nextTemp, name = tempName number

theorem le_firstFree (reserved : List String) (more start : Nat) :
    start ≤ firstFree reserved more start := by
  induction more generalizing start with
  | zero => exact Nat.le_refl start
  | succ more ih =>
      rw [firstFree]
      split
      · exact Nat.le_of_succ_le (ih (start + 1))
      · exact Nat.le_refl start

theorem mem_of_lt_firstFree {reserved : List String}
    {more start number : Nat} (low : start ≤ number)
    (high : number < firstFree reserved more start) :
    tempName number ∈ reserved := by
  induction more generalizing start with
  | zero =>
      rw [firstFree] at high
      omega
  | succ more ih =>
      rw [firstFree] at high
      split at high
      next taken =>
        rcases Nat.eq_or_lt_of_le low with rfl | later
        · simpa using taken
        · exact ih later high
      next => omega

/--
The search ends at a free name if a list with no more members than the search
has steps covers all the names it could run into.
-/
theorem firstFree_not_mem (reserved : List String) (more start : Nat)
    (cover : List String) (short : cover.length ≤ more)
    (covers : ∀ number, start ≤ number → tempName number ∈ reserved →
      tempName number ∈ cover) :
    tempName (firstFree reserved more start) ∉ reserved := by
  induction more generalizing start cover with
  | zero =>
      intro member
      have := covers start (Nat.le_refl start) member
      simp [List.length_eq_zero_iff.mp (Nat.le_zero.mp short)] at this
  | succ more ih =>
      rw [firstFree]
      split
      next taken =>
        have inCover : tempName start ∈ cover :=
          covers start (Nat.le_refl start) (by simpa using taken)
        apply ih (start + 1) (cover.erase (tempName start))
        · rw [List.length_erase_of_mem inCover]
          omega
        · intro number later member
          rw [List.mem_erase_of_ne]
          · exact covers number (by omega) member
          · intro same
            have := tempName_injective same
            omega
      next free => simpa using free

/-! ## What drawing does to a supply -/

structure Extends (before after : Supply) : Prop where
  reserved : after.reserved = before.reserved
  temp : before.nextTemp ≤ after.nextTemp
  label : before.nextLabel ≤ after.nextLabel

namespace Extends

variable {first second third : Supply}

theorem refl (supply : Supply) : Extends supply supply :=
  ⟨rfl, Nat.le_refl _, Nat.le_refl _⟩

theorem trans (h : Extends first second) (h' : Extends second third) :
    Extends first third where
  reserved := h'.reserved.trans h.reserved
  temp := Nat.le_trans h.temp h'.temp
  label := Nat.le_trans h.label h'.label

theorem kept {name : String} (h : Extends first second)
    (kept : first.Kept name) : second.Kept name := by
  rcases kept with member | ⟨number, small, rfl⟩
  · exact .inl (h.reserved ▸ member)
  · exact .inr ⟨number, Nat.lt_of_lt_of_le small h.temp, rfl⟩

end Extends

structure Drawn (before after : Supply) (name : String) : Prop
    extends Extends before after where
  isNew : ¬ before.Kept name
  kept : after.Kept name

theorem freshTemp_drawn (supply : Supply) :
    Drawn supply supply.freshTemp.2 supply.freshTemp.1 := by
  have lower := le_firstFree supply.reserved supply.reserved.length
    supply.nextTemp
  refine ⟨⟨rfl, ?_, Nat.le_refl _⟩, ?_, ?_⟩
  · exact Nat.le_succ_of_le lower
  · rintro (member | ⟨number, small, same⟩)
    · exact firstFree_not_mem supply.reserved supply.reserved.length
        supply.nextTemp supply.reserved (Nat.le_refl _)
        (fun _ _ member => member) member
    · have : firstFree supply.reserved supply.reserved.length
          supply.nextTemp = number := tempName_injective same
      omega
  · exact .inr ⟨_, Nat.lt_succ_self _, rfl⟩

end Supply

namespace Lower

variable {supply after : Supply}

theorem drawn_of_tempName {ty : Ty} {name : String}
    (h : Lower.tempName ty supply = .ok name after) :
    Supply.Drawn supply after name := by
  obtain ⟨suffix, mid, hsuffix, hname⟩ := Action.bind_eq_ok.mp h
  have same : mid = supply := by
    cases ty with
    | vararg => exact absurd hsuffix Action.throw_ne_ok
    | int | boolean | void | intArray | stringArray =>
        exact (Action.pure_eq_ok.mp hsuffix).2.symm
    | object className => exact (Action.pure_eq_ok.mp hsuffix).2.symm
  subst same
  change EStateM.Result.ok mid.freshTemp.1 mid.freshTemp.2 = _ at hname
  cases hname
  exact Supply.freshTemp_drawn mid

theorem drawn_of_temp {ty : Ty} {operand : Ir.Operand}
    (h : Lower.temp ty supply = .ok operand after) :
    ∃ name, operand = .var name ty ∧ Supply.Drawn supply after name := by
  obtain ⟨name, mid, hname, hvar⟩ := Action.bind_eq_ok.mp h
  obtain ⟨rfl, rfl⟩ := Action.pure_eq_ok.mp hvar
  exact ⟨name, rfl, drawn_of_tempName hname⟩

theorem label_eq {stem name : String}
    (h : Lower.label stem supply = .ok name after) :
    name = stem ++ toString supply.nextLabel ∧
      after = { supply with nextLabel := supply.nextLabel + 1 } := by
  change EStateM.Result.ok (supply.freshLabel stem).1
    (supply.freshLabel stem).2 = _ at h
  cases h
  exact ⟨rfl, rfl⟩

end Lower

end JavaMinus
