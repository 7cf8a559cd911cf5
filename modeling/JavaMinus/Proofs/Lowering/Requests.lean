import JavaMinus.Proofs.Lowering.Names
import Mathlib.Data.Finset.Card

/-!
# Sequences of requests for names

A supply is asked for temporaries and labels in any order, and other names may
be reserved in between.  Its two counters never go back, so a temporary is not
drawn twice whatever is reserved or released meanwhile.  A label is its stem
followed by its number, with nothing between them.  Two labels are therefore
one text where the stem of the earlier ends with the digits that the later
number has in front of the earlier one, and in no other case.
-/

namespace JavaMinus.Supply

/-! ## The search for a temporary -/

/--
One round of the search: the next number is used up, and its name is the
result unless it is reserved.
-/
def tryNext (supply : Supply) : Option String × Supply :=
  (if supply.reserved.contains (tempName supply.nextTemp) then none
    else some (tempName supply.nextTemp),
    { supply with nextTemp := supply.nextTemp + 1 })

/-- The search has its result in the last of so many rounds. -/
inductive Searches : Supply → Nat → String → Supply → Prop where
  | found {supply after : Supply} {name : String}
      (h : supply.tryNext = (some name, after)) :
      Searches supply 1 name after
  | passed {supply mid after : Supply} {rounds : Nat} {name : String}
      (h : supply.tryNext = (none, mid))
      (rest : Searches mid rounds name after) :
      Searches supply (rounds + 1) name after

theorem searches_gap {supply : Supply} {gap : Nat}
    (taken : ∀ offset < gap,
      tempName (supply.nextTemp + offset) ∈ supply.reserved)
    (free : tempName (supply.nextTemp + gap) ∉ supply.reserved) :
    Searches supply (gap + 1) (tempName (supply.nextTemp + gap))
      { supply with nextTemp := supply.nextTemp + gap + 1 } := by
  induction gap generalizing supply with
  | zero => exact .found (by simpa [tryNext] using free)
  | succ gap ih =>
      have first : supply.tryNext =
          (none, { supply with nextTemp := supply.nextTemp + 1 }) := by
        simpa [tryNext] using taken 0 (by omega)
      have shift (offset : Nat) : supply.nextTemp + 1 + offset =
          supply.nextTemp + (offset + 1) := by omega
      have rest := @ih { supply with nextTemp := supply.nextTemp + 1 }
        (fun offset small => by
          simpa only [shift] using taken (offset + 1) (by omega))
        (by simpa only [shift] using free)
      simp only [shift] at rest
      exact .passed first rest

/-- A gap of reserved names is no longer than there are reserved names. -/
theorem gap_le_card {reserved : List String} {start gap : Nat}
    (taken : ∀ offset < gap, tempName (start + offset) ∈ reserved) :
    gap ≤ reserved.toFinset.card := by
  have injective :
      Function.Injective fun offset => tempName (start + offset) := by
    intro first second same
    have := tempName_injective same
    omega
  have inside : (Finset.range gap).image (fun offset =>
      tempName (start + offset)) ⊆ reserved.toFinset := by
    intro name member
    obtain ⟨offset, small, rfl⟩ := Finset.mem_image.mp member
    exact List.mem_toFinset.mpr (taken offset (Finset.mem_range.mp small))
  calc gap = ((Finset.range gap).image fun offset =>
        tempName (start + offset)).card := by
          rw [Finset.card_image_of_injective _ injective, Finset.card_range]
    _ ≤ reserved.toFinset.card := Finset.card_le_card inside

theorem freshTemp_searches (supply : Supply) :
    ∃ rounds ≤ supply.reserved.toFinset.card + 1,
      supply.Searches rounds supply.freshTemp.1 supply.freshTemp.2 := by
  obtain ⟨gap, here⟩ := Nat.exists_eq_add_of_le
    (le_firstFree supply.reserved supply.reserved.length supply.nextTemp)
  have taken : ∀ offset < gap,
      tempName (supply.nextTemp + offset) ∈ supply.reserved :=
    fun offset small => mem_of_lt_firstFree (Nat.le_add_right _ _)
      (here ▸ Nat.add_lt_add_left small _)
  have free : tempName (supply.nextTemp + gap) ∉ supply.reserved := by
    rw [← here]
    exact firstFree_not_mem supply.reserved supply.reserved.length
      supply.nextTemp supply.reserved (Nat.le_refl _) fun _ _ => id
  refine ⟨gap + 1, Nat.succ_le_succ (gap_le_card taken), ?_⟩
  rw [freshTemp, here]
  exact searches_gap taken free

/-! ## Requests -/

inductive Request where
  | reserve (names : List String)
  | tempName
  | temp (ty : Ty)
  | label (stem : String)
  deriving DecidableEq

inductive Answer where
  | done
  | tempName (name : String)
  | temp (operand : Ir.Operand)
  | label (name : String)
  | refused (cause : Breach)

def Request.reserves? : Request → Option (List String)
  | .reserve names => some names
  | .tempName | .temp _ | .label _ => none

/-- The names of the last request to reserve some, or those from before. -/
def reservedBy (reserved : List String) (requests : List Request) :
    List String :=
  (requests.filterMap Request.reserves?).getLastD reserved

namespace Answer

def drawnTemp? : Answer → Option String
  | .tempName name => some name
  | .temp operand => operand.varName?
  | .done | .label _ | .refused _ => none

def drawnLabel? : Answer → Option String
  | .label name => some name
  | .done | .tempName _ | .temp _ | .refused _ => none

end Answer

def answer (supply : Supply) : Request → Answer × Supply
  | .reserve names => (.done, supply.reserve names)
  | .tempName => (.tempName supply.freshTemp.1, supply.freshTemp.2)
  | .temp ty =>
      match Lower.temp ty supply with
      | .ok operand after => (.temp operand, after)
      | .error cause after => (.refused cause, after)
  | .label stem =>
      (.label (supply.freshLabel stem).1, (supply.freshLabel stem).2)

structure Step where
  before : Supply
  request : Request
  answer : Answer
  after : Supply

/-- Requests answered one after the other, also after one that was refused. -/
def serve (supply : Supply) : List Request → List Step
  | [] => []
  | request :: rest =>
      { before := supply, request
        answer := (supply.answer request).1
        after := (supply.answer request).2 } ::
        (supply.answer request).2.serve rest

theorem answer_temp_cases (supply : Supply) (ty : Ty) :
    (ty = .vararg ∧
      supply.answer (.temp ty) = (.refused .escapedVararg, supply)) ∨
    supply.answer (.temp ty) =
      (.temp (.var supply.freshTemp.1 ty), supply.freshTemp.2) := by
  cases ty with
  | vararg => exact .inl ⟨rfl, rfl⟩
  | _ => exact .inr rfl

theorem answer_cases (supply : Supply) (request : Request) :
    ((supply.answer request).1.drawnTemp? = some supply.freshTemp.1 ∧
      (supply.answer request).2 = supply.freshTemp.2) ∨
    ((supply.answer request).1.drawnTemp? = none ∧
      ((∃ names, request = .reserve names) ∨
        (∃ stem, request = .label stem) ∨
        request = .temp .vararg ∧
          supply.answer request = (.refused .escapedVararg, supply))) := by
  cases request with
  | reserve names => exact .inr ⟨rfl, .inl ⟨names, rfl⟩⟩
  | tempName => exact .inl ⟨rfl, rfl⟩
  | temp ty =>
      rcases supply.answer_temp_cases ty with ⟨rfl, refused⟩ | draws
      · exact .inr ⟨rfl, .inr (.inr ⟨rfl, refused⟩)⟩
      · rw [draws]
        exact .inl ⟨rfl, rfl⟩
  | label stem => exact .inr ⟨rfl, .inr (.inl ⟨stem, rfl⟩)⟩

structure Precedes (earlier later : Supply) : Prop where
  temp : earlier.nextTemp ≤ later.nextTemp
  label : earlier.nextLabel ≤ later.nextLabel

theorem Precedes.trans {first second third : Supply}
    (h : Precedes first second) (h' : Precedes second third) :
    Precedes first third :=
  ⟨Nat.le_trans h.temp h'.temp, Nat.le_trans h.label h'.label⟩

theorem answer_precedes (supply : Supply) (request : Request) :
    Precedes supply (supply.answer request).2 := by
  have drawn := (freshTemp_drawn supply).toExtends
  cases request with
  | reserve names => exact ⟨Nat.le_refl _, Nat.le_refl _⟩
  | tempName => exact ⟨drawn.temp, drawn.label⟩
  | temp ty =>
      rcases supply.answer_temp_cases ty with ⟨_, refused⟩ | draws
      · rw [refused]
        exact ⟨Nat.le_refl _, Nat.le_refl _⟩
      · rw [draws]
        exact ⟨drawn.temp, drawn.label⟩
  | label stem => exact ⟨Nat.le_refl _, Nat.le_succ _⟩

/-! ## Runs -/

theorem mem_serve {supply : Supply} {requests : List Request} {step : Step}
    (h : step ∈ supply.serve requests) :
    Precedes supply step.before ∧ step.request ∈ requests ∧
      step.answer = (step.before.answer step.request).1 ∧
      step.after = (step.before.answer step.request).2 := by
  induction requests generalizing supply with
  | nil => cases h
  | cons request rest ih =>
      rw [serve, List.mem_cons] at h
      rcases h with rfl | later
      · exact ⟨⟨Nat.le_refl _, Nat.le_refl _⟩, by simp, rfl, rfl⟩
      · obtain ⟨follows, member, same, left⟩ := ih later
        exact ⟨(answer_precedes supply request).trans follows,
          by simp [member], same, left⟩

theorem map_request_serve (supply : Supply) (requests : List Request) :
    (supply.serve requests).map Step.request = requests := by
  induction requests generalizing supply with
  | nil => rfl
  | cons request rest ih => rw [serve, List.map_cons, ih]

theorem reserved_answer (supply : Supply) (request : Request) :
    (supply.answer request).2.reserved =
      request.reserves?.getD supply.reserved := by
  cases request with
  | reserve names | tempName | label stem => rfl
  | temp ty =>
      rcases supply.answer_temp_cases ty with ⟨_, refused⟩ | draws
      · rw [refused]
        rfl
      · rw [draws]
        rfl

theorem reservedBy_cons (reserved : List String) (request : Request)
    (rest : List Request) :
    reservedBy reserved (request :: rest) =
      reservedBy (request.reserves?.getD reserved) rest := by
  cases request with
  | reserve names => exact List.getLastD_cons
  | tempName | temp ty | label stem => rfl

theorem reserved_of_serve {supply : Supply} {requests : List Request}
    {index : Nat} {step : Step}
    (h : (supply.serve requests)[index]? = some step) :
    step.before.reserved =
      reservedBy supply.reserved (requests.take index) := by
  induction requests generalizing supply index with
  | nil => simp [serve] at h
  | cons request rest ih =>
      cases index with
      | zero =>
          simp only [serve, List.getElem?_cons_zero, Option.some.injEq] at h
          subst h
          rfl
      | succ index =>
          rw [serve, List.getElem?_cons_succ] at h
          rw [ih h, List.take_succ_cons, reservedBy_cons, reserved_answer]

theorem serve_pairwise (supply : Supply) (requests : List Request) :
    (supply.serve requests).Pairwise fun first second =>
      Precedes first.after second.before := by
  induction requests generalizing supply with
  | nil => exact .nil
  | cons request rest ih =>
      exact .cons (fun step later => (mem_serve later).1)
        (ih (supply.answer request).2)

theorem number_of_drawnTemp {supply : Supply} {requests : List Request}
    {step : Step} (h : step ∈ supply.serve requests) {name : String}
    (drawn : step.answer.drawnTemp? = some name) :
    ∃ number, name = tempName number ∧ step.before.nextTemp ≤ number ∧
      number < step.after.nextTemp := by
  obtain ⟨_, _, same, left⟩ := mem_serve h
  rw [same] at drawn
  rcases answer_cases step.before step.request with
    ⟨isFresh, after⟩ | ⟨none, _⟩
  · rw [isFresh, Option.some.injEq] at drawn
    refine ⟨_, drawn.symm, le_firstFree _ _ _, ?_⟩
    rw [left, after]
    exact Nat.lt_succ_self _
  · rw [none] at drawn
    cases drawn

theorem serve_nodup_temps (supply : Supply) (requests : List Request) :
    ((supply.serve requests).filterMap (·.answer.drawnTemp?)).Nodup := by
  refine List.pairwise_filterMap.mpr
    ((serve_pairwise supply requests).imp_of_mem ?_)
  rintro first second isFirst isSecond follows name drawn _ drawn' rfl
  obtain ⟨number, rfl, _, below⟩ := number_of_drawnTemp isFirst drawn
  obtain ⟨number', same, above, _⟩ := number_of_drawnTemp isSecond drawn'
  have := tempName_injective same
  have := follows.temp
  omega

/--
Whatever a supply is asked, in whatever order: every request is answered.  A
temporary that is drawn is found in at most one round more than there are
reserved names, it is none of these, and it is drawn once; reserved are the
names of the last request to reserve some.  A temporary is refused for a
vararg only, and then nothing changes.
-/
theorem serve_draws_fresh (supply : Supply) (requests : List Request) :
    (supply.serve requests).map Step.request = requests ∧
    (∀ index step, (supply.serve requests)[index]? = some step →
      step.before.reserved =
        reservedBy supply.reserved (requests.take index) ∧
      (∀ name, step.answer.drawnTemp? = some name →
        name ∉ step.before.reserved ∧
          ∃ rounds ≤ step.before.reserved.toFinset.card + 1,
            step.before.Searches rounds name step.after) ∧
      (step.answer.drawnTemp? = none →
        (∃ names, step.request = .reserve names) ∨
        (∃ stem, step.request = .label stem) ∨
        step.request = .temp .vararg ∧
          step.answer = .refused .escapedVararg ∧
          step.after = step.before)) ∧
    ((supply.serve requests).filterMap (·.answer.drawnTemp?)).Nodup := by
  refine ⟨map_request_serve supply requests, fun index step here => ?_,
    serve_nodup_temps supply requests⟩
  refine ⟨reserved_of_serve here, ?_⟩
  obtain ⟨_, _, same, left⟩ := mem_serve (List.mem_of_getElem? here)
  rw [same, left]
  rcases answer_cases step.before step.request with
    ⟨isFresh, after⟩ | ⟨none, why⟩
  · rw [isFresh, after]
    refine ⟨?_, nofun⟩
    rintro _ ⟨⟩
    exact ⟨fun reserved => (freshTemp_drawn step.before).isNew (.inl reserved),
      freshTemp_searches step.before⟩
  · rw [none]
    refine ⟨nofun, fun _ => why.imp_right (.imp_right ?_)⟩
    rintro ⟨isVararg, refused⟩
    rw [refused]
    exact ⟨isVararg, rfl, rfl⟩

example : (({} : Supply).serve
    [.reserve ["tmp0", "tmp2", "a"], .tempName, .temp .vararg, .temp .int,
      .reserve [], .tempName]).filterMap (·.answer.drawnTemp?) =
    ["tmp1", "tmp3", "tmp4"] := by decide

/-! ## Labels -/

/-- Digits in front of a number do not make it smaller. -/
theorem le_of_toDigits_eq_append {number number' : Nat} {front : List Char}
    (h : Nat.toDigits 10 number' = front ++ Nat.toDigits 10 number) :
    number ≤ number' := by
  have value := congrArg (Nat.ofDigitChars 10 · 0) h
  simp only [Nat.ofDigitChars_append, Nat.ofDigitChars_ten_toDigits] at value
  rw [value, Nat.ofDigitChars_eq_ofDigitChars_zero,
    Nat.ofDigitChars_ten_toDigits]
  exact Nat.le_add_left _ _

/--
A stem with a number behind it is another stem with a greater number behind it
exactly if what the greater number has in front of the other ends the stem.
-/
theorem append_number_eq_iff {stem stem' : String} {number number' : Nat}
    (less : number < number') :
    stem ++ toString number = stem' ++ toString number' ↔
      ∃ front ≠ "", stem = stem' ++ front ∧
        toString number' = front ++ toString number := by
  have digits (number : Nat) :
      (toString number).toList = Nat.toDigits 10 number := Nat.toList_repr
  constructor
  · intro same
    have chars := congrArg String.toList same
    simp only [String.toList_append, digits] at chars
    rcases List.append_eq_append_iff.mp chars with
      ⟨front, _, fewer⟩ | ⟨front, ends, more⟩
    · have := le_of_toDigits_eq_append fewer
      omega
    · refine ⟨String.ofList front, ?_, ?_, ?_⟩
      · intro blank
        have none : front = [] := by simpa using congrArg String.toList blank
        rw [none, List.nil_append] at more
        have := toDigits_injective more
        omega
      · apply String.toList_injective
        simp [ends]
      · apply String.toList_injective
        simp [more]
  · rintro ⟨front, _, rfl, more⟩
    rw [more, String.append_assoc]

theorem mem_serve_label {supply : Supply} {requests : List Request}
    {step : Step} (h : step ∈ supply.serve requests) {stem : String}
    (asked : step.request = .label stem) :
    step.answer = .label (stem ++ toString step.before.nextLabel) ∧
      step.after.nextLabel = step.before.nextLabel + 1 := by
  obtain ⟨_, _, same, left⟩ := mem_serve h
  rw [same, left, asked]
  exact ⟨rfl, rfl⟩

theorem request_of_drawnLabel {supply : Supply} {requests : List Request}
    {step : Step} (h : step ∈ supply.serve requests) {name : String}
    (drawn : step.answer.drawnLabel? = some name) :
    ∃ stem, .label stem ∈ requests ∧ step.request = .label stem ∧
      name = stem ++ toString step.before.nextLabel := by
  obtain ⟨_, member, same, _⟩ := mem_serve h
  rw [same] at drawn
  cases asked : step.request with
  | label stem =>
      rw [asked] at drawn member
      exact ⟨stem, member, rfl, (Option.some.inj drawn).symm⟩
  | reserve names | tempName =>
      rw [asked] at drawn
      cases drawn
  | temp ty =>
      rw [asked] at drawn
      rcases step.before.answer_temp_cases ty with ⟨_, refused⟩ | draws
      · rw [refused] at drawn
        cases drawn
      · rw [draws] at drawn
        cases drawn

theorem serve_pairwise_labels (supply : Supply) (requests : List Request) :
    (supply.serve requests).Pairwise fun first second =>
      ∀ stem stem', first.request = .label stem →
        second.request = .label stem' →
        first.before.nextLabel < second.before.nextLabel := by
  refine (serve_pairwise supply requests).imp_of_mem ?_
  intro first second isFirst _ follows stem _ asked _
  have := (mem_serve_label isFirst asked).2
  have := follows.label
  omega

/--
Whatever a supply is asked, in whatever order: of two labels, the later is the
earlier again exactly if the stem of the earlier is that of the later with the
digits behind it that the later number has in front of the earlier one.  Hence
no label is drawn twice if no stem ends with a digit.
-/
theorem serve_repeats_label_iff (supply : Supply) (requests : List Request) :
    ((supply.serve requests).Pairwise fun first second =>
      ∀ stem stem', first.request = .label stem →
        second.request = .label stem' →
        (first.answer = second.answer ↔ ∃ front ≠ "",
          stem = stem' ++ front ∧
          toString second.before.nextLabel =
            front ++ toString first.before.nextLabel)) ∧
    ((∀ stem, .label stem ∈ requests → endsPlain stem = true) →
      ((supply.serve requests).filterMap (·.answer.drawnLabel?)).Nodup) := by
  have ordered := serve_pairwise_labels supply requests
  constructor
  · refine ordered.imp_of_mem ?_
    intro first second isFirst isSecond less stem stem' asked asked'
    rw [(mem_serve_label isFirst asked).1, (mem_serve_label isSecond asked').1,
      Answer.label.injEq]
    exact append_number_eq_iff (less stem stem' asked asked')
  · intro plain
    refine List.pairwise_filterMap.mpr (ordered.imp_of_mem ?_)
    rintro first second isFirst isSecond less name drawn _ drawn' rfl
    obtain ⟨stem, member, asked, same⟩ :=
      request_of_drawnLabel isFirst drawn
    obtain ⟨stem', member', asked', same'⟩ :=
      request_of_drawnLabel isSecond drawn'
    have number := Numbered.unique ⟨stem, same, plain stem member⟩
      ⟨stem', same', plain stem' member'⟩
    have := less stem stem' asked asked'
    omega

/-- Ten labels after one whose stem ends with a digit, that label comes again. -/
theorem serve_repeats_label_ten :
    ¬ (((({} : Supply).serve
      ([.label "x1"] ++ List.replicate 9 (.label "y") ++ [.label "x"])).filterMap
        (·.answer.drawnLabel?)).Nodup) := by
  decide

end JavaMinus.Supply
