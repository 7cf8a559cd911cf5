import JavaMinus.Proofs.Emission.Kinds

/-!
# Kinds on the way through a method

While a method is emitted, each of its lines can be given the kinds on the
stack when control arrives there.  If these fit one another, then no run meets
any others.
-/

namespace JavaMinus.Jvm

open Ir (Registers)

/-! ## Stops -/

structure Stop where
  stack : List Kind
  after : List Kind
  line : Line

def Stop.Runs (stop : Stop) : Prop :=
  ∃ popped pushed rest, stop.line.Takes popped pushed ∧
    stop.stack = popped ++ rest ∧ stop.after = pushed ++ rest

def Stop.Falls (stop next : Stop) : Prop :=
  stop.line.continues = true → next.stack = stop.after

theorem Stop.Runs.label {stop : Stop} {name : String} (h : stop.Runs)
    (isLabel : stop.line = .label name) : stop.stack = stop.after := by
  obtain ⟨popped, pushed, rest, takes, before, after⟩ := h
  rw [isLabel] at takes
  cases takes
  rw [before, after]

/--
The kinds fit one another along all ways through the lines, and the last line
leaves the given ones.  Outside comparisons the stack is empty wherever control
may jump to.
-/
structure Stops (returnTy : Ty) (slotted : Nat → Kind → Prop)
    (stops : List Stop) (stack : List Kind) (comparisons : Nat) : Prop where
  runs : ∀ stop ∈ stops, stop.Runs
  starts : ∀ stop, stops.head? = some stop → stop.stack = []
  ends : stack = (stops.getLast?.map Stop.after).getD []
  falls : stops.IsChain Stop.Falls
  jumps : ∀ stop ∈ stops, ∀ goal ∈ stops, ∀ name,
    stop.line.target? = some name → goal.line = .label name →
    goal.stack = stop.after
  returns : ∀ stop ∈ stops, stop.line.isReturn = true →
    stop.line = .plain (returnOp returnTy) ∧
      stop.stack = returnTy.result?.toList
  named : ∀ stop ∈ stops, ∀ name, stop.line.name? = some name →
    (∃ number < comparisons, IsComparison number name) ∨
      stop.after = [] ∧ ∀ number, ¬ IsComparison number name
  slots : ∀ stop ∈ stops, ∀ index kind,
    stop.line.slotKind? = some (index, kind) → slotted index kind

namespace Stops

variable {returnTy : Ty} {slotted slotted' : Nat → Kind → Prop}
  {stops : List Stop} {stack : List Kind} {comparisons : Nat} {line : Line}

theorem nil : Stops returnTy slotted [] [] 0 :=
  ⟨by simp, by simp, rfl, .nil, by simp, by simp, by simp, by simp⟩

theorem mono (h : Stops returnTy slotted stops stack comparisons)
    (more : ∀ index kind, slotted index kind → slotted' index kind) :
    Stops returnTy slotted' stops stack comparisons :=
  ⟨h.runs, h.starts, h.ends, h.falls, h.jumps, h.returns, h.named,
    fun stop member index kind uses =>
      more index kind (h.slots stop member index kind uses)⟩

theorem after_getLast {stop : Stop}
    (h : Stops returnTy slotted stops stack comparisons)
    (isLast : stops.getLast? = some stop) : stack = stop.after := by
  simpa [isLast] using h.ends

theorem empty (h : Stops returnTy slotted stops stack comparisons)
    {stop : Stop} {name : String} (member : stop ∈ stops)
    (named : stop.line.name? = some name)
    (other : ∀ number, ¬ IsComparison number name) : stop.after = [] := by
  rcases h.named stop member name named with ⟨number, _, isComparison⟩ | apart
  · exact absurd isComparison (other number)
  · exact apart.1

theorem starts_append {more : List Stop}
    (h : Stops returnTy slotted stops stack comparisons)
    (first : ∀ stop, more.head? = some stop → stop.stack = stack) :
    ∀ stop, (stops ++ more).head? = some stop → stop.stack = [] := by
  intro stop isFirst
  cases stops with
  | nil => rw [first stop isFirst, h.ends]; rfl
  | cons head rest => exact h.starts stop isFirst

theorem falls_append {more : List Stop}
    (h : Stops returnTy slotted stops stack comparisons)
    (falls : more.IsChain Stop.Falls)
    (first : ∀ stop, more.head? = some stop → stop.stack = stack) :
    (stops ++ more).IsChain Stop.Falls := by
  refine List.isChain_append.mpr ⟨h.falls, falls, ?_⟩
  intro last isLast next isNext _
  rw [first next isNext, h.after_getLast isLast]

theorem snoc {popped pushed rest : List Kind}
    (h : Stops returnTy slotted stops (popped ++ rest) comparisons)
    (takes : line.Takes popped pushed)
    (apart : ∀ name, line.name? = some name → pushed ++ rest = [] ∧
      ∀ number, ¬ IsComparison number name)
    (returns : line.isReturn = true → line = .plain (returnOp returnTy) ∧
      popped ++ rest = returnTy.result?.toList)
    (slots : ∀ index kind, line.slotKind? = some (index, kind) →
      slotted index kind) :
    Stops returnTy slotted
      (stops ++ [⟨popped ++ rest, pushed ++ rest, line⟩]) (pushed ++ rest)
      comparisons := by
  have runs : Stop.Runs ⟨popped ++ rest, pushed ++ rest, line⟩ :=
    ⟨popped, pushed, rest, takes, rfl, rfl⟩
  constructor
  · simp only [List.mem_append, List.mem_singleton]
    rintro stop (member | rfl)
    · exact h.runs stop member
    · exact runs
  · exact h.starts_append (by simp)
  · simp
  · exact h.falls_append (.singleton _) (by simp)
  · simp only [List.mem_append, List.mem_singleton]
    rintro stop (member | rfl) goal (member' | rfl) name target isGoal
    -- A jump and its goal are added apart, but both find an empty stack.
    · exact h.jumps stop member goal member' name target isGoal
    · have isLabel : line = .label name := isGoal
      obtain ⟨isEmpty, other⟩ := apart name (by rw [isLabel]; rfl)
      rw [runs.label isGoal, isEmpty,
        h.empty member (Line.name?_of_target? target) other]
    · obtain ⟨isEmpty, other⟩ := apart name (Line.name?_of_target? target)
      rw [(h.runs goal member').label isGoal, isEmpty,
        h.empty member' (by rw [isGoal]; rfl) other]
    · rw [isGoal] at target
      cases target
  · simp only [List.mem_append, List.mem_singleton]
    rintro stop (member | rfl) isReturn
    · exact h.returns stop member isReturn
    · exact returns isReturn
  · simp only [List.mem_append, List.mem_singleton]
    rintro stop (member | rfl) name named
    · exact h.named stop member name named
    · exact .inr (apart name named)
  · simp only [List.mem_append, List.mem_singleton]
    rintro stop (member | rfl) index kind uses
    · exact h.slots stop member index kind uses
    · exact slots index kind uses

end Stops

/-! ## Comparisons -/

def comparisonStops (test : Test) (number : Nat) (base : List Kind) :
    List Stop := [
  ⟨.int :: .int :: base, .int :: base, .plain .isub⟩,
  ⟨.int :: base, base,
    .apply (.branchIf test) (.label ("cmp_true_" ++ toString number))⟩,
  ⟨base, .int :: base, .plain (.truth false)⟩,
  ⟨.int :: base, .int :: base,
    .apply .goto (.label ("cmp_end_" ++ toString number))⟩,
  ⟨base, base, .label ("cmp_true_" ++ toString number)⟩,
  ⟨base, .int :: base, .plain (.truth true)⟩,
  ⟨.int :: base, .int :: base, .label ("cmp_end_" ++ toString number)⟩]

section Comparisons

variable {test : Test} {number : Nat} {base : List Kind} {stop goal : Stop}
  {name : String}

theorem map_line_comparisonStops :
    (comparisonStops test number base).map Stop.line =
      comparisonLines test number := rfl

theorem comparisonStops_runs
    (member : stop ∈ comparisonStops test number base) : stop.Runs := by
  simp only [comparisonStops, List.mem_cons, List.not_mem_nil, or_false]
    at member
  rcases member with rfl | rfl | rfl | rfl | rfl | rfl | rfl
  · exact ⟨[.int, .int], [.int], base, .plain rfl, rfl, rfl⟩
  · exact ⟨[.int], [], base, .apply rfl, rfl, rfl⟩
  · exact ⟨[], [.int], base, .plain rfl, rfl, rfl⟩
  · exact ⟨[], [], .int :: base, .apply rfl, rfl, rfl⟩
  · exact ⟨[], [], base, .label _, rfl, rfl⟩
  · exact ⟨[], [.int], base, .plain rfl, rfl, rfl⟩
  · exact ⟨[], [], .int :: base, .label _, rfl, rfl⟩

theorem comparisonStops_falls :
    (comparisonStops test number base).IsChain Stop.Falls := by
  simp [comparisonStops, Stop.Falls, Line.continues]

theorem comparisonStops_jumps
    (member : stop ∈ comparisonStops test number base)
    (member' : goal ∈ comparisonStops test number base)
    (target : stop.line.target? = some name)
    (isGoal : goal.line = .label name) : goal.stack = stop.after := by
  have apart := endLabel_ne_trueLabel number
  simp only [comparisonStops] at member member'
  -- Of the labels it matters only that they are not the same.
  generalize "cmp_true_" ++ toString number = trueLabel
    at apart member member'
  generalize "cmp_end_" ++ toString number = endLabel
    at apart member member'
  simp only [List.mem_cons, List.not_mem_nil, or_false] at member member'
  rcases member with rfl | rfl | rfl | rfl | rfl | rfl | rfl <;>
    simp only [Line.target?, Option.some.injEq, reduceCtorEq] at target <;>
    rcases member' with rfl | rfl | rfl | rfl | rfl | rfl | rfl <;>
    simp_all

theorem comparisonStops_plain
    (member : stop ∈ comparisonStops test number base) :
    stop.line.isReturn = false ∧ stop.line.slotKind? = none ∧
      ∀ name, stop.line.name? = some name → IsComparison number name := by
  simp only [comparisonStops, List.mem_cons, List.not_mem_nil, or_false]
    at member
  rcases member with rfl | rfl | rfl | rfl | rfl | rfl | rfl <;>
    simp [Line.isReturn, Line.slotKind?, Line.name?, Line.target?,
      IsComparison, Opcode.truth]

end Comparisons

/-- The labels of a comparison are new, so that only its own jumps use them. -/
theorem Stops.compared {returnTy : Ty} {slotted : Nat → Kind → Prop}
    {stops : List Stop} {base : List Kind} {comparisons : Nat}
    (h : Stops returnTy slotted stops (.int :: .int :: base) comparisons)
    (test : Test) :
    Stops returnTy slotted (stops ++ comparisonStops test comparisons base)
      (.int :: base) (comparisons + 1) := by
  have isNew {stop : Stop} {name : String} (member : stop ∈ stops)
      (named : stop.line.name? = some name)
      (isComparison : IsComparison comparisons name) : False := by
    rcases h.named stop member name named with
      ⟨number, earlier, isOther⟩ | ⟨_, other⟩
    · have := isComparison.numbered.unique isOther.numbered
      omega
    · exact other _ isComparison
  have first : ∀ stop,
      (comparisonStops test comparisons base).head? = some stop →
      stop.stack = .int :: .int :: base := by
    simp [comparisonStops]
  constructor
  · simp only [List.mem_append]
    rintro stop (member | member)
    · exact h.runs stop member
    · exact comparisonStops_runs member
  · exact h.starts_append first
  · simp [comparisonStops]
  · exact h.falls_append comparisonStops_falls first
  · simp only [List.mem_append]
    rintro stop (member | member) goal (member' | member') name target isGoal
    · exact h.jumps stop member goal member' name target isGoal
    · exact (isNew member (Line.name?_of_target? target)
        ((comparisonStops_plain member').2.2 name (by rw [isGoal]; rfl))).elim
    · exact (isNew member' (by rw [isGoal]; rfl)
        ((comparisonStops_plain member).2.2 name
          (Line.name?_of_target? target))).elim
    · exact comparisonStops_jumps member member' target isGoal
  · simp only [List.mem_append]
    rintro stop (member | member) isReturn
    · exact h.returns stop member isReturn
    · simp [(comparisonStops_plain member).1] at isReturn
  · simp only [List.mem_append]
    rintro stop (member | member) name named
    · refine (h.named stop member name named).imp_left ?_
      rintro ⟨number, earlier, isComparison⟩
      exact ⟨number, Nat.lt_succ_of_lt earlier, isComparison⟩
    · exact .inl ⟨comparisons, Nat.lt_succ_self _,
        (comparisonStops_plain member).2.2 name named⟩
  · simp only [List.mem_append]
    rintro stop (member | member) index kind uses
    · exact h.slots stop member index kind uses
    · simp [(comparisonStops_plain member).2.1] at uses

/-! ## Runs -/

namespace Stops

variable {returnTy : Ty} {slotted : Nat → Kind → Prop} {stops : List Stop}
  {stack : List Kind} {comparisons : Nat}

def arrival (stops : List Stop) (stack : List Kind) (position : Nat) :
    List Kind :=
  (stops[position]?.map Stop.stack).getD stack

theorem getElem?_line {position : Nat} {line : Line}
    (fetch : (stops.map Stop.line)[position]? = some line) :
    ∃ stop, stops[position]? = some stop ∧ stop.line = line := by
  rw [List.getElem?_map] at fetch
  exact Option.map_eq_some_iff.mp fetch

theorem flow (h : Stops returnTy slotted stops stack comparisons)
    {position next : Nat} {stop : Stop}
    (here : stops[position]? = some stop)
    (flows : Flows (stops.map Stop.line) position next) :
    arrival stops stack next = stop.after := by
  cases flows with
  | next fetch continues =>
      obtain ⟨_, here', rfl⟩ := getElem?_line fetch
      rw [here] at here'
      cases here'
      rw [arrival]
      cases there : stops[position + 1]? with
      | none =>
          have isLast : stops.getLast? = some stop := by
            rw [List.getLast?_eq_getElem?]
            obtain ⟨bound, _⟩ := List.getElem?_eq_some_iff.mp here
            have past := List.getElem?_eq_none_iff.mp there
            rw [show stops.length - 1 = position by omega]
            exact here
          exact h.after_getLast isLast
      | some following =>
          obtain ⟨bound, rfl⟩ := List.getElem?_eq_some_iff.mp there
          obtain ⟨_, rfl⟩ := List.getElem?_eq_some_iff.mp here
          exact List.isChain_iff_getElem.mp h.falls position bound continues
  | jump fetch target isGoal =>
      obtain ⟨_, here', rfl⟩ := getElem?_line fetch
      rw [here] at here'
      cases here'
      obtain ⟨goal, there, isLabel⟩ := getElem?_line isGoal
      rw [arrival, there]
      exact h.jumps stop (List.mem_of_getElem? here) goal
        (List.mem_of_getElem? there) _ target isLabel

structure Meets (slotted : Nat → Kind → Prop) (stops : List Stop)
    (stack : List Kind) (shape : Shape) : Prop where
  stack : shape.stack = arrival stops stack shape.pc
  slots : ∀ index kind, shape.slots index = some kind → slotted index kind

theorem step (h : Stops returnTy slotted stops stack comparisons)
    {shape shape' : Shape} (meets : Meets slotted stops stack shape)
    (steps : shape.Steps (stops.map Stop.line) shape') :
    Meets slotted stops stack shape' := by
  obtain ⟨fetch, accepts, flows⟩ := steps
  obtain ⟨stop, here, rfl⟩ := getElem?_line fetch
  obtain ⟨popped, pushed, rest, takes, before, after⟩ :=
    h.runs stop (List.mem_of_getElem? here)
  constructor
  · have same := meets.stack
    rw [arrival, here, Option.map_some, Option.getD_some, accepts.stack,
      before] at same
    rw [h.flow here flows, after]
    exact accepts.takes.unique takes same
  · -- A line writes only the kind that its slot has anyway.
    intro index kind known
    rcases SlotKinds.after_eq_some known with known | uses
    · exact meets.slots index kind known
    · exact h.slots stop (List.mem_of_getElem? here) index kind uses

theorem reaches (h : Stops returnTy slotted stops stack comparisons)
    {shape shape' : Shape} (meets : Meets slotted stops stack shape)
    (reaches : shape.Reaches (stops.map Stop.line) shape') :
    Meets slotted stops stack shape' := by
  induction reaches with
  | refl => exact meets
  | tail _ steps ih => exact h.step ih steps

theorem entry (h : Stops returnTy slotted stops stack comparisons)
    {isStatic : Bool} {params : List Ty}
    (placed : ∀ index kind, (Shape.entry isStatic params).slots index =
      some kind → slotted index kind) :
    Meets slotted stops stack (.entry isStatic params) := by
  refine ⟨?_, placed⟩
  change [] = arrival stops stack 0
  cases stops with
  | nil => simpa [arrival] using h.ends.symm
  | cons stop rest => exact (h.starts stop rfl).symm

/-- A method whose lines fit one another in this way is run without fault. -/
theorem kindCorrect (h : Stops returnTy slotted stops stack comparisons)
    (unique : ∀ index kind kind', slotted index kind →
      slotted index kind' → kind = kind')
    {method : Method} {params : List Ty}
    (lines : method.lines = stops.map Stop.line)
    (spells : SpellsMethod method.descriptor params returnTy)
    (placed : ∀ index kind, (Shape.entry method.isStatic params).slots index =
      some kind → slotted index kind) :
    method.KindCorrect method.isStatic params returnTy := by
  have meets {shape : Shape}
      (reaches : (Shape.entry method.isStatic params).Reaches method.lines
        shape) : Meets slotted stops stack shape :=
    h.reaches (h.entry placed) (lines ▸ reaches)
  have here {shape : Shape} {stop : Stop}
      (known : Meets slotted stops stack shape)
      (found : stops[shape.pc]? = some stop) : shape.stack = stop.stack := by
    simpa [arrival, found] using known.stack
  constructor
  · exact ⟨rfl, spells⟩
  · intro shape line reaches fetch
    rw [lines] at fetch
    obtain ⟨stop, found, rfl⟩ := getElem?_line fetch
    have member := List.mem_of_getElem? found
    obtain ⟨popped, pushed, rest, takes, before, _⟩ := h.runs stop member
    refine ⟨popped, pushed, rest, takes, (here (meets reaches) found).trans
      before, fun index kind uses _ => ?_⟩
    cases known : shape.slots index with
    | none => exact .inl rfl
    | some kind' =>
        rw [unique index kind' kind ((meets reaches).slots index kind' known)
          (h.slots stop member index kind uses)]
        exact .inr rfl
  · intro shape line reaches fetch isReturn
    rw [lines] at fetch
    obtain ⟨stop, found, rfl⟩ := getElem?_line fetch
    rw [here (meets reaches) found]
    exact h.returns stop (List.mem_of_getElem? found) isReturn
  · intro shape shape' reaches reaches' samePlace
    refine ⟨?_, fun index kind kind' known known' => ?_⟩
    · rw [(meets reaches).stack, (meets reaches').stack, samePlace]
    · exact unique index kind kind' ((meets reaches).slots index kind known)
        ((meets reaches').slots index kind' known')

end Stops

end JavaMinus.Jvm
