import JavaMinus.Proofs.Emission.Operations

/-!
# Runs without overflow

Steps in which the words that are compared have a difference that is a word.
These are the steps that do not change when a comparison of any other words
gets stuck.  Operands only look at the memory, so that it does not matter when
exactly they are read within a step.
-/

namespace JavaMinus

/-! ## Looking at the memory -/

/-- An action that keeps the memory, and whose value depends on nothing else. -/
def Effect.Looks {α : Type} (action : Effect α) : Prop :=
  ∀ ⦃world other value after⦄, action world = .ok value after →
    other.toMemory = world.toMemory →
    after.toMemory = world.toMemory ∧ ∃ after', action other = .ok value after'

namespace Effect.Looks

variable {α β : Type}

theorem pure (value : α) : Looks (pure value) := by
  intro world other result after h same
  obtain ⟨rfl, rfl⟩ := Action.pure_eq_ok.mp h
  exact ⟨rfl, other, rfl⟩

theorem throw (exit : Exit) : Looks (throw exit : Effect α) :=
  fun _ _ _ _ h => absurd h Action.throw_ne_ok

theorem bind {first : Effect α} {second : α → Effect β} (h : Looks first)
    (h' : ∀ value, Looks (second value)) : Looks (first >>= second) := by
  intro world other result after ran same
  obtain ⟨value, mid, ranFirst, ranSecond⟩ := Action.bind_eq_ok.mp ran
  obtain ⟨kept, mid', ranFirst'⟩ := h ranFirst same
  obtain ⟨kept', _⟩ := h ranFirst' rfl
  obtain ⟨kept'', after', ranSecond'⟩ :=
    h' value ranSecond (kept'.trans (same.trans kept.symm))
  exact ⟨kept''.trans kept, after', Action.bind_eq_ok.mpr
    ⟨value, mid', ranFirst', ranSecond'⟩⟩

theorem word (value : Value) : Looks (Effect.word value) := by
  cases value with
  | word value => exact pure value
  | null | array | object => exact throw _

theorem read (vars : Locals) (name : String) :
    Looks (Effect.read vars name) := by
  rw [Effect.read]
  split
  · exact pure _
  · exact throw _

theorem log (event : Event) : Looks (Effect.log event) := by
  intro world other result after h same
  cases h
  exact ⟨rfl, _, rfl⟩

theorem elements (array : Value) : Looks (Effect.elements array) := by
  cases array with
  | array address =>
      intro world other result after h same
      obtain ⟨_, _, got, h⟩ := Action.bind_eq_ok.mp h
      cases got
      have arrays : other.arrays = world.arrays := congrArg Memory.arrays same
      cases found : world.arrays[address]? with
      | none =>
          rw [found] at h
          exact absurd h Action.throw_ne_ok
      | some elements =>
          rw [found] at h
          obtain ⟨rfl, rfl⟩ := Action.pure_eq_ok.mp h
          refine ⟨rfl, other, Action.bind_eq_ok.mpr ⟨other, other, rfl, ?_⟩⟩
          rw [arrays, found]
          rfl
  | word | null | object => exact throw _

theorem load (array position : Value) :
    Looks (Effect.load array position) := by
  refine bind (word position) fun position => ?_
  refine bind (elements array) fun ⟨address, elements⟩ => ?_
  dsimp only
  split
  · exact throw _
  · split
    · exact bind (log _) fun _ => pure _
    · exact throw _

theorem operand (setting : Ir.Setting) (vars : Locals)
    (operand : Ir.Operand) : Looks (operand.read setting vars) := by
  induction operand with
  | literal value ty => exact pure _
  | var name ty => exact read vars name
  | self className => exact pure _
  | element array position ih =>
      exact bind (read vars array) fun _ => bind ih fun _ => load _ _
  | field ref => exact throw _

end Effect.Looks

namespace Ir

/-! ## Exact steps -/

/-- The setting in which comparisons that overflow get stuck. -/
def Setting.exactly (setting : Setting) : Setting :=
  { setting with operate := Effect.operateExactly }

def Instr.ordered? : Instr → Option (Operand × Operand)
  | .assign _ _ value => value.ordered?
  | .binary .lt left right _ | .binary .gt left right _ =>
      some (left, right)
  | _ => none

/-- Words that an instruction puts in order have a word as difference. -/
def Instr.Exact (setting : Setting) (vars : Locals) (world : World)
    (code : Instr) : Prop :=
  ∀ left right first second afterLeft afterRight,
    code.ordered? = some (left, right) →
    left.read setting vars world = .ok (.word first) afterLeft →
    right.read setting vars world = .ok (.word second) afterRight →
    -2147483648 ≤ first.toInt - second.toInt ∧
      first.toInt - second.toInt ≤ 2147483647

def Method.Exact (setting : Setting) (method : Method) (state : State) :
    Prop :=
  ∀ code, method.instrs[state.pc]? = some code →
    code.Exact setting state.vars state.world

def Method.ReachesExactly (setting : Setting) (method : Method) :
    State → State → Prop :=
  Relation.ReflTransGen fun first second =>
    method.Exact setting first ∧ method.step setting first = .next second

section Exactly

variable {setting : Setting} {vars : Locals} {world other : World}

@[simp] theorem Operand.read_exactly (operand : Operand) :
    operand.read setting.exactly vars = operand.read setting vars := by
  induction operand with
  | element array position ih => simp only [Operand.read, ih]
  | literal | var | self | field => rfl

@[simp] theorem Operand.readAll_exactly (operands : List Operand) :
    Operand.readAll setting.exactly vars operands =
      Operand.readAll setting vars operands := by
  induction operands with
  | nil => rfl
  | cons operand rest ih => simp [Operand.readAll, ih]

theorem Call.perform_exactly (call : Call) :
    call.perform setting.exactly vars = call.perform setting vars := by
  simp only [Call.perform, Operand.read_exactly, Operand.readAll_exactly]
  rfl

theorem operateExactly_eq {op : Operator} {left right : Value}
    (h : ∀ first second, left = .word first → right = .word second →
      op = .lt ∨ op = .gt → -2147483648 ≤ first.toInt - second.toInt ∧
        first.toInt - second.toInt ≤ 2147483647) :
    Effect.operateExactly op left right = Effect.operate op left right := by
  cases left with
  | word first =>
      cases right with
      | word second =>
          simp only [Effect.operateExactly, Effect.operate, Effect.word,
            pure_bind]
          refine if_neg fun wrong => ?_
          have := h first second rfl rfl wrong.1
          omega
      | null | array | object => rfl
  | null | array | object => rfl

theorem Instr.value_exactly {code : Instr}
    (ordinary : setting.operate = Effect.operate)
    (exact : code.Exact setting vars world)
    (same : other.toMemory = world.toMemory) :
    code.value setting.exactly vars other = code.value setting vars other := by
  cases code with
  | binary op left right ty =>
      simp only [Instr.value, Operand.read_exactly]
      refine Action.bind_congr rfl fun first mid readLeft => ?_
      refine Action.bind_congr rfl fun second after readRight => ?_
      rw [ordinary]
      refine congrFun (operateExactly_eq ?_) after
      rintro x y rfl rfl ordered
      have looksLeft := Effect.Looks.operand setting vars left
      have looksRight := Effect.Looks.operand setting vars right
      obtain ⟨kept, _, atLeft⟩ := looksLeft readLeft same.symm
      obtain ⟨_, _, atRight⟩ := looksRight readRight
        (same.symm.trans kept.symm)
      refine exact left right x y _ _ ?_ atLeft atRight
      rcases ordered with rfl | rfl <;> rfl
  | call invocation => exact congrFun (Call.perform_exactly invocation) other
  | single operand => simp [Instr.value]
  | not operand ty => simp [Instr.value]
  | getField object field =>
      simp only [Instr.value, Operand.read_exactly]
      rfl
  | assign | putField | branch | goto | ret => rfl

theorem Instr.run_exactly {code : Instr}
    (ordinary : setting.operate = Effect.operate)
    (exact : code.Exact setting vars world) :
    code.run setting.exactly vars world = code.run setting vars world := by
  cases code with
  | assign dest ty value =>
      cases dest with
      | var name ty' =>
          simp only [Instr.run]
          exact Action.bind_congr (value_exactly ordinary exact rfl)
            fun _ _ _ => rfl
      | element array position =>
          simp only [Instr.run, Operand.read_exactly]
          refine Action.bind_congr rfl fun first mid readArray => ?_
          refine Action.bind_congr rfl fun second after readPosition => ?_
          obtain ⟨kept, _⟩ := Effect.Looks.read vars array readArray rfl
          obtain ⟨kept', _⟩ :=
            Effect.Looks.operand setting vars position readPosition rfl
          exact Action.bind_congr
            (value_exactly ordinary exact (kept'.trans kept)) fun _ _ _ => rfl
      | literal | self | field => rfl
  | single | binary | not | call | getField =>
      simp only [Instr.run]
      exact Action.bind_congr (value_exactly ordinary exact rfl)
        fun _ _ _ => rfl
  | putField object field value =>
      simp only [Instr.run, Operand.read_exactly]
      rfl
  | branch condition label => simp only [Instr.run, Operand.read_exactly]
  | goto label => rfl
  | ret ty operand =>
      cases operand with
      | none => rfl
      | some operand => simp only [Instr.run, Operand.read_exactly]

theorem Method.step_exactly {method : Method} {state : State}
    (ordinary : setting.operate = Effect.operate)
    (exact : method.Exact setting state) :
    method.step setting.exactly state = method.step setting state := by
  rw [step, step]
  cases fetch : method.instrs[state.pc]? with
  | none => rfl
  | some code =>
      simp only
      rw [Instr.run_exactly ordinary (exact code fetch)]

end Exactly

end Ir

end JavaMinus
