import JavaMinus.Proofs.Emission.Growth
import JavaMinus.Proofs.Semantics.Jvm

/-!
# Running emitted lines

Code is run between the frames that it was emitted from: the machine stands
behind the lines of one frame and gets behind those of a later one.  Operands
push the values that they have in the three-address code.
-/

namespace JavaMinus

def Ir.Operand.usesSelf : Operand → Bool
  | .self _ => true
  | .element _ position => position.usesSelf
  | .literal _ _ | .var _ _ | .field _ => false

namespace Jvm

open Ir (Operand Instr Call Registers)

structure Execution where
  runtime : Runtime
  lines : List Line
  registers : Registers
  labels : Ir.Labels
  -- Whether the method has a receiver, which stands in the first slot.
  hasSelf : Bool
  setting : Ir.Setting

namespace Execution

variable (exec : Execution)

def visible (state : State) : List String :=
  state.jumps.filter fun name => (exec.labels.lookup name).isSome

structure At (frame : Frame) (stack : List Value) (slots : Slots)
    (seen : List String) (state : State) : Prop where
  pc : state.pc = frame.code.lines.size
  stack : state.stack = stack
  slots : state.slots = slots
  seen : exec.visible state = seen

structure Within (frame : Frame) : Prop where
  lines : frame.code.lines.toList <+: exec.lines
  registers : frame.registers.names <+: exec.registers.names

abbrev Runs {τ α : Type} [HasWorld τ] (seen : List String) (start : State)
    (result : EStateM.Result Exit τ α) (post : α → τ → State → Prop) : Prop :=
  Follows (step exec.runtime exec.lines)
    (fun final => exec.visible final = seen) start result post

variable {exec} {frame after : Frame} {stack : List Value} {slots : Slots}
  {seen : List String} {start : State} {α β : Type}

theorem Within.before (h : exec.Within after) (grows : Grows frame after) :
    exec.Within frame :=
  ⟨grows.lines.trans h.lines, grows.registers.trans h.registers⟩

theorem fetch {line : Line} {popped pushed : Nat}
    (emitted : Emitted line popped pushed frame after)
    (within : exec.Within after) :
    exec.lines[frame.code.lines.size]? = some line := by
  obtain ⟨rest, known⟩ := within.lines
  rw [← known, emitted.lines]
  simp

theorem line_runs {line : Line} {popped pushed : Nat} {action : Effect α}
    (stack' : α → List Value) (slots' : α → Slots) {rest : α → Effect β}
    {post : β → World → State → Prop}
    (emitted : Emitted line popped pushed frame after)
    (within : exec.Within after) (here : exec.At frame stack slots seen start)
    (run : line.run exec.runtime stack slots = do
      let value ← action
      pure (.next (stack' value) (slots' value)))
    (h : ∀ value reached,
      exec.At after (stack' value) (slots' value) seen reached →
      exec.Runs seen reached (rest value reached.world) post) :
    exec.Runs seen start ((action >>= rest) start.world) post := by
  have fetched := fetch emitted within
  rw [← here.pc] at fetched
  cases result : action start.world with
  | ok value world =>
      have stepped : step exec.runtime exec.lines start =
          .next { start with
            pc := start.pc + 1, stack := stack' value
            slots := slots' value, world } := by
        rw [step, fetched]
        dsimp only
        rw [here.stack, here.slots, run, Action.bind_of_ok result]
        rfl
      rw [Action.bind_of_ok result]
      refine .of_step stepped (h value _ ⟨?_, rfl, rfl, here.seen⟩)
      rw [here.pc, emitted.lines, Array.size_push]
  | error exit world =>
      have stepped : step exec.runtime exec.lines start =
          .done exit { start with world } := by
        rw [step, fetched]
        dsimp only
        rw [here.stack, here.slots, run, Action.bind_of_error result]
      rw [Action.bind_of_error result]
      exact .done stepped rfl here.seen

theorem silent_runs {line : Line} {popped pushed : Nat}
    {stack' : List Value} {slots' : Slots} {action : Effect β}
    {post : β → World → State → Prop}
    (emitted : Emitted line popped pushed frame after)
    (within : exec.Within after) (here : exec.At frame stack slots seen start)
    (run : line.run exec.runtime stack slots = pure (.next stack' slots'))
    (h : ∀ reached, exec.At after stack' slots' seen reached →
      exec.Runs seen reached (action reached.world) post) :
    exec.Runs seen start (action start.world) post := by
  change exec.Runs seen start ((pure () >>= fun _ => action) start.world) post
  exact line_runs (fun _ => stack') (fun _ => slots') emitted within here run
    fun _ => h

/-! ## Variables in slots -/

def Held (exec : Execution) (vars : Locals) (slots : Slots) : Prop :=
  ∀ name value, vars name = some value →
    name ∈ exec.registers.names ∧
      slots (exec.registers.slot name) = some value

theorem Held.set {vars : Locals} (h : exec.Held vars slots)
    (small : exec.registers.names.length ≤ 65535) {name : String}
    (member : name ∈ exec.registers.names) (value : Value) :
    exec.Held (vars.set name value)
      (slots.set (exec.registers.slot name) value) := by
  intro other known isSet
  by_cases same : other = name
  · subst same
    rw [Locals.set_self] at isSet
    cases isSet
    exact ⟨member, by simp [Slots.set]⟩
  · rw [Locals.set_of_ne _ _ same] at isSet
    obtain ⟨member', holds⟩ := h other known isSet
    refine ⟨member', ?_⟩
    have apart : exec.registers.slot other ≠ exec.registers.slot name :=
      fun equal => same (slot_injective small member' member equal)
    simp [Slots.set, apart, holds]

/-- The slot that was drawn for a name is its slot to the end. -/
theorem slot_runs {name : String} {index : UInt16}
    (h : Gen.slot name frame = .ok index after) (within : exec.Within after) :
    index = exec.registers.slot name ∧ name ∈ exec.registers.names := by
  obtain ⟨rfl, rfl⟩ := Gen.slot_eq_ok h
  have member := mem_allocate frame.registers name
  have front := within.registers
  refine ⟨?_, front.subset member⟩
  rw [slot_of_front front member, slot_allocate]

/-! ## Operands -/

theorem emit_load {op : Opcode} {index : UInt16}
    (isLoad : op = .iload ∨ op = .aload)
    (h : Gen.emit (.slot op index) frame = .ok () after) :
    ∃ line, Emitted line 0 1 frame after ∧
      ∀ runtime stack slots,
        line.run runtime stack slots = loadSlot stack slots index := by
  rcases isLoad with rfl | rfl
  all_goals
    rcases Gen.emit_slot rfl h with ⟨short, form, emitted⟩ | emitted
    · rw [Opcode.shortForm?] at form
      split at form
      · cases form
        refine ⟨_, emitted, fun runtime stack slots => ?_⟩
        simp [Line.run, Opcode.run]
      · contradiction
    · exact ⟨_, emitted, fun _ _ _ => rfl⟩

theorem emit_store {op : Opcode} {index : UInt16}
    (isStore : op = .istore ∨ op = .astore)
    (h : Gen.emit (.slot op index) frame = .ok () after) :
    ∃ line, Emitted line 1 0 frame after ∧
      ∀ runtime stack slots,
        line.run runtime stack slots = storeSlot stack slots index := by
  rcases isStore with rfl | rfl
  all_goals
    rcases Gen.emit_slot rfl h with ⟨short, form, emitted⟩ | emitted
    · rw [Opcode.shortForm?] at form
      split at form
      · cases form
        refine ⟨_, emitted, fun runtime stack slots => ?_⟩
        simp [Line.run, Opcode.run]
      · contradiction
    · exact ⟨_, emitted, fun _ _ _ => rfl⟩

theorem emit_int {value : Int32}
    (h : Gen.emit (.int value) frame = .ok () after) :
    ∃ line, Emitted line 0 1 frame after ∧
      ∀ runtime stack slots,
        line.run runtime stack slots = push stack slots (.word value) := by
  rw [Emit.int] at h
  split at h
  next bounds =>
    refine ⟨_, Gen.emit_plain rfl h, fun runtime stack slots => ?_⟩
    have index : (((value.toInt + 1).toNat : Nat) : Int) - 1 =
        value.toInt := by omega
    rw [Line.run, Opcode.run, index, Int32.ofInt_toInt]
  next =>
    split at h
    next bounds =>
      refine ⟨_, Gen.emit_apply rfl h, fun runtime stack slots => ?_⟩
      simp [Line.run, Opcode.runWith, pushWithin, bounds]
    next =>
      split at h
      next bounds =>
        refine ⟨_, Gen.emit_apply rfl h, fun runtime stack slots => ?_⟩
        simp [Line.run, Opcode.runWith, pushWithin, bounds]
      next => exact ⟨_, Gen.emit_apply rfl h, fun _ _ _ => rfl⟩

theorem loadSlot_runs {name : String} {index : UInt16} {op : Opcode}
    {mid : Frame} {vars : Locals} {next : Value → Effect β}
    {post : β → World → State → Prop} (isLoad : op = .iload ∨ op = .aload)
    (hslot : Gen.slot name frame = .ok index mid)
    (hload : Gen.emit (.slot op index) mid = .ok () after)
    (within : exec.Within after) (here : exec.At frame stack slots seen start)
    (held : exec.Held vars slots)
    (rest : ∀ reached value, exec.At after (value :: stack) slots seen reached →
      exec.Runs seen reached (next value reached.world) post) :
    exec.Runs seen start ((Effect.read vars name >>= next) start.world)
      post := by
  cases known : vars name with
  | none =>
      rw [Effect.read, known]
      exact .stuck
  | some value =>
      obtain ⟨line, emitted, runs⟩ := emit_load isLoad hload
      have grows : Grows mid after := by
        rcases isLoad with rfl | rfl
        · exact (Builds.slotLine rfl index hload).grows
        · exact (Builds.slotLine rfl index hload).grows
      obtain ⟨rfl, _⟩ := slot_runs hslot (within.before grows)
      have here' : exec.At mid stack slots seen start := by
        obtain ⟨_, rfl⟩ := Gen.slot_eq_ok hslot
        exact ⟨here.pc, here.stack, here.slots, here.seen⟩
      have reads : Effect.read vars name = pure value := by
        rw [Effect.read, known]
      rw [reads]
      refine line_runs (fun value => value :: stack) (fun _ => slots) emitted
        within here' ?_ fun value reached past => rest reached value past
      rw [runs, loadSlot, (held name value known).2]
      rfl

theorem store_runs {name : String} {ty : Ty} {value : Value}
    {action : Effect β} {post : β → World → State → Prop}
    (h : Gen.store name ty frame = .ok () after) (within : exec.Within after)
    (here : exec.At frame (value :: stack) slots seen start)
    (rest : ∀ reached, name ∈ exec.registers.names →
      exec.At after stack (slots.set (exec.registers.slot name) value) seen
        reached →
      exec.Runs seen reached (action reached.world) post) :
    exec.Runs seen start (action start.world) post := by
  obtain ⟨index, mid, hslot, hstore⟩ := Action.bind_eq_ok.mp h
  have isStore : (if ty.isReference then Opcode.astore else .istore) =
      .istore ∨ (if ty.isReference then Opcode.astore else .istore) =
        .astore := by
    cases ty.isReference with
    | true => exact .inr rfl
    | false => exact .inl rfl
  obtain ⟨line, emitted, runs⟩ := emit_store isStore hstore
  have grows : Grows mid after :=
    (Builds.slotLine (Gen.storeOp_effect? ty) index hstore).grows
  obtain ⟨rfl, member⟩ := slot_runs hslot (within.before grows)
  have here' : exec.At mid (value :: stack) slots seen start := by
    obtain ⟨_, rfl⟩ := Gen.slot_eq_ok hslot
    exact ⟨here.pc, here.stack, here.slots, here.seen⟩
  exact silent_runs emitted within here' (runs _ _ _)
    fun reached past => rest reached member past

theorem load_runs {operand : Operand} {vars : Locals}
    {next : Value → Effect β} {post : β → World → State → Prop}
    (h : Gen.load operand frame = .ok () after) (within : exec.Within after)
    (here : exec.At frame stack slots seen start)
    (held : exec.Held vars slots)
    (self : operand.usesSelf = true → slots 0 = some exec.setting.self)
    (rest : ∀ reached value, exec.At after (value :: stack) slots seen reached →
      exec.Runs seen reached (next value reached.world) post) :
    exec.Runs seen start
      ((operand.read exec.setting vars >>= next) start.world) post := by
  induction operand generalizing frame after stack start next with
  | literal value ty =>
      obtain ⟨line, emitted, runs⟩ := emit_int h
      exact line_runs (fun value => value :: stack) (fun _ => slots) emitted
        within here (runs _ _ _) fun value reached past =>
          rest reached value past
  | var name ty =>
      obtain ⟨index, mid, hslot, h⟩ := Action.bind_eq_ok.mp h
      refine loadSlot_runs ?_ hslot h within here held rest
      cases ty.isReference with
      | true => exact .inr rfl
      | false => exact .inl rfl
  | self className =>
      have emitted := Gen.emit_plain rfl h
      refine line_runs (fun value => value :: stack) (fun _ => slots) emitted
        within here ?_ fun value reached past => rest reached value past
      change loadSlot stack slots 0 = _
      rw [loadSlot, self rfl]
      rfl
  | element array position ih =>
      obtain ⟨index, first, hslot, h⟩ := Action.bind_eq_ok.mp h
      obtain ⟨_, second, harray, h⟩ := Action.bind_eq_ok.mp h
      obtain ⟨_, third, hposition, hload⟩ := Action.bind_eq_ok.mp h
      have loaded := Gen.emit_plain rfl hload
      have withinThird := within.before (loaded.grows (by simp))
      have withinSecond := withinThird.before
        (Builds.load position hposition).grows
      simp only [Operand.read, bind_assoc]
      refine loadSlot_runs (.inr rfl) hslot harray withinSecond here held
        fun atArray array pastArray => ?_
      refine ih hposition withinThird pastArray self
        fun atPosition place pastPosition => ?_
      exact line_runs (fun value => value :: stack) (fun _ => slots) loaded
        within pastPosition rfl fun value reached past =>
          rest reached value past
  | field ref => exact absurd h Action.throw_ne_ok

theorem loadAll_runs {operands : List Operand} {vars : Locals}
    {next : List Value → Effect β} {post : β → World → State → Prop}
    (h : Gen.loadAll operands frame = .ok () after)
    (within : exec.Within after) (here : exec.At frame stack slots seen start)
    (held : exec.Held vars slots)
    (self : ∀ operand ∈ operands, operand.usesSelf = true →
      slots 0 = some exec.setting.self)
    (rest : ∀ reached values, values.length = operands.length →
      exec.At after (values.reverse ++ stack) slots seen reached →
      exec.Runs seen reached (next values reached.world) post) :
    exec.Runs seen start
      ((Operand.readAll exec.setting vars operands >>= next) start.world)
      post := by
  induction operands generalizing frame stack start next with
  | nil =>
      obtain ⟨_, rfl⟩ := Action.pure_eq_ok.mp h
      exact rest start [] rfl here
  | cons operand operands ih =>
      obtain ⟨_, mid, hload, hrest⟩ := Action.bind_eq_ok.mp h
      have withinMid := within.before
        (Builds.loadAll operands hrest).grows
      simp only [Operand.readAll, bind_assoc, pure_bind]
      refine load_runs hload withinMid here held (self operand (by simp))
        fun first value past => ?_
      refine ih hrest past
        (fun operand member => self operand (by simp [member]))
        fun last values length past => ?_
      exact rest last (value :: values) (by simp [length])
        (by simpa using past)

end Execution

end Jvm

end JavaMinus
