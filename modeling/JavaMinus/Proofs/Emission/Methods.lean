import JavaMinus.Proofs.Emission.Bodies
import JavaMinus.Proofs.Emission.Exactness
import Mathlib.Data.List.Forall2

/-!
# Emitted methods

The lines of a method do what its three-address code does.  Between any two
instructions the operand stack is empty and every variable that is set stands
in its slot; calls, field accesses and array operations are the same, and so
are the jumps, apart from those within comparisons.
-/

namespace JavaMinus.Jvm

open Ir (Operand Instr Call Labels Registers)

/-! ## What is relied on -/

structure Regular (linkage : Linkage) (source : Ir.Method) : Prop where
  targets : ∀ code ∈ source.instrs, ∀ name, code.target? = some name →
    ∃ index ≤ source.instrs.length, source.labels.lookup name = some index
  apart : ∀ entry ∈ source.labels, ∀ number, ¬ IsComparison number entry.1
  unique : (source.labels.map Prod.fst).Nodup
  -- A method without a receiver does not refer to it.
  static : source.isStatic = true → ∀ code ∈ source.instrs,
    ∀ operand ∈ code.operands, operand.usesSelf = false
  -- The receiver stands in the first slot and is not overwritten.
  receiver : source.isStatic = false →
    source.registers.names.head? = some "this"
  kept : source.isStatic = false → ∀ code ∈ source.instrs, ∀ name ty,
    code.dest? = some (.var name ty) → name ≠ "this"
  calls : ∀ code ∈ source.instrs, ∀ call, code.call? = some call →
    ∀ signature, linkage.own? call = some signature →
      signature.params.length = call.args.length ∧
        signature.returnTy.isVoid = call.returnTy.isVoid

/--
The names in references have none of the marks in them that a reader looks
for: the slash before a name, the blank before the type of a field, the
parenthesis that opens the type of a method, the semicolon after a class.
-/
structure Readable (linkage : Linkage) (source : Ir.Method) : Prop where
  fields : ∀ code ∈ source.instrs, ∀ field, code.field? = some field →
    Legible ' ' (linkage.names.binaryName field.owner) field.name ∧
      field.ty.IsPlain linkage.names
  calls : ∀ code ∈ source.instrs, ∀ call, code.call? = some call →
    ∀ owner name, linkage.owner? call = some owner →
      call.method = some name → Legible '(' owner name ∧
        ∀ ty ∈ (linkage.shape call).2 :: (linkage.shape call).1,
          ty.IsPlain linkage.names

theorem Regular.fits {oracle : Oracle} {linkage : Linkage}
    {source : Ir.Method} {code : Instr} {call : Call} {owner name : String}
    (regular : Regular linkage source) (readable : Readable linkage source)
    (member : code ∈ source.instrs) (calls : code.call? = some call)
    (invokes : call.kind ≠ .new) (isOwner : linkage.owner? call = some owner)
    (named : call.method = some name) :
    ∃ method, Fits (.reading oracle) linkage call method := by
  obtain ⟨legible, plain⟩ :=
    readable.calls code member call calls owner name isOwner named
  have agrees := regular.calls code member call calls
  refine ⟨⟨owner, name, methodErasure linkage.names (linkage.shape call).1
    (linkage.shape call).2⟩, ?_, ?_, ?_, ?_⟩
  · rw [Linkage.target, isOwner, named]
    exact readMethodRef_methodDescriptor legible plain
  · rw [Linkage.callee, isOwner, named]
    cases kind : call.kind with
    | new => exact absurd kind invokes
    | special | static | virtual | arrayLength => rfl
  · rw [methodErasure, List.length_map, Linkage.shape]
    cases own : linkage.own? call with
    | none => exact List.length_map _
    | some signature => simpa using (agrees signature own).1
  · rw [MethodRef.isVoid, methodErasure, Linkage.shape]
    cases own : linkage.own? call with
    | none => exact Ty.erased_eq_void _ _
    | some signature =>
        exact (Ty.erased_eq_void _ _).trans (agrees signature own).2

/-! ## Emitted methods -/

def emitted (linkage : Linkage) (source : Ir.Method) : Frame :=
  match Gen.method linkage (Method.targetName source) source
      { registers := source.registers } with
  | .ok _ frame | .error _ frame => frame

def Closes (source : Ir.Method) (final after : Frame) : Prop :=
  if (source.returnTy.isVoid && !source.endsWithReturn) = true then
    Emitted (.plain .vreturn) 0 0 final after
  else after = final

structure Translated (linkage : Linkage) (source : Ir.Method)
    (target : Method) : Prop where
  ran : Gen.method linkage (Method.targetName source) source
    { registers := source.registers } = .ok () (emitted linkage source)
  lines : target.lines = (emitted linkage source).code.lines.toList
  maxStack : target.maxStack = (emitted linkage source).code.peak
  few : localCount source (emitted linkage source).registers ≤ Jvm.maxLocals

theorem Method.translated {linkage : Linkage} {source : Ir.Method}
    {target : Method} (h : Method.ofIr linkage source = .ok target) :
    Translated linkage source target := by
  rw [Method.ofIr] at h
  cases run : Gen.method linkage (Method.targetName source) source
      { registers := source.registers } with
  | error cause frame =>
      simp only [run] at h
      contradiction
  | ok result frame =>
      have isEmitted : emitted linkage source = frame := by
        rw [emitted, run]
      simp only [run] at h
      split at h
      · contradiction
      next few =>
        cases h
        rw [← isEmitted] at run few ⊢
        exact ⟨run, rfl, rfl, Nat.le_of_not_lt few⟩

theorem Method.ofIr_header {linkage : Linkage} {source : Ir.Method}
    {target : Method} (h : Method.ofIr linkage source = .ok target) :
    target.name = targetName source ∧
      target.descriptor = methodDescriptor linkage.names
        (source.params.map Symbol.ty) source.returnTy ∧
      target.isStatic = source.isStatic := by
  rw [Method.ofIr] at h
  cases run : Gen.method linkage (targetName source) source
      { registers := source.registers } with
  | error cause frame =>
      simp only [run] at h
      contradiction
  | ok result frame =>
      simp only [run] at h
      split at h
      · contradiction
      · cases h
        exact ⟨rfl, rfl, rfl⟩

theorem Method.ofIr_eq_ok {linkage : Linkage} {source : Ir.Method}
    {target : Method} (h : Method.ofIr linkage source = .ok target) :
    target.lines = (emitted linkage source).code.lines.toList ∧
      (emitted linkage source).registers.names.length ≤ 65535 ∧
      ∃ final, Laid linkage source final ∧
        Closes source final (emitted linkage source) := by
  have translated := Method.translated h
  refine ⟨translated.lines, ?_, ?_⟩
  · have few := translated.few
    rw [localCount, Registers.size, Jvm.maxLocals] at few
    omega
  · obtain ⟨_, final, laid, closes⟩ := Action.bind_eq_ok.mp translated.ran
    refine ⟨final, laid, ?_⟩
    rw [Closes]
    split at closes
    next returns =>
      rw [if_pos returns]
      exact Gen.emit_plain rfl closes
    next open_ =>
      rw [if_neg open_]
      exact (Action.pure_eq_ok.mp closes).2.symm

theorem Method.ofIrAll_eq_ok {linkage : Linkage} {sources : List Ir.Method}
    {targets : List Method}
    (h : Method.ofIrAll linkage sources = .ok targets) :
    List.Forall₂ (fun source target => Method.ofIr linkage source = .ok target)
      sources targets := by
  induction sources generalizing targets with
  | nil =>
      cases h
      exact .nil
  | cons source sources ih =>
      rw [Method.ofIrAll] at h
      cases first : Method.ofIr linkage source with
      | error cause =>
          rw [first] at h
          contradiction
      | ok target =>
          rw [first] at h
          cases rest : Method.ofIrAll linkage sources with
          | error cause =>
              rw [rest] at h
              contradiction
          | ok targets' =>
              rw [rest] at h
              cases h
              exact .cons first (ih rest)

def linkageOf (table : SymbolTable) (source : Ir.Class) : Linkage where
  className := source.name
  superclass := source.superclass
  table

theorem Class.ofIr_eq_ok {table : SymbolTable} {source : Ir.Class}
    {target : Class} (h : Class.ofIr table source = .ok target) :
    List.Forall₂ (fun source' target' =>
        Method.ofIr (linkageOf table source) source' = .ok target')
      source.methods target.methods := by
  apply Method.ofIrAll_eq_ok
  cases methods : Method.ofIrAll (linkageOf table source) source.methods with
  | error cause =>
      simp only [Class.ofIr] at h
      change (Method.ofIrAll (linkageOf table source) source.methods >>=
        fun _ => _) = _ at h
      rw [methods] at h
      contradiction
  | ok targets =>
      change (Method.ofIrAll (linkageOf table source) source.methods >>=
        fun _ => _) = _ at h
      rw [methods] at h
      cases h
      rfl

/-- Calls and fields go by the class, the name and the types they refer to. -/
def Linkage.setting (linkage : Linkage) (self : Value) (oracle : Oracle) :
    Ir.Setting where
  self
  oracle
  callee := linkage.callee
  field := linkage.fieldId

def execution (oracle : Oracle) (linkage : Linkage) (source : Ir.Method)
    (self : Value) : Execution where
  runtime := .reading oracle
  lines := (emitted linkage source).code.lines.toList
  registers := (emitted linkage source).registers
  labels := source.labels
  hasSelf := !source.isStatic
  setting := (linkage.setting self oracle).exactly

section Simulation

variable {oracle : Oracle} {linkage : Linkage} {source : Ir.Method}
  {self : Value} {final : Frame}

theorem Closes.within
    (closes : Closes source final (emitted linkage source)) :
    (execution oracle linkage source self).Within final := by
  rw [Closes] at closes
  split at closes
  · have grows := closes.grows (by simp)
    exact ⟨grows.lines, grows.registers⟩
  · rw [← closes]
    exact ⟨List.prefix_refl _, List.prefix_refl _⟩

theorem Regular.linked (regular : Regular linkage source)
    (small : (emitted linkage source).registers.names.length ≤ 65535)
    (laid : Laid linkage source final)
    (closes : Closes source final (emitted linkage source)) :
    (execution oracle linkage source self).Linked linkage where
  apart number name isComparison := by
    refine List.lookup_eq_none_iff.mpr fun entry member => ?_
    rw [bne_iff_ne]
    rintro rfl
    exact regular.apart entry member number isComparison
  small := small
  receiver hasSelf := by
    have first := regular.receiver (by simpa [execution] using hasSelf)
    obtain ⟨rest, names⟩ := List.head?_eq_some_iff.mp first
    have front : source.registers.names <+:
        (execution oracle linkage source self).registers.names :=
      laid.registers closes.within
    obtain ⟨more, whole⟩ := front
    rw [← whole, names]
    rfl
  operate := rfl
  oracle := rfl
  field := rfl
  callee := rfl

theorem Regular.ready {code : Instr} (regular : Regular linkage source)
    (readable : Readable linkage source) (laid : Laid linkage source final)
    (closes : Closes source final (emitted linkage source))
    (member : code ∈ source.instrs) :
    (execution oracle linkage source self).Ready linkage code where
  fields field isField := by
    obtain ⟨legible, plain⟩ := readable.fields code member field isField
    exact readFieldId_fieldTarget legible plain
  fits call calls invokes owner name isOwner named :=
    regular.fits readable member calls invokes isOwner named
  self operand isOperand uses := by
    cases isStatic : source.isStatic with
    | true =>
        have := regular.static isStatic code member operand isOperand
        rw [this] at uses
        contradiction
    | false => simp [execution, isStatic]
  kept name ty assigns hasSelf :=
    regular.kept (by simpa [execution] using hasSelf) code member name ty
      assigns
  target name jumps := by
    obtain ⟨index, inside, known⟩ := regular.targets code member name jumps
    refine ⟨by simp [execution, known], ?_⟩
    exact (laid.jump_reaches closes.within regular.apart regular.unique
      (Ir.Labels.mem_of_lookup known) inside).1

structure Corresponds (exec : Execution) (linkage : Linkage)
    (source : Ir.Method) (state : Ir.State) (machine : State) : Prop where
  inside : state.pc ≤ source.instrs.length
  pc : machine.pc = (boundary linkage source state.pc).code.lines.size
  stack : machine.stack = []
  stored : exec.Stored state.vars machine.slots
  world : machine.world = state.world
  jumps : exec.visible machine = state.jumps

def Agrees (exec : Execution) (linkage : Linkage) (source : Ir.Method)
    (machine : State) : Progress Ir.State → Prop
  | .next state =>
      ∃ reached, Reaches (step exec.runtime exec.lines) machine reached ∧
        Corresponds exec linkage source state reached
  | .done exit state =>
      exit.IsOutcome →
        ∃ last, Ends (step exec.runtime exec.lines) machine exit last ∧
          last.world = state.world ∧ exec.visible last = state.jumps

variable {exec : Execution} {state : Ir.State} {machine : State}

theorem Agrees.of_reaches {reached : State} {progress : Progress Ir.State}
    (h : Reaches (step exec.runtime exec.lines) machine reached)
    (agrees : Agrees exec linkage source reached progress) :
    Agrees exec linkage source machine progress := by
  cases progress with
  | next state =>
      obtain ⟨last, toLast, corresponds⟩ := agrees
      exact ⟨last, h.trans toLast, corresponds⟩
  | done exit state =>
      intro outcome
      obtain ⟨last, ends, rest⟩ := agrees outcome
      exact ⟨last, h.ends ends, rest⟩

theorem follow_agrees {done : Frame} {control : Ir.Control} {world : World}
    (regular : Regular linkage source) (laid : Laid linkage source final)
    (within : exec.Within final)
    (inside : state.pc < source.instrs.length)
    (marked : Marked (source.labels.before (state.pc + 1)) done
      (boundary linkage source (state.pc + 1)))
    (target : ∀ name, control = .jump name →
      ∃ index ≤ source.instrs.length, source.labels.lookup name = some index)
    (sees : machine.world = world)
    (goes : exec.Goes done state.vars state.jumps control machine) :
    Agrees exec linkage source machine
      (state.follow source.labels world control) := by
  cases control with
  | next vars =>
      obtain ⟨slots, stored, here⟩ := goes
      have size := marked.size
      have reaches := marked.reaches (laid.within within inside) machine
        (Nat.le_of_eq here.pc.symm) (by rw [here.pc]; omega)
      exact ⟨_, reaches, inside, rfl, here.stack, here.slots ▸ stored, sees,
        here.seen⟩
  | jump name =>
      obtain ⟨stored, stack, pc, seen⟩ := goes
      obtain ⟨index, inTable, known⟩ := target name rfl
      have entry := Ir.Labels.mem_of_lookup known
      obtain ⟨_, reaches⟩ := laid.jump_reaches within regular.apart
        regular.unique entry inTable
      simp only [Ir.State.follow, known]
      exact ⟨_, reaches machine pc, inTable, rfl, stack, stored, sees, seen⟩
  | ret value =>
      obtain ⟨returns, seen⟩ := goes
      exact fun _ => ⟨machine, ⟨machine, .refl machine, returns⟩, sees, seen⟩

theorem end_agrees (laid : Laid linkage source final)
    (closes : Closes source final (emitted linkage source))
    (fetch : source.instrs[state.pc]? = none)
    (corresponds : Corresponds (execution oracle linkage source self) linkage
      source state machine) (setting : Ir.Setting) :
    Agrees (execution oracle linkage source self) linkage source machine
      (source.step setting state) := by
  obtain ⟨inside, pc, stack, stored, world, jumps⟩ := corresponds
  have atEnd : state.pc = source.instrs.length :=
    Nat.le_antisymm inside (List.getElem?_eq_none_iff.mp fetch)
  simp only [Ir.Method.step, fetch]
  split
  next returns =>
    rw [Closes, if_pos (by simp [returns.2])] at closes
    have within : (execution oracle linkage source self).Within
        (emitted linkage source) :=
      ⟨List.prefix_refl _, List.prefix_refl _⟩
    rw [atEnd, laid.boundary_length] at pc
    have atReturn : (execution oracle linkage source self).At final []
        machine.slots state.jumps machine := ⟨pc, stack, rfl, jumps⟩
    have runs : (execution oracle linkage source self).Runs state.jumps
        machine (.ok (.ret none) machine.world) fun control _ reached =>
          (execution oracle linkage source self).Goes
            (emitted linkage source) state.vars state.jumps control reached :=
      Execution.ret_runs closes within atReturn rfl
    obtain ⟨last, toLast, sees, returned, seen⟩ := runs
    exact fun _ => ⟨last, ⟨last, toLast, returned⟩, sees.trans world, seen⟩
  next => exact fun outcome => outcome.elim

theorem step_agrees (regular : Regular linkage source)
    (readable : Readable linkage source)
    (small : (emitted linkage source).registers.names.length ≤ 65535)
    (laid : Laid linkage source final)
    (closes : Closes source final (emitted linkage source))
    (corresponds : Corresponds (execution oracle linkage source self) linkage
      source state machine) :
    Agrees (execution oracle linkage source self) linkage source machine
      (source.step (linkage.setting self oracle).exactly state) := by
  have ⟨inside, pc, stack, stored, world, jumps⟩ := corresponds
  have linked : (execution oracle linkage source self).Linked linkage :=
    regular.linked small laid closes
  have within : (execution oracle linkage source self).Within final :=
    closes.within
  cases fetch : source.instrs[state.pc]? with
  | none =>
      exact end_agrees laid closes fetch corresponds _
  | some code =>
      have member := List.mem_of_getElem? fetch
      have bound := (List.getElem?_eq_some_iff.mp fetch).1
      have orderly := laid.orderly regular.apart inside
      obtain ⟨done, ⟨mid, hinstr, hdrop, balanced⟩, marked⟩ :=
        laid.boundary_succ fetch
      have withinNext := laid.within within bound
      have runs := Execution.instr_runs linked
        (regular.ready readable laid closes member) hinstr hdrop orderly.depth
        balanced (marked.within withinNext) orderly.fresh
        ⟨pc, stack, rfl, jumps⟩ stored
      rw [world] at runs
      cases result : code.run (linkage.setting self oracle).exactly
          state.vars state.world with
      | error exit world' =>
          rw [Ir.Method.step_of_error fetch result]
          change Execution.Runs _ _ _ (code.run
            (linkage.setting self oracle).exactly _ _) _ at runs
          rw [result] at runs
          intro outcome
          obtain ⟨last, ends, sees, shown⟩ := runs outcome
          exact ⟨last, ends, sees, shown⟩
      | ok control world' =>
          rw [Ir.Method.step_of_ok fetch result]
          change Execution.Runs _ _ _ (code.run
            (linkage.setting self oracle).exactly _ _) _ at runs
          rw [result] at runs
          obtain ⟨reached, toReached, sees, goes⟩ := runs
          have target : ∀ name, control = .jump name →
              ∃ index ≤ source.instrs.length,
                source.labels.lookup name = some index := by
            rintro name rfl
            exact regular.targets code member name
              (Instr.target?_of_jump result)
          have agrees := follow_agrees regular laid within bound marked target
            sees goes
          exact Agrees.of_reaches toReached agrees

theorem run_corresponds {state' : Ir.State}
    (regular : Regular linkage source)
    (readable : Readable linkage source)
    (small : (emitted linkage source).registers.names.length ≤ 65535)
    (laid : Laid linkage source final)
    (closes : Closes source final (emitted linkage source))
    (run : source.ReachesExactly (linkage.setting self oracle) state
      state')
    (corresponds : Corresponds (execution oracle linkage source self) linkage
      source state machine) :
    ∃ reached, Reaches (step (.reading oracle)
        (emitted linkage source).code.lines.toList) machine reached ∧
      Corresponds (execution oracle linkage source self) linkage source
        state' reached := by
  refine Reaches.simulates ?_ run corresponds
  rintro first second machine ⟨exact, stepped⟩ corresponds
  have agrees := step_agrees regular readable small laid closes corresponds
  rw [Ir.Method.step_exactly rfl exact, stepped] at agrees
  exact agrees

theorem start_corresponds {vars : Locals} {slots : Slots} {world : World}
    (laid : Laid linkage source final)
    (closes : Closes source final (emitted linkage source))
    (params : ∀ name value, vars name = some value →
      name ∈ source.registers.names ∧
        slots (source.registers.slot name) = some value)
    (receiver : source.isStatic = false → slots 0 = some self) :
    ∃ machine, Reaches (step (.reading oracle)
        (emitted linkage source).code.lines.toList)
        { pc := 0, stack := [], slots, world } machine ∧
      Corresponds (execution oracle linkage source self) linkage source
        { pc := 0, vars, world } machine := by
  have within : (execution oracle linkage source self).Within final :=
    closes.within
  have front := laid.registers within
  have stored : (execution oracle linkage source self).Stored vars slots := by
    refine ⟨fun name value isSet => ?_, fun hasSelf => ?_⟩
    · obtain ⟨member, holds⟩ := params name value isSet
      exact ⟨front.subset member, by rw [slot_of_front front member, holds]⟩
    · exact receiver (by simpa [execution] using hasSelf)
  exact ⟨_, laid.boundary_zero.reaches (laid.within within (Nat.zero_le _)) _
    (Nat.le_refl _) (Nat.zero_le _), Nat.zero_le _, rfl, rfl, stored, rfl,
    rfl⟩

/--
From matching starts, the emitted lines follow every run in which the words
that are compared have a word as difference: at each instruction that the run
comes to the machine has an empty stack and every variable in its slot, and
where the run ends the machine ends in the same way.
-/
theorem Method.ofIr_simulates {target : Method} {vars : Locals}
    {slots : Slots} {world : World}
    (translated : Method.ofIr linkage source = .ok target)
    (regular : Regular linkage source) (readable : Readable linkage source)
    (params : ∀ name value, vars name = some value →
      name ∈ source.registers.names ∧
        slots (source.registers.slot name) = some value)
    (receiver : source.isStatic = false → slots 0 = some self) :
    ∀ state, source.ReachesExactly (linkage.setting self oracle)
        { pc := 0, vars, world } state →
      (∃ machine, Reaches (step (.reading oracle) target.lines)
          { pc := 0, stack := [], slots, world } machine ∧
        Corresponds (execution oracle linkage source self) linkage source
          state machine) ∧
      ∀ exit final, exit.IsOutcome →
        source.Exact (linkage.setting self oracle) state →
        source.step (linkage.setting self oracle) state =
          .done exit final →
        ∃ last, Ends (step (.reading oracle) target.lines)
            { pc := 0, stack := [], slots, world } exit last ∧
          last.world = final.world ∧
          (execution oracle linkage source self).visible last =
            final.jumps := by
  obtain ⟨lines, small, final, laid, closes⟩ := Method.ofIr_eq_ok translated
  rw [lines]
  intro state run
  obtain ⟨first, toFirst, atFirst⟩ :=
    start_corresponds laid closes params receiver
  obtain ⟨machine, toMachine, corresponds⟩ :=
    run_corresponds regular readable small laid closes run atFirst
  refine ⟨⟨machine, toFirst.trans toMachine, corresponds⟩, ?_⟩
  intro exit last outcome exact stepped
  have agrees := step_agrees regular readable small laid closes corresponds
  rw [Ir.Method.step_exactly rfl exact, stepped] at agrees
  obtain ⟨last', ends, rest⟩ := agrees outcome
  exact ⟨last', (toFirst.trans toMachine).ends ends, rest⟩

end Simulation

/-! ## A method that is run -/

def showing : Linkage where
  className := "Counter"
  superclass := none
  table :=
    { className := "Counter"
      methods := [
        { name := "show", params := [{ name := "n", ty := .int }]
          locals := [], returnTy := .void }] }

def bump : Ir.Method where
  name := "bump"
  params := [{ name := "n", ty := .int }]
  returnTy := .int
  registers := { names := ["this", "n"] }
  labels := [("more", 3)]
  instrs := [
    .assign (.var "t" .boolean) .boolean
      (.binary .lt (.var "n" .int) (.literal 10 .int) .boolean),
    .branch (.var "t" .boolean) "more",
    .ret .int (some (.literal 0 .int)),
    .assign (.var "n" .int) .int
      (.binary .add (.var "n" .int) (.literal 1 .int) .int),
    .call { kind := .virtual, target := .self "Counter", method := some "show"
            args := [.var "n" .int], returnTy := .void },
    .putField (.self "Counter") { owner := "Counter", name := "n", ty := .int }
      (.var "n" .int),
    .ret .int (some (.var "n" .int))]

def idle : Oracle := fun _ _ world => (.ok .null, world.toMemory)

def five : Ir.State where
  pc := 0
  vars := fun name => if name = "n" then some (.word 5) else none
  world := ⟨⟨fun _ _ => .null, []⟩, []⟩

def fiveInSlot : State where
  pc := 0
  stack := []
  slots := fun index =>
    if index = 0 then some (.object 7) else some (.word 5)
  world := five.world

theorem regular_bump : Regular showing bump where
  targets := by simp [bump, Instr.target?]
  apart := by
    intro entry member number isComparison
    obtain rfl : entry = ("more", 3) := by simpa [bump] using member
    exact absurd isComparison.length (by decide)
  unique := by simp [bump]
  static := by simp [bump]
  receiver := by simp [bump]
  kept := by simp [bump, Instr.dest?]
  calls := by
    intro code member call calls signature own
    simp only [bump, List.mem_cons, List.not_mem_nil, or_false] at member
    rcases member with rfl | rfl | rfl | rfl | rfl | rfl | rfl
    all_goals cases calls
    cases own
    exact ⟨rfl, rfl⟩

theorem readable_bump : Readable showing bump where
  fields := by
    intro code member field isField
    simp only [bump, List.mem_cons, List.not_mem_nil, or_false] at member
    rcases member with rfl | rfl | rfl | rfl | rfl | rfl | rfl
    all_goals cases isField
    exact ⟨⟨by decide +kernel, by decide, by decide⟩, by decide⟩
  calls := by
    intro code member call calls owner name isOwner named
    simp only [bump, List.mem_cons, List.not_mem_nil, or_false] at member
    rcases member with rfl | rfl | rfl | rfl | rfl | rfl | rfl
    all_goals cases calls
    cases isOwner
    cases named
    exact ⟨⟨by decide +kernel, by decide, by decide⟩, by decide⟩

def bumped : List Event :=
  [.call
    { kind := .virtual, owner := "Counter", name := "show"
      ty := some ⟨[.value (.primitive .int)], .void⟩ }
    [.object 7, .word 6],
   .putField (.object 7)
    { owner := "Counter", name := "n", ty := some (.value (.primitive .int)) }
    (.word 6)]

theorem runs_bump : ∃ state final,
    bump.ReachesExactly (showing.setting (.object 7) idle) five state ∧
    bump.Exact (showing.setting (.object 7) idle) state ∧
    bump.step (showing.setting (.object 7) idle) state =
      .done (.returned (some (.word 6))) final ∧
    final.world.trace = bumped := by
  refine ⟨_, _, .head ⟨?_, rfl⟩ (.head ⟨?_, rfl⟩ (.head ⟨?_, rfl⟩
    (.head ⟨?_, rfl⟩ (.head ⟨?_, rfl⟩ .refl)))), ?_, rfl, ?_⟩
  · rintro code fetch left right first second _ _ ordered readLeft readRight
    cases fetch
    cases ordered
    cases readLeft
    cases readRight
    decide
  case refine_7 => decide +kernel
  all_goals
    rintro code fetch left right first second _ _ ordered _ _
    cases fetch
    cases ordered

theorem translates_bump : ∃ target, Method.ofIr showing bump = .ok target := by
  have isOk : (Method.ofIr showing bump).isOk = true := by decide +kernel
  revert isOk
  generalize Method.ofIr showing bump = result
  intro isOk
  cases result with
  | error cause => contradiction
  | ok target => exact ⟨target, rfl⟩

theorem ofIr_simulates_bump :
    ∃ target last, Method.ofIr showing bump = .ok target ∧
      Ends (step (.reading idle) target.lines) fiveInSlot
        (.returned (some (.word 6))) last ∧
      last.world.trace = bumped := by
  have params : ∀ name value, five.vars name = some value →
      name ∈ bump.registers.names ∧
        fiveInSlot.slots (bump.registers.slot name) = some value := by
    intro name value isSet
    simp only [five] at isSet
    split at isSet
    next same =>
      cases isSet
      subst same
      decide
    next => contradiction
  have receiver : bump.isStatic = false →
      fiveInSlot.slots 0 = some (.object 7) := fun _ => rfl
  obtain ⟨target, translated⟩ := translates_bump
  obtain ⟨state, final, run, exact, stepped, trace⟩ := runs_bump
  obtain ⟨_, ends⟩ := Method.ofIr_simulates translated regular_bump
    readable_bump params receiver state run
  obtain ⟨last, ends, sees, _⟩ :=
    ends (.returned _) final trivial exact stepped
  exact ⟨target, last, translated, ends, by rw [sees, trace]⟩

/-! ## Names that cannot be read -/

def bare : Linkage where
  className := "A"
  superclass := none
  table := { className := "A" }

/-- Two fields with the same text. -/
def crossed : Ir.FieldRef × Ir.FieldRef :=
  ({ owner := "A", name := "x/y", ty := .int },
    { owner := "A/x", name := "y", ty := .int })

def crossing : Ir.Method where
  name := "f"
  returnTy := .void
  registers := { names := ["this"] }
  instrs := [
    .assign (.var "t" .int) .int (.getField (.self "A") crossed.1),
    .assign (.var "t" .int) .int (.getField (.self "A") crossed.2)]

theorem regular_crossing : Regular bare crossing := by
  constructor <;> simp [crossing, Instr.target?, Instr.dest?, Instr.call?]

theorem lines_crossing : ∃ target, Method.ofIr bare crossing = .ok target ∧
    target.lines =
      [.plain (.aloadAt 0), .apply .getfield (.symbol "A/x/y I"),
        .plain (.istoreAt 1), .plain (.aloadAt 0),
        .apply .getfield (.symbol "A/x/y I"), .plain (.istoreAt 1),
        .plain .vreturn] := by
  have known : (Method.ofIr bare crossing).toOption.map Method.lines =
      some [.plain (.aloadAt 0), .apply .getfield (.symbol "A/x/y I"),
        .plain (.istoreAt 1), .plain (.aloadAt 0),
        .apply .getfield (.symbol "A/x/y I"), .plain (.istoreAt 1),
        .plain .vreturn] := by
    decide +kernel
  cases result : Method.ofIr bare crossing with
  | error cause => simp [result, Except.toOption] at known
  | ok target =>
      exact ⟨target, rfl, by simpa [result, Except.toOption] using known⟩

theorem runs_crossing : ∃ state final,
    crossing.ReachesExactly (bare.setting (.object 7) idle)
      { pc := 0, vars := fun _ => none, world := five.world } state ∧
    crossing.Exact (bare.setting (.object 7) idle) state ∧
    crossing.step (bare.setting (.object 7) idle) state =
      .done (.returned none) final ∧
    final.world.trace =
      [.getField (.object 7) (bare.fieldId crossed.1),
        .getField (.object 7) (bare.fieldId crossed.2)] := by
  refine ⟨_, _, .head ⟨?_, rfl⟩ (.head ⟨?_, rfl⟩ .refl), ?_, rfl, rfl⟩
  all_goals
    rintro code fetch left right first second _ _ ordered _ _
    cases fetch <;> cases ordered

theorem ends_crossing {runtime : Runtime} {field : FieldId}
    {lines : List Line} (read : runtime.field? "A/x/y I" = some field)
    (whole : lines =
      [.plain (.aloadAt 0), .apply .getfield (.symbol "A/x/y I"),
        .plain (.istoreAt 1), .plain (.aloadAt 0),
        .apply .getfield (.symbol "A/x/y I"), .plain (.istoreAt 1),
        .plain .vreturn]) :
    ∃ last, Ends (step runtime lines) fiveInSlot (.returned none) last ∧
      last.world.trace =
        [.getField (.object 7) field, .getField (.object 7) field] := by
  have gets {state : State} {rest : List Value}
      (fetch : lines[state.pc]? = some (.apply .getfield (.symbol "A/x/y I")))
      (stack : state.stack = .object 7 :: rest) :
      step runtime lines state = .next { state with
        pc := state.pc + 1
        stack := state.world.fields (.object 7) field :: rest
        world := { state.world with
          trace := state.world.trace ++ [.getField (.object 7) field] } } := by
    simp only [step, fetch, stack, Line.run, Opcode.runWith, getField, read]
    rfl
  subst whole
  exact ⟨_, ⟨_, .head rfl (.head (gets rfl rfl) (.head rfl (.head rfl
    (.head (gets rfl rfl) (.head rfl .refl))))), rfl⟩, rfl⟩

/--
A slash in the name of a field moves the end of the class.  However the text
of the two fields is read, the machine takes one for the other.
-/
theorem ofIr_confuses_fields :
    ∃ target state final, Method.ofIr bare crossing = .ok target ∧
      Regular bare crossing ∧
      crossing.ReachesExactly (bare.setting (.object 7) idle)
        { pc := 0, vars := fun _ => none, world := five.world } state ∧
      crossing.Exact (bare.setting (.object 7) idle) state ∧
      crossing.step (bare.setting (.object 7) idle) state =
        .done (.returned none) final ∧
      ∀ (runtime : Runtime) (field : FieldId),
        runtime.field? "A/x/y I" = some field →
        ∃ last, Ends (step runtime target.lines) fiveInSlot (.returned none)
            last ∧
          last.world.trace ≠ final.world.trace := by
  obtain ⟨target, translated, lines⟩ := lines_crossing
  obtain ⟨state, final, run, exact, stepped, trace⟩ := runs_crossing
  refine ⟨target, state, final, translated, regular_crossing, run, exact,
    stepped, fun runtime field read => ?_⟩
  obtain ⟨last, ends, trace'⟩ := ends_crossing read lines
  refine ⟨last, ends, fun same => ?_⟩
  have apart : bare.fieldId crossed.1 ≠ bare.fieldId crossed.2 := by
    decide +kernel
  rw [trace, trace'] at same
  simp only [List.cons.injEq, Event.getField.injEq, true_and, and_true] at same
  exact apart (same.1.symm.trans same.2)

end JavaMinus.Jvm
