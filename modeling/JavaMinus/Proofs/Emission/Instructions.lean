import JavaMinus.Proofs.Emission.Calls

/-!
# Running emitted instructions

An instruction is run with an empty stack before and after it.  Only what
leaves a value on the stack can be assigned, as the depth of the stack was
counted during the emission.
-/

namespace JavaMinus

namespace Ir.Instr

def operands : Instr → List Operand
  | .assign dest _ value => dest :: value.operands
  | .single operand | .not operand _ | .branch operand _ => [operand]
  | .binary _ left right _ => [left, right]
  | .call invocation => invocation.target :: invocation.args
  | .getField object _ => [object]
  | .putField object _ value => [object, value]
  | .goto _ => []
  | .ret _ operand => operand.toList

def call? : Instr → Option Call
  | .assign _ _ value => value.call?
  | .call invocation => some invocation
  | _ => none

def field? : Instr → Option FieldRef
  | .assign _ _ value => value.field?
  | .getField _ field | .putField _ field _ => some field
  | _ => none

def dest? : Instr → Option Operand
  | .assign dest _ _ => some dest
  | _ => none

end Ir.Instr

namespace Jvm

open Ir (Operand Instr Call Registers)

/-! ## Depth -/

namespace Gen

variable {linkage : Linkage} {frame after : Frame}

theorem call_depth {call : Call}
    (h : Gen.call linkage call frame = .ok () after) :
    after.code.depth =
      frame.code.depth + (if pushesResult call then 1 else 0) := by
  rw [Gen.call] at h
  cases kind : call.kind with
  | new =>
      simp only [kind, pushesResult, if_true] at h ⊢
      rcases allocate_eq_ok h with
        ⟨size, mid, _, _, hload, emitted⟩ | ⟨className, _, _, _, emitted⟩
      · have loaded := load_depth hload
        have made := emitted.depth
        omega
      · exact emitted.depth
  | arrayLength =>
      simp only [kind, pushesResult, if_true] at h ⊢
      obtain ⟨_, mid, hload, hlength⟩ := Action.bind_eq_ok.mp h
      have loaded := load_depth hload
      have emitted := (emit_plain rfl hlength).depth
      omega
  | special | static | virtual =>
      simp only [kind] at h
      obtain ⟨mid, hload, emitted⟩ := invoke_eq_ok h
      rw [emitted.depth, loadAll_depth hload, Nat.add_sub_cancel]
      cases isVoid : call.returnTy.isVoid <;>
        simp [pushesResult, kind, isVoid]

theorem tryIncrement_eq_ok {name : String} {ty : Ty} {value : Instr}
    {done : Bool} (h : tryIncrement name ty value frame = .ok done after) :
    (done = true ∧ ∃ index delta mid, increment? name ty value = some delta ∧
      slot name frame = .ok index mid ∧ index ≤ 255 ∧
      Emitted (.apply .iinc (.step index delta)) 0 0 mid after) ∨
    (done = false ∧ Grows frame after ∧ after.code = frame.code) := by
  have grows := (Builds.tryIncrement name ty value h).grows
  rw [tryIncrement] at h
  cases known : increment? name ty value with
  | none =>
      rw [known] at h
      obtain ⟨rfl, rfl⟩ := Action.pure_eq_ok.mp h
      exact .inr ⟨rfl, grows, rfl⟩
  | some delta =>
      rw [known] at h
      obtain ⟨index, mid, hslot, h⟩ := Action.bind_eq_ok.mp h
      split at h
      next small =>
        obtain ⟨_, last, hadd, hdone⟩ := Action.bind_eq_ok.mp h
        obtain ⟨rfl, rfl⟩ := Action.pure_eq_ok.mp hdone
        rw [Emit.increment, if_neg (by simpa using small)] at hadd
        exact .inl ⟨rfl, index, delta, mid, rfl, hslot, small,
          emit_apply rfl hadd⟩
      next =>
        obtain ⟨rfl, rfl⟩ := Action.pure_eq_ok.mp h
        obtain ⟨_, rfl⟩ := slot_eq_ok hslot
        exact .inr ⟨rfl, grows, rfl⟩

theorem ret_eq_ok {ty : Ty} {operand : Option Operand}
    (h : ret ty operand frame = .ok () after) :
    (operand = none ∧ Emitted (.plain .vreturn) 0 0 frame after) ∨
    (∃ value mid op, operand = some value ∧
      load value frame = .ok () mid ∧ (op = .areturn ∨ op = .ireturn) ∧
      Emitted (.plain op) 1 0 mid after) := by
  cases operand with
  | none =>
      rw [ret] at h
      split at h
      · exact .inl ⟨rfl, emit_plain rfl h⟩
      · exact absurd h Action.throw_ne_ok
  | some value =>
      obtain ⟨_, mid, hload, h⟩ := Action.bind_eq_ok.mp h
      refine .inr ⟨value, mid, ?_⟩
      split at h
      · exact ⟨.areturn, rfl, hload, .inl rfl, emit_plain rfl h⟩
      · split at h
        · exact absurd h Action.throw_ne_ok
        · exact ⟨.ireturn, rfl, hload, .inr rfl, emit_plain rfl h⟩

private theorem depth_le_of_instr {code : Instr} {low high : Nat}
    (h : (isValue code = true → high = low + 1) ∧
      (isValue code = false → high ≤ low)) : high ≤ low + 1 := by
  cases known : isValue code with
  | true => exact Nat.le_of_eq (h.1 known)
  | false => exact Nat.le_succ_of_le (h.2 known)

/-- Only values leave the stack deeper than they found it. -/
theorem instr_depth {code : Instr}
    (h : instr linkage code frame = .ok () after) :
    (isValue code = true → after.code.depth = frame.code.depth + 1) ∧
      (isValue code = false → after.code.depth ≤ frame.code.depth) := by
  induction code generalizing frame after with
  | assign dest ty value ih =>
      refine ⟨by simp [isValue], fun _ => ?_⟩
      cases dest with
      | element array position =>
          obtain ⟨index, first, hslot, h⟩ := Action.bind_eq_ok.mp h
          obtain ⟨_, rfl⟩ := slot_eq_ok hslot
          obtain ⟨_, second, harray, h⟩ := Action.bind_eq_ok.mp h
          obtain ⟨_, third, hposition, h⟩ := Action.bind_eq_ok.mp h
          obtain ⟨_, fourth, hvalue, hstore⟩ := Action.bind_eq_ok.mp h
          have atArray := (slotLine_depth rfl harray).2
          have atPosition := load_depth hposition
          have atValue := depth_le_of_instr (ih hvalue)
          have atEnd := (emit_plain rfl hstore).depth
          simp only at atArray
          omega
      | var name ty' =>
          obtain ⟨done, mid, htry, h⟩ := Action.bind_eq_ok.mp h
          rcases tryIncrement_eq_ok htry with
            ⟨rfl, index, delta, first, _, hslot, _, emitted⟩ | ⟨rfl, _, same⟩
          · obtain ⟨_, rfl⟩ := Action.pure_eq_ok.mp h
            obtain ⟨_, rfl⟩ := slot_eq_ok hslot
            exact Nat.le_of_eq emitted.depth
          · obtain ⟨_, second, hvalue, hstore⟩ := Action.bind_eq_ok.mp h
            have atValue := depth_le_of_instr (ih hvalue)
            have atEnd := store_depth hstore
            rw [same] at atValue
            omega
      | literal word ty' => exact absurd h Action.throw_ne_ok
      | self className => exact absurd h Action.throw_ne_ok
      | field ref => exact absurd h Action.throw_ne_ok
  | single operand => exact ⟨fun _ => load_depth h, by simp [isValue]⟩
  | binary op left right ty =>
      obtain ⟨_, first, hleft, h⟩ := Action.bind_eq_ok.mp h
      obtain ⟨_, second, hright, hop⟩ := Action.bind_eq_ok.mp h
      have atLeft := load_depth hleft
      have atRight := load_depth hright
      have atEnd := operate_depth hop
      exact ⟨fun _ => by omega, by simp [isValue]⟩
  | not operand ty =>
      obtain ⟨_, first, hload, h⟩ := Action.bind_eq_ok.mp h
      obtain ⟨_, second, hone, hxor⟩ := Action.bind_eq_ok.mp h
      have atOperand := load_depth hload
      have atOne := (emit_plain rfl hone).depth
      have atEnd := (emit_plain rfl hxor).depth
      exact ⟨fun _ => by omega, by simp [isValue]⟩
  | call invocation =>
      have depth := call_depth h
      refine ⟨fun known => ?_, fun known => ?_⟩
      · simpa [show pushesResult invocation = true from known] using depth
      · simp [depth, show pushesResult invocation = false from known]
  | getField object field =>
      obtain ⟨_, mid, hload, hget⟩ := Action.bind_eq_ok.mp h
      have atObject := load_depth hload
      have atEnd := (emit_apply rfl hget).depth
      exact ⟨fun _ => by omega, by simp [isValue]⟩
  | putField object field value =>
      obtain ⟨_, first, hobject, h⟩ := Action.bind_eq_ok.mp h
      obtain ⟨_, second, hvalue, hput⟩ := Action.bind_eq_ok.mp h
      have atObject := load_depth hobject
      have atValue := load_depth hvalue
      have atEnd := (emit_apply rfl hput).depth
      exact ⟨by simp [isValue], fun _ => by omega⟩
  | branch condition label =>
      obtain ⟨_, mid, hload, hbranch⟩ := Action.bind_eq_ok.mp h
      have atCondition := load_depth hload
      have atEnd := (emit_apply rfl hbranch).depth
      exact ⟨by simp [isValue], fun _ => by omega⟩
  | goto label =>
      have atEnd := (emit_apply rfl h).depth
      exact ⟨by simp [isValue], fun _ => by omega⟩
  | ret ty operand =>
      refine ⟨by simp [isValue], fun _ => ?_⟩
      rcases ret_eq_ok h with
        ⟨_, emitted⟩ | ⟨value, mid, op, _, hload, _, emitted⟩
      · exact Nat.le_of_eq emitted.depth
      · have atValue := load_depth hload
        have atEnd := emitted.depth
        omega

theorem isValue_of_deeper {code : Instr}
    (h : instr linkage code frame = .ok () after)
    (deeper : frame.code.depth < after.code.depth) : isValue code = true := by
  by_contra isOther
  have := (instr_depth h).2 (by simpa using isOther)
  omega

/-! ## Increments -/

theorem step?_eq_some {name : String} {op : Operator}
    {left right : Operand} {step : Int}
    (h : step? name op left right = some step) :
    ∃ ty ty' word,
      (op = .add ∧ left = .var name ty ∧ right = .literal word ty' ∧
        step = word.toInt) ∨
      (op = .add ∧ left = .literal word ty' ∧ right = .var name ty ∧
        step = word.toInt) ∨
      (op = .sub ∧ left = .var name ty ∧ right = .literal word ty' ∧
        step = - word.toInt) := by
  have self {operand : Operand} (h : step?.isSelf name operand = true) :
      ∃ ty, operand = .var name ty := by
    cases operand with
    | var other ty =>
        obtain rfl : other = name := by simpa [step?.isSelf] using h
        exact ⟨ty, rfl⟩
    | _ => simp [step?.isSelf] at h
  have literal {operand : Operand} {step : Int}
      (h : step?.literal? operand = some step) :
      ∃ word ty, operand = .literal word ty ∧ step = word.toInt := by
    cases operand with
    | literal word ty =>
        cases h
        exact ⟨word, ty, rfl, rfl⟩
    | _ => simp [step?.literal?] at h
  cases op with
  | add =>
      simp only [step?] at h
      split at h
      next onLeft =>
        obtain ⟨ty, rfl⟩ := self onLeft
        obtain ⟨word, ty', rfl, rfl⟩ := literal h
        exact ⟨ty, ty', word, .inl ⟨rfl, rfl, rfl, rfl⟩⟩
      next =>
        split at h
        next onRight =>
          obtain ⟨ty, rfl⟩ := self onRight
          obtain ⟨word, ty', rfl, rfl⟩ := literal h
          exact ⟨ty, ty', word, .inr (.inl ⟨rfl, rfl, rfl, rfl⟩)⟩
        next => contradiction
  | sub =>
      simp only [step?] at h
      split at h
      next onLeft =>
        obtain ⟨ty, rfl⟩ := self onLeft
        obtain ⟨step', known, rfl⟩ := Option.map_eq_some_iff.mp h
        obtain ⟨word, ty', rfl, rfl⟩ := literal known
        exact ⟨ty, ty', word, .inr (.inr ⟨rfl, rfl, rfl, rfl⟩)⟩
      next => contradiction
  | mul | div | lt | gt | eq | ne | and => simp [step?] at h

theorem value_of_increment {setting : Ir.Setting} {name : String} {ty : Ty}
    {value : Instr} {delta : Int8}
    (exactly : setting.operate = Effect.operateExactly)
    (h : increment? name ty value = some delta) (vars : Locals) :
    value.value setting vars = (do
      let value ← Effect.read vars name
      let word ← Effect.word value
      pure (.word (word + delta.toInt32))) := by
  cases value with
  | binary op left right ty' =>
      obtain ⟨step, known, h⟩ := Option.bind_eq_some_iff.mp h
      split at h
      next bounds =>
        cases h
        obtain ⟨_, low, high⟩ := bounds
        rw [Int8.toInt32_ofInt low high]
        obtain ⟨_, _, word, found⟩ := step?_eq_some known
        rcases found with ⟨rfl, rfl, rfl, rfl⟩ | ⟨rfl, rfl, rfl, rfl⟩ |
          ⟨rfl, rfl, rfl, rfl⟩
        · simp [Instr.value, exactly, Operand.read, Effect.operateExactly,
            Effect.word, Operator.apply, Int32.ofInt_add]
        · simp [Instr.value, exactly, Operand.read, Effect.operateExactly,
            Effect.word, Operator.apply, Int32.ofInt_add, Int32.add_comm]
        · simp [Instr.value, exactly, Operand.read, Effect.operateExactly,
            Effect.word, Operator.apply, Int32.ofInt_sub, Int32.ofInt_neg,
            Int32.sub_eq_add_neg]
      next => contradiction
  | _ => simp [increment?] at h

end Gen

/-! ## Running instructions -/

namespace Execution

structure Stored (exec : Execution) (vars : Locals) (slots : Slots) :
    Prop where
  held : exec.Held vars slots
  self : exec.hasSelf = true → slots 0 = some exec.setting.self

structure Ready (exec : Execution) (linkage : Linkage) (code : Instr) :
    Prop where
  fields : ∀ field, code.field? = some field →
    exec.runtime.field? (Gen.fieldTarget linkage field) =
      some (linkage.fieldId field)
  fits : ∀ call, code.call? = some call → call.kind ≠ .new → ∀ owner name,
    linkage.owner? call = some owner → call.method = some name →
    ∃ method, Fits exec.runtime linkage call method
  self : ∀ operand ∈ code.operands, operand.usesSelf = true →
    exec.hasSelf = true
  kept : ∀ name ty, code.dest? = some (.var name ty) →
    exec.hasSelf = true → name ≠ "this"
  target : ∀ name, code.target? = some name →
    (exec.labels.lookup name).isSome ∧ .label name ∈ exec.lines

variable {exec : Execution} {linkage : Linkage} {frame after : Frame}
  {stack : List Value} {slots : Slots} {seen : List String} {start : State}
  {β : Type} {vars : Locals} {code : Instr}

theorem Ready.assigned {dest : Operand} {ty : Ty} {value : Instr}
    (ready : exec.Ready linkage (.assign dest ty value))
    (known : isValue value = true) : exec.Ready linkage value where
  fields := ready.fields
  fits := ready.fits
  self operand member := ready.self operand (List.mem_cons_of_mem _ member)
  kept name ty assigns := by
    cases value with
    | assign => cases known
    | _ => cases assigns
  target name jumps := by
    cases value with
    | branch | goto => cases known
    | _ => cases jumps

theorem Stored.set (stored : exec.Stored vars slots)
    (linked : exec.Linked linkage) {name : String}
    (member : name ∈ exec.registers.names)
    (kept : exec.hasSelf = true → name ≠ "this") (value : Value) :
    exec.Stored (vars.set name value)
      (slots.set (exec.registers.slot name) value) where
  held := stored.held.set linked.small member value
  self hasSelf := by
    obtain ⟨rest, names⟩ := List.head?_eq_some_iff.mp (linked.receiver hasSelf)
    have first : exec.registers.slot "this" = 0 := by
      simp [Registers.slot, names]
    have apart : 0 ≠ exec.registers.slot name := by
      intro same
      refine kept hasSelf (slot_injective linked.small member ?_ ?_)
      · simp [names]
      · rw [← same, first]
    rw [Slots.set, if_neg apart]
    exact stored.self hasSelf

theorem value_runs {next : Value → Effect β}
    {post : β → World → State → Prop} (linked : exec.Linked linkage)
    (ready : exec.Ready linkage code) (known : isValue code = true)
    (h : Gen.instr linkage code frame = .ok () after)
    (within : exec.Within after) (fresh : frame.Fresh)
    (here : exec.At frame stack slots seen start)
    (stored : exec.Stored vars slots)
    (rest : ∀ reached value, exec.At after (value :: stack) slots seen reached →
      exec.Runs seen reached (next value reached.world) post) :
    exec.Runs seen start
      ((code.value exec.setting vars >>= next) start.world) post := by
  have self : ∀ operand ∈ code.operands, operand.usesSelf = true →
      slots 0 = some exec.setting.self :=
    fun operand member uses => stored.self (ready.self operand member uses)
  cases code with
  | single operand =>
      exact load_runs h within here stored.held (self operand (by
        simp [Instr.operands])) rest
  | binary op left right ty =>
      obtain ⟨_, first, hleft, h⟩ := Action.bind_eq_ok.mp h
      obtain ⟨_, second, hright, hop⟩ := Action.bind_eq_ok.mp h
      have growsLeft := (Builds.load left hleft).grows
      have growsRight := (Builds.load right hright).grows
      have withinSecond := within.before (Builds.operate op hop).grows
      have withinFirst := withinSecond.before growsRight
      simp only [Instr.value, bind_assoc, linked.operate]
      refine load_runs hleft withinFirst here stored.held
        (self left (by simp [Instr.operands])) fun atLeft x pastLeft => ?_
      refine load_runs hright withinSecond pastLeft stored.held
        (self right (by simp [Instr.operands])) fun atRight y pastRight => ?_
      exact operate_runs hop within
        ((fresh.after growsLeft).after growsRight) linked.apart pastRight rest
  | not operand ty =>
      obtain ⟨_, first, hload, h⟩ := Action.bind_eq_ok.mp h
      obtain ⟨_, second, hone, hxor⟩ := Action.bind_eq_ok.mp h
      have one := Gen.emit_plain rfl hone
      have xor := Gen.emit_plain rfl hxor
      have withinSecond := within.before (xor.grows (by simp))
      have withinFirst := withinSecond.before (one.grows (by simp))
      simp only [Instr.value, bind_assoc]
      refine load_runs hload withinFirst here stored.held
        (self operand (by simp [Instr.operands])) fun loaded x past => ?_
      cases isTruth : x.truth? with
      | none =>
          rw [Effect.truth, isTruth]
          exact .stuck
      | some truth =>
          have truths : Effect.truth x = pure truth := by
            rw [Effect.truth, isTruth]
          have flips (truth : Bool) : (if truth then 1 else 0 : Int32) ^^^ 1 =
              if !truth then 1 else 0 := by
            cases truth <;> decide
          obtain rfl := Value.eq_ofBool_of_truth? isTruth
          rw [truths, pure_bind]
          refine silent_runs one withinSecond past rfl fun pushed past => ?_
          refine line_runs (fun value => value :: stack) (fun _ => slots) xor
            within past ?_ fun value reached past => rest reached value past
          simp [Line.run, Opcode.run, onWords, push, Effect.word,
            Value.ofBool, flips]
  | call invocation =>
      refine call_runs linked (ready.fits invocation rfl) h within here
        stored.held self fun reached value past => rest reached value ?_
      simpa [show pushesResult invocation = true from known] using past
  | getField object field =>
      obtain ⟨_, mid, hload, hget⟩ := Action.bind_eq_ok.mp h
      have emitted := Gen.emit_apply rfl hget
      simp only [Instr.value, bind_assoc, linked.field]
      refine load_runs hload (within.before (emitted.grows (by simp))) here
        stored.held (self object (by simp [Instr.operands]))
        fun loaded x past => ?_
      refine line_runs (fun value => value :: stack) (fun _ => slots) emitted
        within past ?_ fun value reached past => rest reached value past
      simp only [Line.run, Opcode.runWith, getField, ready.fields field rfl]
      rfl
  | assign | putField | branch | goto | ret => cases known

/--
The machine goes on as an instruction says: with an empty stack behind its
code or at a label, or it is about to return.
-/
def Goes (exec : Execution) (after : Frame) (vars : Locals)
    (seen : List String) : Ir.Control → State → Prop
  | .next vars, state =>
      ∃ slots, exec.Stored vars slots ∧ exec.At after [] slots seen state
  | .jump name, state =>
      exec.Stored vars state.slots ∧ state.stack = [] ∧
        state.pc = exec.lines.idxOf (.label name) ∧
        exec.visible state = seen ++ [name]
  | .ret value, state =>
      step exec.runtime exec.lines state = .done (.returned value) state ∧
        exec.visible state = seen

theorem goes_on {vars' : Locals} (stored : exec.Stored vars' slots)
    (here : exec.At after [] slots seen start) :
    exec.Runs seen start (.ok (.next vars') start.world)
      fun control _ state => exec.Goes after vars seen control state :=
  .ok rfl ⟨slots, stored, here⟩

theorem assignElement_runs {array : String} {position : Operand} {ty : Ty}
    {value : Instr} (linked : exec.Linked linkage)
    (ready : exec.Ready linkage (.assign (.element array position) ty value))
    (h : Gen.instr linkage (.assign (.element array position) ty value) frame =
      .ok () after)
    (empty : frame.code.depth = 0) (within : exec.Within after)
    (fresh : frame.Fresh) (here : exec.At frame [] slots seen start)
    (stored : exec.Stored vars slots) :
    exec.Runs seen start
      ((Instr.assign (.element array position) ty value).run exec.setting vars
        start.world)
      fun control _ state => exec.Goes after vars seen control state := by
  obtain ⟨index, first, hslot, h⟩ := Action.bind_eq_ok.mp h
  obtain ⟨_, second, harray, h⟩ := Action.bind_eq_ok.mp h
  obtain ⟨_, third, hposition, h⟩ := Action.bind_eq_ok.mp h
  obtain ⟨_, fourth, hvalue, hstore⟩ := Action.bind_eq_ok.mp h
  have emitted := Gen.emit_plain rfl hstore
  have known : isValue value = true := by
    have atArray := (Gen.slotLine_depth rfl harray).2
    have atPosition := Gen.load_depth hposition
    have enough := emitted.enough
    obtain ⟨_, rfl⟩ := Gen.slot_eq_ok hslot
    simp only at atArray
    exact Gen.isValue_of_deeper hvalue (by omega)
  have growsSlot := (Builds.slot array hslot).grows
  have growsArray := (Builds.slotLine rfl index harray).grows
  have growsPosition := (Builds.load position hposition).grows
  have withinFourth := within.before (emitted.grows (by simp))
  have withinThird := withinFourth.before
    (Builds.instr linkage value hvalue).grows
  have withinSecond := withinThird.before growsPosition
  have freshThird := fresh.after
    ((growsSlot.trans growsArray).trans growsPosition)
  simp only [Instr.run]
  refine loadSlot_runs (.inr rfl) hslot harray withinSecond here stored.held
    fun atArray x pastArray => ?_
  refine load_runs hposition withinThird pastArray stored.held
    (fun uses => stored.self (ready.self (.element array position)
      (by simp [Instr.operands]) uses)) fun atPosition y pastPosition => ?_
  refine value_runs linked (ready.assigned known) known hvalue withinFourth
    freshThird pastPosition stored fun atValue z pastValue => ?_
  exact line_runs (fun _ => []) (fun _ => slots) emitted within pastValue rfl
    fun _ reached past => goes_on stored past

theorem assignVar_runs {name : String} {ty ty' : Ty} {value : Instr}
    (linked : exec.Linked linkage)
    (ready : exec.Ready linkage (.assign (.var name ty') ty value))
    (h : Gen.instr linkage (.assign (.var name ty') ty value) frame =
      .ok () after)
    (empty : frame.code.depth = 0) (within : exec.Within after)
    (fresh : frame.Fresh) (here : exec.At frame [] slots seen start)
    (stored : exec.Stored vars slots) :
    exec.Runs seen start
      ((Instr.assign (.var name ty') ty value).run exec.setting vars
        start.world)
      fun control _ state => exec.Goes after vars seen control state := by
  have kept := ready.kept name ty' rfl
  obtain ⟨done, mid, htry, h⟩ := Action.bind_eq_ok.mp h
  simp only [Instr.run]
  rcases Gen.tryIncrement_eq_ok htry with
    ⟨rfl, index, delta, first, increments, hslot, small, emitted⟩ |
    ⟨rfl, grows, same⟩
  · obtain ⟨_, rfl⟩ := Action.pure_eq_ok.mp h
    obtain ⟨rfl, member⟩ :=
      slot_runs hslot (within.before (emitted.grows (by simp)))
    have here' : exec.At first [] slots seen start := by
      obtain ⟨_, rfl⟩ := Gen.slot_eq_ok hslot
      exact ⟨here.pc, here.stack, here.slots, here.seen⟩
    simp only [Gen.value_of_increment linked.operate increments, bind_assoc,
      pure_bind]
    cases known : vars name with
    | none =>
        rw [Effect.read, known]
        exact .stuck
    | some old =>
        have reads : Effect.read vars name = pure old := by
          rw [Effect.read, known]
        rw [reads, pure_bind]
        refine line_runs (fun _ => []) (fun word => slots.set
          (exec.registers.slot name) (.word (word + delta.toInt32))) emitted
          within here' ?_ fun word reached past =>
            goes_on (stored.set linked member kept _) past
        simp only [Line.run, Opcode.runWith, addToSlot,
          (stored.held name old known).2, small, if_true]
  · obtain ⟨_, last, hvalue, hstore⟩ := Action.bind_eq_ok.mp h
    have known : isValue value = true := by
      have enough := (Gen.store_depth hstore).1
      exact Gen.isValue_of_deeper hvalue (by rw [same]; omega)
    have here' : exec.At mid [] slots seen start :=
      ⟨by rw [same, here.pc], here.stack, here.slots, here.seen⟩
    refine value_runs linked (ready.assigned known) known hvalue
      (within.before (Builds.store name ty hstore).grows) (fresh.after grows) here'
      stored fun atValue x past => ?_
    exact store_runs hstore within past fun reached member past =>
      goes_on (stored.set linked member kept x) past

theorem jump_runs {line : Line} {popped pushed : Nat} {name : String}
    (target : (exec.labels.lookup name).isSome ∧ .label name ∈ exec.lines)
    (emitted : Emitted line popped pushed frame after)
    (within : exec.Within after) (here : exec.At frame stack slots seen start)
    (run : line.run exec.runtime stack slots = pure (.jump name []))
    (stored : exec.Stored vars slots) :
    exec.Runs seen start (.ok (.jump name) start.world)
      fun control _ state => exec.Goes after vars seen control state := by
  have fetched := fetch emitted within
  rw [← here.pc] at fetched
  rw [← here.stack, ← here.slots] at run
  refine .of_step (step_jump fetched run target.2)
    (.ok rfl ⟨here.slots ▸ stored, rfl, rfl, ?_⟩)
  have shown := here.seen
  simp only [visible] at shown ⊢
  rw [List.filter_append, shown]
  simp [target.1]

theorem ret_runs {line : Line} {popped pushed : Nat} {value : Option Value}
    (emitted : Emitted line popped pushed frame after)
    (within : exec.Within after) (here : exec.At frame stack slots seen start)
    (run : line.run exec.runtime stack slots = pure (.ret value)) :
    exec.Runs seen start (.ok (.ret value) start.world)
      fun control _ state => exec.Goes after vars seen control state := by
  have fetched := fetch emitted within
  rw [← here.pc] at fetched
  have ran : line.run exec.runtime start.stack start.slots start.world =
      .ok (.ret value) start.world := by
    rw [here.stack, here.slots, run]
    rfl
  exact .ok rfl ⟨step_of_ok fetched ran, here.seen⟩

theorem dropped_runs {mid : Frame} {call : Call}
    (linked : exec.Linked linkage) (ready : exec.Ready linkage (.call call))
    (h : Gen.instr linkage (.call call) frame = .ok () mid)
    (hdrop : Gen.dropResult (.call call) mid = .ok () after)
    (empty : frame.code.depth = 0) (balanced : after.code.depth = 0)
    (within : exec.Within after) (here : exec.At frame [] slots seen start)
    (stored : exec.Stored vars slots) :
    exec.Runs seen start
      ((Instr.call call).run exec.setting vars start.world)
      fun control _ state => exec.Goes after vars seen control state := by
  have self (operand : Operand) (member : operand ∈ call.target :: call.args)
      (uses : operand.usesSelf = true) : slots 0 = some exec.setting.self :=
    stored.self (ready.self operand member uses)
  have depth := Gen.call_depth h
  have withinMid := within.before (Builds.dropResult _ hdrop).grows
  refine call_runs linked (ready.fits call rfl) h withinMid here stored.held
    self fun reached value past => ?_
  rw [Gen.dropResult] at hdrop
  cases isVoid : call.returnTy.isVoid with
  | true =>
      rw [isVoid] at hdrop
      obtain ⟨_, rfl⟩ := Action.pure_eq_ok.mp hdrop
      cases pushes : pushesResult call with
      | true =>
          rw [pushes, if_pos rfl] at depth
          omega
      | false =>
          rw [pushes] at past
          exact goes_on stored past
  | false =>
      rw [isVoid] at hdrop
      have emitted := Gen.emit_plain rfl hdrop
      have pushes : pushesResult call = true := by
        rw [pushesResult]
        split <;> simp [isVoid]
      rw [pushes] at past
      exact silent_runs emitted within past rfl fun last past =>
        goes_on stored past

/-- An instruction is run from an empty stack to an empty stack. -/
theorem instr_runs {mid : Frame} (linked : exec.Linked linkage)
    (ready : exec.Ready linkage code)
    (h : Gen.instr linkage code frame = .ok () mid)
    (hdrop : Gen.dropResult code mid = .ok () after)
    (empty : frame.code.depth = 0) (balanced : after.code.depth = 0)
    (within : exec.Within after) (fresh : frame.Fresh)
    (here : exec.At frame [] slots seen start)
    (stored : exec.Stored vars slots) :
    exec.Runs seen start (code.run exec.setting vars start.world)
      fun control _ state => exec.Goes after vars seen control state := by
  have self (operand : Operand) (member : operand ∈ code.operands)
      (uses : operand.usesSelf = true) : slots 0 = some exec.setting.self :=
    stored.self (ready.self operand member uses)
  cases code with
  | call invocation =>
      exact dropped_runs linked ready h hdrop empty balanced within here
        stored
  | single | binary | not | getField =>
      obtain ⟨_, rfl⟩ := Action.pure_eq_ok.mp hdrop
      have := (Gen.instr_depth h).1 rfl
      omega
  | assign dest ty value =>
      obtain ⟨_, rfl⟩ := Action.pure_eq_ok.mp hdrop
      cases dest with
      | element array position =>
          exact assignElement_runs linked ready h empty within fresh here
            stored
      | var name ty' =>
          exact assignVar_runs linked ready h empty within fresh here stored
      | literal | self | field => exact absurd h Action.throw_ne_ok
  | putField object field value =>
      obtain ⟨_, rfl⟩ := Action.pure_eq_ok.mp hdrop
      obtain ⟨_, first, hobject, h⟩ := Action.bind_eq_ok.mp h
      obtain ⟨_, second, hvalue, hput⟩ := Action.bind_eq_ok.mp h
      have emitted := Gen.emit_apply rfl hput
      have withinSecond := within.before (emitted.grows (by simp))
      simp only [Instr.run, linked.field]
      refine load_runs hobject (withinSecond.before (Builds.load _ hvalue).grows)
        here stored.held (self object (by simp [Instr.operands]))
        fun atObject x pastObject => ?_
      refine load_runs hvalue withinSecond pastObject stored.held
        (self value (by simp [Instr.operands])) fun atValue y pastValue => ?_
      refine line_runs (fun _ => []) (fun _ => slots) emitted within pastValue
        ?_ fun _ reached past => goes_on stored past
      simp only [Line.run, Opcode.runWith, putField, ready.fields field rfl]
  | branch condition label =>
      obtain ⟨_, rfl⟩ := Action.pure_eq_ok.mp hdrop
      obtain ⟨_, first, hload, hbranch⟩ := Action.bind_eq_ok.mp h
      have emitted := Gen.emit_apply rfl hbranch
      simp only [Instr.run]
      refine load_runs hload (within.before (emitted.grows (by simp))) here
        stored.held (self condition (by simp [Instr.operands]))
        fun loaded x past => ?_
      cases x with
      | null | array | object => exact .stuck
      | word word =>
          by_cases zero : word = 0
          · subst zero
            exact silent_runs emitted within past rfl fun reached past =>
              goes_on stored past
          · simp only [Effect.word, pure_bind, if_neg zero]
            refine jump_runs (ready.target label rfl) emitted within past ?_
              stored
            simp [Line.run, Opcode.runWith, branchOn, Effect.word,
              Test.holds, zero]
  | goto label =>
      obtain ⟨_, rfl⟩ := Action.pure_eq_ok.mp hdrop
      exact jump_runs (ready.target label rfl) (Gen.emit_apply rfl h) within
        here rfl stored
  | ret ty operand =>
      obtain ⟨_, rfl⟩ := Action.pure_eq_ok.mp hdrop
      rcases Gen.ret_eq_ok h with
        ⟨rfl, emitted⟩ | ⟨value, first, op, rfl, hload, isReturn, emitted⟩
      · exact ret_runs emitted within here rfl
      · simp only [Instr.run]
        refine load_runs hload (within.before (emitted.grows (by simp))) here
          stored.held (self value (by simp [Instr.operands]))
          fun loaded x past => ?_
        rcases isReturn with rfl | rfl
        · exact ret_runs emitted within past rfl
        · exact ret_runs emitted within past rfl

end Execution

end Jvm

end JavaMinus
