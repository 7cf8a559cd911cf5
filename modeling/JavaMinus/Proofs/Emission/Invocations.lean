import JavaMinus.Proofs.Emission.Discipline
import JavaMinus.Proofs.Emission.Refusals
import JavaMinus.Proofs.Lists
import JavaMinus.Proofs.Lowering.Sites

/-!
# Lines that call methods

Each call instruction has exactly one line that calls the method.  The lines
right before it load the receiver and the arguments, one line for each, and
the value of a call that is not used is dropped by the next line.
-/

namespace JavaMinus

open Ir (Operand Instr Call Registers)

namespace Jvm

/-! ## Lines -/

namespace Line

def isInvocation : Line → Bool
  | .apply .invokevirtual (.method _ _ _)
  | .apply .invokestatic (.method _ _ _) => true
  | _ => false

def isLoad : Line → Bool
  | .plain (.iconst _) | .plain (.iloadAt _) | .plain (.aloadAt _)
  | .apply .bipush _ | .apply .sipush _ | .apply .ldc _
  | .apply .iload _ | .apply .aload _ => true
  | _ => false

theorem isInvocation_of_isCall {line : Line} (h : line.isCall = false) :
    line.isInvocation = false := by
  cases line with
  | apply op arg =>
      cases arg with
      | method => simp [isCall] at h
      | _ => cases op <;> rfl
  | _ => rfl

theorem isInvocation_of_isLoad {line : Line} (h : line.isLoad = true) :
    line.isInvocation = false := by
  unfold isInvocation
  split
  · simp [isLoad] at h
  · simp [isLoad] at h
  · rfl

theorem isInvocation_of_isStraight {line : Line} (h : line.IsStraight) :
    line.isInvocation = false := by
  refine isInvocation_of_isCall ?_
  simp only [IsStraight, isStraight, Bool.and_eq_true, Bool.not_eq_true'] at h
  exact h.2

end Line

def IsQuiet (line : Line) : Prop := line.isInvocation = false

theorem countP_quiet {lines : List Line} (h : ∀ line ∈ lines, IsQuiet line) :
    lines.countP Line.isInvocation = 0 := by
  rw [List.countP_eq_zero]
  intro line member
  simpa [IsQuiet] using h line member

theorem Builds.quiet {α : Type} {action : Gen α}
    (h : Builds Line.IsStraight action) : Builds IsQuiet action :=
  h.mono fun _ => Line.isInvocation_of_isStraight

/-! ## Loads -/

def AddsLoad (before after : Frame) : Prop :=
  ∃ line, after.code.lines.toList = before.code.lines.toList ++ [line] ∧
    line.isLoad = true

theorem Emitted.addsLoad {line : Line} {popped pushed : Nat}
    {before after : Frame} (h : Emitted line popped pushed before after)
    (isLoad : line.isLoad = true) : AddsLoad before after :=
  ⟨line, by simp [h.lines], isLoad⟩

namespace Gen

variable {linkage : Linkage} {frame after : Frame}

theorem slotLine_addsLoad {op : Opcode} {index : UInt16}
    (isLoad : op = .iload ∨ op = .aload)
    (h : emit (.slot op index) frame = .ok () after) :
    AddsLoad frame after := by
  have known : op.effect? = some (0, 1) := by
    rcases isLoad with rfl | rfl <;> rfl
  rcases emit_slot known h with ⟨short, form, emitted⟩ | emitted
  · refine emitted.addsLoad ?_
    rw [Opcode.shortForm?] at form
    split at form
    · rcases isLoad with rfl | rfl <;> cases form <;> rfl
    · cases form
  · refine emitted.addsLoad ?_
    rcases isLoad with rfl | rfl <;> rfl

theorem int_addsLoad {value : Int32}
    (h : emit (.int value) frame = .ok () after) : AddsLoad frame after := by
  rw [Emit.int] at h
  split at h
  · exact (emit_plain rfl h).addsLoad rfl
  · split at h
    · exact (emit_apply rfl h).addsLoad rfl
    · split at h
      · exact (emit_apply rfl h).addsLoad rfl
      · exact (emit_apply rfl h).addsLoad rfl

theorem load_addsLoad {operand : Operand} (simple : operand.isSimple = true)
    (h : load operand frame = .ok () after) : AddsLoad frame after := by
  cases operand with
  | literal value ty => exact int_addsLoad h
  | var name ty =>
      obtain ⟨index, mid, hslot, h⟩ := Action.bind_eq_ok.mp h
      obtain ⟨_, rfl⟩ := slot_eq_ok hslot
      have adds := slotLine_addsLoad (by cases ty.isReference <;> simp) h
      exact adds
  | self className => exact (emit_plain rfl h).addsLoad rfl
  | element array position => simp [Operand.isSimple] at simple
  | field ref => simp [Operand.isSimple] at simple

theorem loadAll_lines {operands : List Operand}
    (simple : ∀ operand ∈ operands, operand.isSimple = true)
    (h : loadAll operands frame = .ok () after) :
    ∃ loads, after.code.lines.toList = frame.code.lines.toList ++ loads ∧
      loads.length = operands.length ∧ ∀ line ∈ loads, line.isLoad = true := by
  induction operands generalizing frame with
  | nil =>
      obtain ⟨_, rfl⟩ := Action.pure_eq_ok.mp h
      exact ⟨[], by simp⟩
  | cons operand rest ih =>
      obtain ⟨_, mid, hload, hrest⟩ := Action.bind_eq_ok.mp h
      obtain ⟨line, first, isLoad⟩ :=
        load_addsLoad (simple operand (by simp)) hload
      obtain ⟨loads, others, length, areLoads⟩ :=
        ih (fun operand member => simple operand (by simp [member])) hrest
      exact ⟨line :: loads, by simp [others, first], by simp [length],
        by simpa [isLoad] using areLoads⟩

/-! ## Instructions -/

theorem invoke_quiet {call : Call} (kind : call.kind = .special) :
    Builds IsQuiet (invoke linkage call) := by
  intro frame result after h
  obtain ⟨mid, hload, emitted⟩ := invoke_eq_ok h
  refine (Builds.quiet (.loadAll _) hload).trans
    (.single (.line emitted rfl ?_))
  rw [kind]
  rfl

theorem invoke_object {call : Call} {frame after : Frame}
    (kind : call.kind = .virtual)
    (h : Gen.invoke linkage call frame = .ok () after) :
    call.target.ty.className? ≠ none := by
  intro noClass
  rw [Gen.invoke] at h
  cases named : call.method with
  | none =>
      rw [named] at h
      exact Action.throw_ne_ok h
  | some method =>
      rw [named] at h
      obtain ⟨_, mid, hload, h⟩ := Action.bind_eq_ok.mp h
      obtain ⟨found, _, hdispatch, _⟩ := Action.bind_eq_ok.mp h
      rw [dispatch, kind] at hdispatch
      simp only [noClass] at hdispatch
      exact Action.throw_ne_ok hdispatch

theorem call_quiet {call : Call} (notVirtual : call.kind ≠ .virtual)
    (notStatic : call.kind ≠ .static) :
    Builds IsQuiet (Gen.call linkage call) := by
  rw [Gen.call]
  cases kind : call.kind with
  | new => exact .quiet (.allocate linkage call)
  | arrayLength => exact .bind (.quiet (.load _)) fun _ => .plain rfl rfl
  | special => exact invoke_quiet kind
  | virtual => exact absurd kind notVirtual
  | static => exact absurd kind notStatic

theorem instr_quiet {code : Instr} (quiet : code.invocation? = none) :
    Builds IsQuiet (instr linkage code) := by
  induction code with
  | assign dest ty value ih =>
      have inside : value.invocation? = none := by
        simpa [Instr.invocation?, Instr.call?] using quiet
      cases dest with
      | element array position =>
          exact .bind (.quiet (.slot array)) fun index =>
            .bind (.quiet (.slotLine rfl index)) fun _ =>
            .bind (.quiet (.load position)) fun _ =>
            .bind (ih inside) fun _ => .plain rfl rfl
      | var name ty' =>
          refine .bind (.quiet (.tryIncrement name ty value)) fun done => ?_
          cases done with
          | true => exact .pure ()
          | false => exact .bind (ih inside) fun _ => .quiet (.store name ty)
      | literal word ty' => exact .throw _
      | self className => exact .throw _
      | field ref => exact .throw _
  | single operand => exact .quiet (.load operand)
  | binary op left right ty =>
      exact .quiet (.bind (.load left) fun _ =>
        .bind (.load right) fun _ => .operate op)
  | not operand ty =>
      exact .quiet (.bind (.load operand) fun _ =>
        .bind (.plain rfl rfl) fun _ => .plain rfl rfl)
  | call invocation =>
      have other : ¬ (invocation.kind = .virtual ∨
          invocation.kind = .static) := by
        simpa [Instr.invocation?, Instr.call?] using quiet
      exact call_quiet (fun kind => other (.inl kind))
        fun kind => other (.inr kind)
  | getField object field =>
      exact .quiet (.bind (.load object) fun _ => .apply rfl rfl rfl)
  | putField object field value =>
      exact .quiet (.bind (.load object) fun _ =>
        .bind (.load value) fun _ => .apply rfl rfl rfl)
  | branch condition label =>
      exact .bind (.quiet (.load condition)) fun _ => .apply rfl rfl rfl
  | goto label => exact .apply rfl rfl rfl
  | ret ty operand =>
      cases operand with
      | none =>
          rw [instr, ret]
          split
          · exact .plain rfl rfl
          · exact .throw _
      | some operand =>
          refine .bind (.quiet (.load operand)) fun _ => ?_
          split
          · exact .plain rfl rfl
          · split
            · exact .throw _
            · exact .plain rfl rfl

end Gen

theorem Built.quiet_adds {before after : Frame}
    (h : Built IsQuiet before after) : Adds IsQuiet before after := by
  refine h.preserves (motive := Adds IsQuiet before)
    (fun _ _ step adds => adds.trans ?_) (.refl before)
  cases step with
  | line emitted _ quiet => exact .emitted emitted quiet
  | slot => exact .refl _
  | compare compared =>
      refine ⟨_, compared.lines, ?_⟩
      simp [comparisonLines, IsQuiet, Line.isInvocation]

def callLine (linkage : Linkage) (call : Call) : Line :=
  .apply (invocation call.kind) (.method (linkage.target call)
    (loaded call).length (if call.returnTy.isVoid then 0 else 1))

namespace Emits

variable {linkage : Linkage} {code : Instr} {before after : Frame}

theorem quiet_adds (h : Emits linkage code before after)
    (quiet : code.invocation? = none) : Adds IsQuiet before after := by
  obtain ⟨mid, hinstr, hdrop, _⟩ := h
  exact (Gen.instr_quiet quiet hinstr).quiet_adds.trans
    ((Builds.dropResult code).quiet hdrop).quiet_adds

end Emits

/-! ## Calls in lowered code -/

structure CallsMethod (code : Instr) (call : Call) (isBare : Bool) :
    Prop where
  invokes : call.Invokes
  form : (isBare = true ∧ code = .call call) ∨
    (isBare = false ∧ ∃ name ty, code = .store (.var name ty) (.call call))

theorem Ir.Instr.invocation?_call {call call' : Call} {isBare : Bool}
    (h : (Instr.call call).invocation? = some (call', isBare)) :
    call = call' ∧ isBare = true := by
  obtain ⟨_, known, same⟩ := Option.map_eq_some_iff.mp h
  obtain ⟨found, _⟩ := Option.filter_eq_some_iff.mp known
  cases found
  cases same
  exact ⟨rfl, rfl⟩

theorem callsMethod_of_executes {scope : Scope} {written : String → Prop}
    {first last : Supply} {code : Instr} {call : Call} {isBare : Bool}
    (h : Lowering.Executes scope written first last code)
    (found : code.invocation? = some (call, isBare)) :
    CallsMethod code call isBare := by
  have stored {name : String} {ty : Ty} {value : Instr}
      (yields : value.Yields)
      (found : (Instr.store (.var name ty) value).invocation? =
        some (call, isBare)) :
      CallsMethod (.store (.var name ty) value) call isBare := by
    cases yields with
    | single | binary | not | getField | newObject | newArray | length =>
        cases found
    | invoke invokes =>
        obtain ⟨_, known, same⟩ := Option.map_eq_some_iff.mp found
        obtain ⟨isCall, _⟩ := Option.filter_eq_some_iff.mp known
        cases isCall
        cases same
        exact ⟨invokes, .inr ⟨rfl, name, ty, rfl⟩⟩
  cases h with
  | evaluates h =>
      cases h with
      | store _ yields => exact stored yields found
      | invoke invokes =>
          obtain ⟨rfl, rfl⟩ := Ir.Instr.invocation?_call found
          exact ⟨invokes, .inl ⟨rfl, rfl⟩⟩
      | element | start | branch | goto => cases found
  | assign _ _ yields => exact stored yields found
  | assignElement | putField | ret | retVoid => cases found

structure Invokes (linkage : Linkage) (call : Call) (isBare : Bool)
    (before after : Frame) (loads rest : List Line) : Prop where
  lines : after.code.lines.toList = before.code.lines.toList ++
    (loads ++ callLine linkage call :: rest)
  count : loads.length = (loaded call).length
  loads : ∀ line ∈ loads, line.isLoad = true
  quiet : ∀ line ∈ rest, IsQuiet line
  dropped : isBare = true →
    rest = if call.returnTy.isVoid then [] else [.plain .pop]
  object : call.kind = .virtual → call.target.ty.className? ≠ none

theorem Invokes.loads_quiet {linkage : Linkage} {call : Call} {isBare : Bool}
    {before after : Frame} {loads rest : List Line}
    (h : Invokes linkage call isBare before after loads rest) :
    ∀ line ∈ loads, IsQuiet line :=
  fun line member => Line.isInvocation_of_isLoad (h.loads line member)

theorem CallsMethod.isInvocation {code : Instr} {call : Call} {isBare : Bool}
    (h : CallsMethod code call isBare) (linkage : Linkage) :
    (callLine linkage call).isInvocation = true := by
  rcases h.invokes.target with ⟨kind, _⟩ | ⟨kind, _⟩ <;>
    rw [callLine, kind] <;> rfl

theorem Emits.invokes {linkage : Linkage} {code : Instr} {call : Call}
    {isBare : Bool} {before after : Frame}
    (h : Emits linkage code before after)
    (calls : CallsMethod code call isBare) :
    ∃ loads rest, Invokes linkage call isBare before after loads rest := by
  obtain ⟨mid, hinstr, hdrop, _⟩ := h
  have simple := Gen.loaded_isSimple calls.invokes
  rcases calls.form with ⟨rfl, rfl⟩ | ⟨rfl, name, ty, rfl⟩
  · rw [Gen.instr, Gen.call_of_invokes linkage calls.invokes] at hinstr
    obtain ⟨first, hload, emitted⟩ := Gen.invoke_eq_ok hinstr
    obtain ⟨loads, lines, count, areLoads⟩ := Gen.loadAll_lines simple hload
    refine ⟨loads,
      if call.returnTy.isVoid then [] else [.plain .pop], ?_, count, areLoads,
      ?_, fun _ => rfl, fun kind => Gen.invoke_object kind hinstr⟩
    · rw [Gen.dropResult] at hdrop
      split at hdrop
      next isVoid =>
        obtain ⟨_, rfl⟩ := Action.pure_eq_ok.mp hdrop
        simp [emitted.lines, lines, isVoid, callLine]
      next notVoid =>
        simp [(Gen.emit_plain rfl hdrop).lines, emitted.lines, lines, notVoid,
          callLine]
    · split <;> simp [IsQuiet, Line.isInvocation]
  · obtain ⟨_, rfl⟩ := Action.pure_eq_ok.mp hdrop
    obtain ⟨done, first, htry, h⟩ := Action.bind_eq_ok.mp hinstr
    obtain ⟨rfl, rfl⟩ := Action.pure_eq_ok.mp htry
    obtain ⟨_, second, hcall, hstore⟩ := Action.bind_eq_ok.mp h
    rw [Gen.instr, Gen.call_of_invokes linkage calls.invokes] at hcall
    obtain ⟨third, hload, emitted⟩ := Gen.invoke_eq_ok hcall
    obtain ⟨loads, lines, count, areLoads⟩ := Gen.loadAll_lines simple hload
    obtain ⟨rest, stores, quiet⟩ :=
      ((Builds.store name ty).quiet hstore).quiet_adds
    refine ⟨loads, rest, ?_, count, areLoads, quiet, by simp,
      fun kind => Gen.invoke_object kind hcall⟩
    simp [stores, emitted.lines, lines, callLine]

/-! ## First lines -/

/-- Lines were added to an empty stack, so that the first one pops nothing. -/
def Opens (before after : Frame) : Prop :=
  ∃ added, after.code.lines.toList = before.code.lines.toList ++ added ∧
    (∀ line, added.head? = some line → line.popped = 0) ∧
    (added = [] → after.code.depth = 0)

theorem Opens.snoc {before mid after : Frame} {line : Line} {pushed : Nat}
    (h : Opens before mid)
    (emitted : Emitted line line.popped pushed mid after) :
    Opens before after := by
  obtain ⟨added, lines, first, isEmpty⟩ := h
  refine ⟨added ++ [line], by simp [emitted.lines, lines], ?_, by simp⟩
  cases added with
  | nil =>
      have enough := emitted.enough
      rw [isEmpty rfl] at enough
      simpa using Nat.le_zero.mp enough
  | cons head rest => simpa using first

theorem Built.opens {allowed : Line → Prop} {before after : Frame}
    (h : Built allowed before after) (empty : before.code.depth = 0) :
    Opens before after := by
  refine h.preserves (motive := Opens before) (fun _ _ step opens => ?_)
    ⟨[], by simp, by simp, fun _ => empty⟩
  cases step with
  | line emitted _ _ => exact opens.snoc emitted
  | slot => exact opens
  | compare compared =>
      obtain ⟨added, lines, first, isEmpty⟩ := opens
      refine ⟨_, by rw [compared.lines, lines, List.append_assoc], ?_,
        by simp [comparisonLines]⟩
      cases added with
      | nil =>
          have enough := compared.enough
          rw [isEmpty rfl] at enough
          omega
      | cons head rest => simpa using first

theorem Emits.opens {linkage : Linkage} {code : Instr} {before after : Frame}
    (h : Emits linkage code before after) (empty : before.code.depth = 0) :
    Opens before after := by
  obtain ⟨mid, built, rfl | ⟨line, _, emitted⟩⟩ := h.cases empty
  · exact built.opens empty
  · exact (built.opens empty).snoc emitted

/-! ## Bodies -/

def CallsPlainly (source : Ir.Method) : Prop :=
  ∀ code ∈ source.instrs, ∀ call isBare,
    code.invocation? = some (call, isBare) → CallsMethod code call isBare

namespace Laid

variable {linkage : Linkage} {source : Ir.Method} {final : Frame}
  {index : Nat}

theorem opens (laid : Laid linkage source final)
    (avoids : source.AvoidsComparisons)
    (inside : index ≤ source.instrs.length) :
    ∃ rest, final.code.lines.toList =
        (boundary linkage source index).code.lines.toList ++ rest ∧
      ∀ line, rest.head? = some line → line.popped = 0 := by
  -- The induction is on the number of instructions that are left.
  obtain ⟨more, total⟩ := Nat.exists_eq_add_of_le inside
  induction more generalizing index with
  | zero =>
      obtain rfl : index = source.instrs.length := total.symm
      exact ⟨[], by simp [laid.boundary_length], by simp⟩
  | succ more ih =>
      have bound : index < source.instrs.length := by omega
      obtain ⟨done, emits, marked⟩ :=
        laid.boundary_succ (List.getElem?_eq_getElem bound)
      obtain ⟨rest, lines, first⟩ := ih bound (by omega)
      obtain ⟨added, adds, opens, _⟩ := emits.opens (laid.empty avoids inside)
      refine ⟨added ++ (source.labels.before (index + 1)).map .label ++ rest,
        by simp [lines, marked.lines, adds], ?_⟩
      cases added with
      | cons head added => simpa using opens
      | nil =>
          cases source.labels.before (index + 1) with
          | cons name names => simp [Line.popped, Line.effect]
          | nil => simpa using first

theorem countP_boundary (laid : Laid linkage source final)
    (calls : CallsPlainly source) (inside : index ≤ source.instrs.length) :
    (boundary linkage source index).code.lines.toList.countP
        Line.isInvocation =
      ((source.instrs.take index).filterMap Instr.invocation?).length := by
  induction index with
  | zero =>
      simp [laid.boundary_zero.lines, Line.isInvocation]
  | succ index ih =>
      have fetch := List.getElem?_eq_getElem inside
      obtain ⟨done, emits, marked⟩ := laid.boundary_succ fetch
      have labels : ((source.labels.before (index + 1)).map
          Line.label).countP Line.isInvocation = 0 :=
        countP_quiet (by simp [IsQuiet, Line.isInvocation])
      rw [marked.lines, List.countP_append, labels,
        List.take_succ_eq_append_getElem inside, List.filterMap_append,
        List.length_append, ← ih (Nat.le_of_lt inside)]
      cases found : source.instrs[index].invocation? with
      | none =>
          obtain ⟨added, lines, quiet⟩ := emits.quiet_adds found
          simp [lines, countP_quiet quiet, found]
      | some made =>
          have made := calls _ (List.getElem_mem inside) made.1 made.2 found
          obtain ⟨loads, rest, invokes⟩ := emits.invokes made
          simp [invokes.lines, countP_quiet invokes.loads_quiet,
            countP_quiet invokes.quiet, made.isInvocation linkage, found]

/-- Calls are made in order, each at an empty stack. -/
theorem invocation (laid : Laid linkage source final)
    (avoids : source.AvoidsComparisons) (calls : CallsPlainly source)
    {place : Nat} {call : Call} {isBare : Bool}
    (found : (source.instrs.filterMap Instr.invocation?)[place]? =
      some (call, isBare)) :
    ∃ front loads rest,
      final.code.lines.toList =
        front ++ (loads ++ callLine linkage call :: rest) ∧
      front.countP Line.isInvocation = place ∧ depthAfter front = 0 ∧
      loads.length = (loaded call).length ∧
      (∀ line ∈ loads, line.isLoad = true) ∧
      (isBare = true →
        (rest.head? = some (.plain .pop) ↔ call.returnTy.isVoid = false)) ∧
      (call.kind = .virtual → call.target.ty.className? ≠ none) := by
  obtain ⟨index, code, fetch, isCall, before⟩ := exists_of_filterMap found
  obtain ⟨inside, rfl⟩ := List.getElem?_eq_some_iff.mp fetch
  obtain ⟨done, emits, marked⟩ := laid.boundary_succ fetch
  have calls' := calls _ (List.getElem_mem inside) call isBare isCall
  obtain ⟨loads, rest, invokes⟩ := emits.invokes calls'
  obtain ⟨tail, lines, first⟩ := laid.opens avoids inside
  refine ⟨(boundary linkage source index).code.lines.toList, loads,
    rest ++ (source.labels.before (index + 1)).map .label ++ tail, ?_, ?_, ?_,
    invokes.count, invokes.loads, ?_, invokes.object⟩
  · simp [lines, marked.lines, invokes.lines]
  · rw [laid.countP_boundary calls (Nat.le_of_lt inside), before]
  · rw [(laid.sound avoids (Nat.le_of_lt inside)).counted,
      laid.empty avoids (Nat.le_of_lt inside)]
  · intro isDropped
    rw [invokes.dropped isDropped]
    cases isVoid : call.returnTy.isVoid with
    | false => simp
    | true =>
        simp only [if_true, List.nil_append, Bool.true_eq_false, iff_false]
        cases source.labels.before (index + 1) with
        | cons name names => simp
        | nil =>
            -- There is nothing on the stack that the next line could drop.
            intro isPop
            exact absurd (first _ isPop) (by decide)

end Laid

end Jvm

end JavaMinus
