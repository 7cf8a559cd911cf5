import JavaMinus.Proofs.Emission.Progress
import JavaMinus.Proofs.Lowering.Renaming

/-!
# Emitting code under other names

A variable gets its slot when it is first met, and its name is not looked at
again.  An instruction under other names is emitted as the same lines: only
the labels are called differently.
-/

namespace JavaMinus

open Ir (Operand Instr Call CallKind Labels Registers)

/-! ## Actions -/

/--
From related states the second action gives the value of the first and leads
to related states, or both fail.
-/
def Mirrors {ε σ α : Type} (related : σ → σ → Prop)
    (action action' : EStateM ε σ α) : Prop :=
  ∀ state state', related state state' →
    match action state with
    | .ok value after =>
        ∃ after', action' state' = .ok value after' ∧ related after after'
    | .error _ _ => ∃ cause after', action' state' = .error cause after'

namespace Mirrors

variable {ε σ α β : Type} {related : σ → σ → Prop}

theorem pure (value : α) :
    Mirrors related (pure value : EStateM ε σ α) (pure value) :=
  fun _ state' h => ⟨state', rfl, h⟩

theorem throw (cause cause' : ε) :
    Mirrors related (throw cause : EStateM ε σ α) (throw cause') :=
  fun _ state' _ => ⟨cause', state', rfl⟩

theorem bind {first first' : EStateM ε σ α}
    {second second' : α → EStateM ε σ β} (h : Mirrors related first first')
    (h' : ∀ value, Mirrors related (second value) (second' value)) :
    Mirrors related (first >>= second) (first' >>= second') := by
  intro state state' isRelated
  have outcome := h state state' isRelated
  cases ran : first state with
  | ok value mid =>
      rw [ran] at outcome
      obtain ⟨mid', ran', isRelated'⟩ := outcome
      rw [Action.bind_of_ok ran, Action.bind_of_ok ran']
      exact h' value mid mid' isRelated'
  | error cause mid =>
      rw [ran] at outcome
      obtain ⟨cause', mid', ran'⟩ := outcome
      rw [Action.bind_of_error ran]
      exact ⟨cause', mid', Action.bind_of_error ran'⟩

end Mirrors

namespace Jvm

/-! ## Lines -/

def Argument.relabel (labels : Equiv.Perm String) : Argument → Argument
  | .label name => .label (labels name)
  | arg => arg

def Line.relabel (labels : Equiv.Perm String) : Line → Line
  | .label name => .label (labels name)
  | .plain op => .plain op
  | .apply op arg => .apply op (arg.relabel labels)

/-- The same lines, but for the order of labels at one place. -/
inductive Shuffled : List Line → List Line → Prop where
  | refl (lines : List Line) : Shuffled lines lines
  | cons (line : Line) {lines lines' : List Line}
      (h : Shuffled lines lines') : Shuffled (line :: lines) (line :: lines')
  | swap (first second : String) (lines : List Line) :
      Shuffled (.label first :: .label second :: lines)
        (.label second :: .label first :: lines)
  | trans {first second third : List Line} (h : Shuffled first second)
      (h' : Shuffled second third) : Shuffled first third

namespace Shuffled

variable {lines lines' more more' : List Line}

theorem append_left (front : List Line) (h : Shuffled lines lines') :
    Shuffled (front ++ lines) (front ++ lines') := by
  induction front with
  | nil => exact h
  | cons line front ih => exact .cons line ih

theorem append_right (h : Shuffled lines lines') (back : List Line) :
    Shuffled (lines ++ back) (lines' ++ back) := by
  induction h with
  | refl lines => exact .refl _
  | cons line _ ih => exact .cons line ih
  | swap first second lines => exact .swap first second _
  | trans _ _ ih ih' => exact ih.trans ih'

theorem append (h : Shuffled lines lines') (h' : Shuffled more more') :
    Shuffled (lines ++ more) (lines' ++ more') :=
  (h.append_right more).trans (h'.append_left lines')

theorem of_perm {names names' : List String} (h : names.Perm names') :
    Shuffled (names.map .label) (names'.map .label) := by
  induction h with
  | nil => exact .refl []
  | cons name _ ih => exact .cons (.label name) ih
  | swap first second names => exact .swap second first _
  | trans _ _ ih ih' => exact ih.trans ih'

end Shuffled

structure Code.Relabelled (labels : Equiv.Perm String) (code code' : Code) :
    Prop where
  depth : code'.depth = code.depth
  peak : code'.peak = code.peak
  lines : Shuffled (code.lines.toList.map (Line.relabel labels))
    code'.lines.toList

namespace Emit

variable {labels : Equiv.Perm String}

theorem pop_mirrors (op : Opcode) (count : Nat) :
    Mirrors (Code.Relabelled labels) (pop op count) (pop op count) := by
  intro code code' h
  have depth := h.depth
  by_cases short : code.depth < count
  · rw [pop_of_lt short]
    exact ⟨_, _, pop_of_lt (depth ▸ short)⟩
  · have enough := Nat.le_of_not_lt short
    rw [pop_of_le enough]
    exact ⟨_, pop_of_le (depth ▸ enough), by simp [depth], h.peak, h.lines⟩

theorem push_mirrors (count : Nat) :
    Mirrors (Code.Relabelled labels) (push count) (push count) := by
  intro code code' h
  have depth := h.depth
  by_cases full : maxDepth < code.depth + count
  · rw [push_of_lt full]
    exact ⟨_, _, push_of_lt (depth ▸ full)⟩
  · have room := Nat.le_of_not_lt full
    rw [push_of_le room]
    exact ⟨_, push_of_le (depth ▸ room), by simp [depth],
      by simp [depth, h.peak], h.lines⟩

theorem resetDepth_mirrors (depth : Nat) :
    Mirrors (Code.Relabelled labels) (resetDepth depth) (resetDepth depth) :=
  fun _ _ h => ⟨_, rfl, rfl, h.peak, h.lines⟩

theorem line_mirrors (entry : Line) :
    Mirrors (Code.Relabelled labels) (line entry)
      (line (entry.relabel labels)) := by
  intro code code' h
  refine ⟨_, rfl, h.depth, h.peak, ?_⟩
  simpa using h.lines.append_right [entry.relabel labels]

theorem account_mirrors (op : Opcode) :
    Mirrors (Code.Relabelled labels) (account op) (account op) := by
  rw [account]
  split
  · exact (pop_mirrors op _).bind fun _ => push_mirrors _
  · exact .throw _ _

theorem plain_mirrors (op : Opcode) :
    Mirrors (Code.Relabelled labels) (plain op) (plain op) :=
  (account_mirrors op).bind fun _ => line_mirrors (.plain op)

theorem apply_mirrors (op : Opcode) (arg : Argument) :
    Mirrors (Code.Relabelled labels) (apply op arg)
      (apply op (arg.relabel labels)) :=
  (account_mirrors op).bind fun _ => line_mirrors (.apply op arg)

theorem int_mirrors (value : Int32) :
    Mirrors (Code.Relabelled labels) (int value) (int value) := by
  rw [int]
  split
  · exact plain_mirrors _
  split
  · exact apply_mirrors .bipush (.int value)
  split
  · exact apply_mirrors .sipush (.int value)
  · exact apply_mirrors .ldc (.int value)

theorem slot_mirrors (op : Opcode) (index : UInt16) :
    Mirrors (Code.Relabelled labels) (slot op index) (slot op index) := by
  rw [slot]
  split
  · exact plain_mirrors _
  · exact apply_mirrors op (.slot index)

theorem increment_mirrors (index : UInt16) (delta : Int8) :
    Mirrors (Code.Relabelled labels) (increment index delta)
      (increment index delta) := by
  rw [increment]
  split
  · exact .throw _ _
  · exact apply_mirrors .iinc (.step index delta)

theorem invoke_mirrors (op : Opcode) (target : String)
    (popped pushed : Nat) :
    Mirrors (Code.Relabelled labels) (invoke op target popped pushed)
      (invoke op target popped pushed) :=
  (pop_mirrors op popped).bind fun _ => (push_mirrors pushed).bind fun _ =>
    line_mirrors (.apply op (.method target popped pushed))

end Emit

/-! ## Frames -/

def KeepsComparisons (labels : Equiv.Perm String) : Prop :=
  ∀ number name, IsComparison number name → labels name = name

structure Frame.Renamed (names : Ir.Renaming) (frame frame' : Frame) :
    Prop where
  registers : frame'.registers.names = frame.registers.names.map names.vars
  comparisons : frame'.comparisons = frame.comparisons
  code : frame.code.Relabelled names.labels frame'.code

end Jvm

namespace Ir.Registers

variable {names : Ir.Renaming} {registers registers' : Registers}

theorem slot_rename (h : registers'.names = registers.names.map names.vars)
    (name : String) :
    registers'.slot (names.vars name) = registers.slot name := by
  have position (known : List String) :
      (known.map names.vars).idxOf (names.vars name) = known.idxOf name := by
    induction known with
    | nil => rfl
    | cons other rest ih =>
        by_cases same : other = name
        · simp [same]
        · simp [same, ih]
  rw [slot, slot, h, position]

theorem allocate_rename
    (h : registers'.names = registers.names.map names.vars) (name : String) :
    (registers'.allocate (names.vars name)).names =
      (registers.allocate name).names.map names.vars := by
  by_cases known : name ∈ registers.names
  · simp [allocate, contains, h, known]
  · simp [allocate, contains, h, known]

end Ir.Registers

namespace Jvm.Gen

variable {names : Ir.Renaming}

theorem emit_mirrors {α : Type} {action action' : Emit α}
    (h : Mirrors (Code.Relabelled names.labels) action action') :
    Mirrors (Frame.Renamed names) (emit action) (emit action') := by
  intro frame frame' isRenamed
  have outcome := h _ _ isRenamed.code
  rw [emit, emit]
  cases ran : action frame.code with
  | ok value code =>
      rw [ran] at outcome
      obtain ⟨code', ran', relabelled⟩ := outcome
      rw [ran']
      exact ⟨_, rfl, isRenamed.registers, isRenamed.comparisons, relabelled⟩
  | error fault code =>
      rw [ran] at outcome
      obtain ⟨fault', code', ran'⟩ := outcome
      rw [ran']
      exact ⟨_, _, rfl⟩

theorem slot_mirrors (name : String) :
    Mirrors (Frame.Renamed names) (slot name) (slot (names.vars name)) := by
  intro frame frame' h
  refine ⟨{ frame' with
    registers := frame'.registers.allocate (names.vars name) }, ?_,
    Registers.allocate_rename h.registers name, h.comparisons, h.code⟩
  rw [← Registers.slot_rename h.registers name]
  rfl

theorem depth_mirrors : Mirrors (Frame.Renamed names) depth depth := by
  intro frame frame' h
  refine ⟨frame', ?_, h⟩
  rw [← h.code.depth]
  rfl

/-! ## Operands -/

theorem load_mirrors (operand : Operand) :
    Mirrors (Frame.Renamed names) (load operand)
      (load (operand.rename names)) := by
  induction operand with
  | literal value ty => exact emit_mirrors (Emit.int_mirrors value)
  | var name ty =>
      exact (slot_mirrors name).bind fun index =>
        emit_mirrors (Emit.slot_mirrors _ index)
  | self className => exact emit_mirrors (Emit.plain_mirrors _)
  | element array position ih =>
      refine (slot_mirrors array).bind fun index => ?_
      refine (emit_mirrors (Emit.slot_mirrors .aload index)).bind fun _ => ?_
      exact ih.bind fun _ => emit_mirrors (Emit.plain_mirrors .iaload)
  | field ref => exact .throw _ _

theorem loadAll_mirrors (operands : List Operand) :
    Mirrors (Frame.Renamed names) (loadAll operands)
      (loadAll (operands.map (Operand.rename names))) := by
  induction operands with
  | nil => exact .pure ()
  | cons operand rest ih => exact (load_mirrors operand).bind fun _ => ih

theorem store_mirrors (name : String) (ty : Ty) :
    Mirrors (Frame.Renamed names) (store name ty)
      (store (names.vars name) ty) :=
  (slot_mirrors name).bind fun index =>
    emit_mirrors (Emit.slot_mirrors _ index)

/-! ## Operations -/

theorem label_mirrors {name : String} (fixed : names.labels name = name) :
    Mirrors (Frame.Renamed names) (emit (.label name))
      (emit (.label name)) := by
  have labelled : Mirrors (Frame.Renamed names) _ _ :=
    emit_mirrors (Emit.line_mirrors (.label name))
  rwa [Line.relabel, fixed] at labelled

theorem branch_mirrors (op : Opcode) (name : String) :
    Mirrors (Frame.Renamed names) (emit (.branch op name))
      (emit (.branch op (names.labels name))) :=
  emit_mirrors (Emit.apply_mirrors op (.label name))

theorem compare_mirrors
    (fixes : KeepsComparisons names.labels) (test : Test) :
    Mirrors (Frame.Renamed names) (compare test) (compare test) := by
  let next : Gen Nat := modifyGet fun frame =>
    (frame.comparisons, { frame with comparisons := frame.comparisons + 1 })
  have counts : Mirrors (Frame.Renamed names) next next := by
    intro frame frame' h
    refine ⟨{ frame' with comparisons := frame'.comparisons + 1 }, ?_,
      h.registers, congrArg (· + 1) h.comparisons, h.code⟩
    rw [← h.comparisons]
    rfl
  have branches (op : Opcode) {number : Nat} {name : String}
      (isComparison : IsComparison number name) :
      Mirrors (Frame.Renamed names) (emit (.branch op name))
        (emit (.branch op name)) := by
    have branched : Mirrors (Frame.Renamed names) _ _ :=
      branch_mirrors op name
    rwa [fixes number name isComparison] at branched
  refine counts.bind fun number => ?_
  have onTrue : IsComparison number ("cmp_true_" ++ toString number) := .inl rfl
  have onEnd : IsComparison number ("cmp_end_" ++ toString number) := .inr rfl
  refine (emit_mirrors (Emit.plain_mirrors .isub)).bind fun _ => ?_
  refine (branches _ onTrue).bind fun _ => depth_mirrors.bind fun before => ?_
  refine (emit_mirrors (Emit.plain_mirrors _)).bind fun _ => ?_
  refine (branches _ onEnd).bind fun _ => ?_
  refine (label_mirrors (fixes number _ onTrue)).bind fun _ => ?_
  refine (emit_mirrors (Emit.resetDepth_mirrors before)).bind fun _ => ?_
  refine (emit_mirrors (Emit.plain_mirrors _)).bind fun _ => ?_
  exact label_mirrors (fixes number _ onEnd)

theorem operate_mirrors
    (fixes : KeepsComparisons names.labels) (op : Operator) :
    Mirrors (Frame.Renamed names) (operate op) (operate op) := by
  cases op with
  | add | sub | mul | div | and => exact emit_mirrors (Emit.plain_mirrors _)
  | lt | gt | eq | ne => exact compare_mirrors fixes _

/-! ## Calls -/

theorem allocate_mirrors (linkage : Linkage) (call : Call) :
    Mirrors (Frame.Renamed names) (allocate linkage call)
      (allocate linkage (call.rename names)) := by
  cases isArray : call.returnTy.isArray with
  | true =>
      simp only [allocate, Ir.Call.rename, isArray, if_true]
      rcases call.args with _ | ⟨size, _ | ⟨other, rest⟩⟩
      · exact .throw _ _
      · exact (load_mirrors size).bind fun _ =>
          emit_mirrors (Emit.apply_mirrors .newarray (.symbol "int"))
      · exact .throw _ _
  | false =>
      simp only [allocate, Ir.Call.rename, isArray, List.isEmpty_map,
        Bool.false_eq_true, if_false]
      cases call.args.isEmpty with
      | false => exact .throw _ _
      | true =>
          cases call.returnTy.className? with
          | some className =>
              exact emit_mirrors (Emit.apply_mirrors .new (.symbol _))
          | none => exact .throw _ _

theorem ownSignature?_rename (linkage : Linkage) (call : Call)
    (method : String) :
    ownSignature? linkage (call.rename names) method =
      ownSignature? linkage call method := by
  simp [ownSignature?, Ir.Call.rename]

theorem callDescriptor_rename (linkage : Linkage) (call : Call)
    (own : Option Signature) :
    callDescriptor linkage (call.rename names) own =
      callDescriptor linkage call own := by
  cases own <;> simp [callDescriptor, Ir.Call.rename, Function.comp_def]

theorem dispatch_rename (linkage : Linkage) (call : Call)
    (own : Option Signature) :
    dispatch linkage (call.rename names) own = dispatch linkage call own := by
  obtain ⟨kind, target, method, args, returnTy⟩ := call
  cases kind with
  | special => cases target <;> rfl
  | static => rfl
  | new | virtual | arrayLength => simp [dispatch, Ir.Call.rename]

theorem dispatch_mirrors (linkage : Linkage) (call : Call)
    (own : Option Signature) :
    Mirrors (Frame.Renamed names) (dispatch linkage call own)
      (dispatch linkage (call.rename names) own) := by
  rw [dispatch_rename, dispatch]
  split
  · split
    · exact .pure _
    · split
      · exact .pure _
      · exact .throw _ _
  · split
    · exact .pure _
    · exact .throw _ _
  · split
    · split
      · exact .pure _
      · exact .pure _
    · exact .throw _ _

theorem loaded_rename {call : Call} (invokes : call.kind ≠ .new) :
    loaded (call.rename names) =
      (loaded call).map (Operand.rename names) := by
  obtain ⟨kind, target, method, args, returnTy⟩ := call
  cases kind with
  | new => exact absurd rfl invokes
  | special | static | virtual | arrayLength => rfl

theorem invoke_eq {linkage : Linkage} {call : Call} {method : String}
    (named : call.method = some method) :
    invoke linkage call = (do
      loadAll (loaded call)
      let own := ownSignature? linkage call method
      let (op, owner) ← dispatch linkage call own
      emit (.invoke op
        (owner ++ "/" ++ method ++ callDescriptor linkage call own)
        (loaded call).length (if call.returnTy.isVoid then 0 else 1))) := by
  rw [invoke, named]
  rfl

theorem invoke_mirrors (linkage : Linkage) {call : Call}
    (invokes : call.kind ≠ .new) :
    Mirrors (Frame.Renamed names) (invoke linkage call)
      (invoke linkage (call.rename names)) := by
  cases named : call.method with
  | none =>
      have named' : (call.rename names).method = none := named
      rw [invoke, invoke, named, named']
      exact .throw _ _
  | some method =>
      have named' : (call.rename names).method = some method := named
      rw [invoke_eq named, invoke_eq named', loaded_rename invokes]
      refine (loadAll_mirrors _).bind fun _ => ?_
      dsimp only
      rw [ownSignature?_rename, callDescriptor_rename, List.length_map]
      exact (dispatch_mirrors linkage call _).bind fun _ =>
        emit_mirrors (Emit.invoke_mirrors _ _ _ _)

theorem call_mirrors (linkage : Linkage) (invocation : Call) :
    Mirrors (Frame.Renamed names) (call linkage invocation)
      (call linkage (invocation.rename names)) := by
  have same : (invocation.rename names).kind = invocation.kind := rfl
  cases kind : invocation.kind with
  | new =>
      simp only [call, same, kind]
      exact allocate_mirrors linkage invocation
  | arrayLength =>
      have target : (invocation.rename names).target =
          invocation.target.rename names := by
        simp [Ir.Call.rename, Operand.renameTarget, CallKind.namesClass, kind]
      simp only [call, same, kind, target]
      exact (load_mirrors _).bind fun _ =>
        emit_mirrors (Emit.plain_mirrors .arraylength)
  | special | virtual | static =>
      simp only [call, same, kind]
      exact invoke_mirrors linkage (by simp [kind])

/-! ## Instructions -/

theorem increment?_rename (name : String) (ty : Ty) (value : Instr) :
    increment? (names.vars name) ty (value.rename names) =
      increment? name ty value := by
  have isSelf (operand : Operand) :
      step?.isSelf (names.vars name) (operand.rename names) =
        step?.isSelf name operand := by
    cases operand <;> simp [step?.isSelf, Operand.rename]
  have literal? (operand : Operand) :
      step?.literal? (operand.rename names) = step?.literal? operand := by
    cases operand <;> rfl
  cases value with
  | binary op left right ty' =>
      simp only [increment?, Instr.rename, step?, isSelf, literal?]
  | _ => rfl

theorem tryIncrement_mirrors (name : String) (ty : Ty) (value : Instr) :
    Mirrors (Frame.Renamed names) (tryIncrement name ty value)
      (tryIncrement (names.vars name) ty (value.rename names)) := by
  rw [tryIncrement, tryIncrement, increment?_rename]
  split
  · refine (slot_mirrors name).bind fun index => ?_
    split
    · exact (emit_mirrors (Emit.increment_mirrors index _)).bind fun _ =>
        .pure true
    · exact .pure false
  · exact .pure false

theorem ret_mirrors (ty : Ty) (operand : Option Operand) :
    Mirrors (Frame.Renamed names) (ret ty operand)
      (ret ty (operand.map (Operand.rename names))) := by
  cases operand with
  | some operand =>
      refine (load_mirrors operand).bind fun _ => ?_
      split
      · exact emit_mirrors (Emit.plain_mirrors .areturn)
      split
      · exact .throw _ _
      · exact emit_mirrors (Emit.plain_mirrors .ireturn)
  | none =>
      simp only [ret, Option.map_none]
      split
      · exact emit_mirrors (Emit.plain_mirrors .vreturn)
      · exact .throw _ _

theorem instr_mirrors (linkage : Linkage)
    (fixes : KeepsComparisons names.labels) (code : Instr) :
    Mirrors (Frame.Renamed names) (instr linkage code)
      (instr linkage (code.rename names)) := by
  induction code with
  | assign dest ty value ih =>
      cases dest with
      | element array position =>
          refine (slot_mirrors array).bind fun index => ?_
          refine (emit_mirrors (Emit.slot_mirrors .aload index)).bind
            fun _ => ?_
          refine (load_mirrors position).bind fun _ => ih.bind fun _ => ?_
          exact emit_mirrors (Emit.plain_mirrors .iastore)
      | var name varTy =>
          refine (tryIncrement_mirrors name ty value).bind fun done => ?_
          split
          · exact .pure ()
          · exact ih.bind fun _ => store_mirrors name ty
      | literal value ty | self className | field ref => exact .throw _ _
  | single operand => exact load_mirrors operand
  | binary op left right ty =>
      exact (load_mirrors left).bind fun _ => (load_mirrors right).bind
        fun _ => operate_mirrors fixes op
  | not operand ty =>
      refine (load_mirrors operand).bind fun _ => ?_
      exact (emit_mirrors (Emit.plain_mirrors _)).bind fun _ =>
        emit_mirrors (Emit.plain_mirrors .ixor)
  | call invocation => exact call_mirrors linkage invocation
  | getField object field =>
      exact (load_mirrors object).bind fun _ =>
        emit_mirrors (Emit.apply_mirrors .getfield (.symbol _))
  | putField object field value =>
      exact (load_mirrors object).bind fun _ => (load_mirrors value).bind
        fun _ => emit_mirrors (Emit.apply_mirrors .putfield (.symbol _))
  | branch condition label =>
      exact (load_mirrors condition).bind fun _ =>
        branch_mirrors (.branchIf .ne) label
  | goto label => exact branch_mirrors .goto label
  | ret ty operand => exact ret_mirrors ty operand

theorem dropResult_mirrors (code : Instr) :
    Mirrors (Frame.Renamed names) (dropResult code)
      (dropResult (code.rename names)) := by
  cases code with
  | call invocation =>
      simp only [dropResult, Instr.rename, Ir.Call.rename]
      split
      · exact .pure ()
      · exact emit_mirrors (Emit.plain_mirrors .pop)
  | _ => exact .pure ()

end Jvm.Gen

end JavaMinus
