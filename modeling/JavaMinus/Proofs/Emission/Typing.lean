import JavaMinus.Proofs.Emission.Stops

/-!
# Emitting typed code

Three-address code in which every operand has the kind that is asked for, and
in which a name always stands for values of one kind.  Every line of what is
emitted for it finds the kinds that it needs.
-/

namespace JavaMinus

open Ir (Operand Instr Call Registers Labels)

/-! ## Typed code -/

abbrev Naming := String → Kind → Prop

inductive Ir.Operand.HasKind (has : Naming) : Operand → Kind → Prop where
  | literal (value : Int32) (ty : Ty) : HasKind has (.literal value ty) .int
  | var {name : String} {ty : Ty} (isNamed : has name ty.kind) :
      HasKind has (.var name ty) ty.kind
  | self (className : String) (isNamed : has "this" .reference) :
      HasKind has (.self className) .reference
  | element {array : String} {position : Operand}
      (isNamed : has array .reference) (isInt : HasKind has position .int) :
      HasKind has (.element array position) .int

theorem Ir.Operand.HasKind.named {has : Naming} {name : String} {ty : Ty}
    {kind : Kind} (h : (Operand.var name ty).HasKind has kind) :
    has name kind := by
  cases h with
  | var isNamed => exact isNamed

namespace Jvm

structure Passes (has : Naming) (linkage : Linkage) (call : Call) :
    Prop where
  invokes : call.kind = .special ∨ call.kind = .static ∨ call.kind = .virtual
  receiver : call.kind ≠ .static → call.target.HasKind has .reference
  args : List.Forall₂ (Operand.HasKind has) call.args
    ((linkage.shape call).1.map Ty.kind)
  result : (linkage.shape call).2.isVoid = call.returnTy.isVoid

inductive Pushes (has : Naming) (linkage : Linkage) : Instr → Kind → Prop where
  | single {operand : Operand} {kind : Kind}
      (gives : operand.HasKind has kind) :
      Pushes has linkage (.single operand) kind
  | binary (op : Operator) {left right : Operand} (ty : Ty)
      (onLeft : left.HasKind has .int) (onRight : right.HasKind has .int) :
      Pushes has linkage (.binary op left right ty) .int
  | not {operand : Operand} (ty : Ty) (gives : operand.HasKind has .int) :
      Pushes has linkage (.not operand ty) .int
  | getField {object : Operand} (field : Ir.FieldRef)
      (gives : object.HasKind has .reference) :
      Pushes has linkage (.getField object field) field.ty.kind
  | new {call : Call} (kind : call.kind = .new)
      (sizes : ∀ size ∈ call.args, size.HasKind has .int) :
      Pushes has linkage (.call call) .reference
  | length {call : Call} (kind : call.kind = .arrayLength)
      (gives : call.target.HasKind has .reference) :
      Pushes has linkage (.call call) .int
  | invoke {call : Call} (passes : Passes has linkage call)
      (hasResult : call.returnTy.isVoid = false) :
      Pushes has linkage (.call call) (linkage.shape call).2.kind

inductive Typed (has : Naming) (linkage : Linkage) (returnTy : Ty) :
    Instr → Prop where
  | assign {name : String} (ty' : Ty) {ty : Ty} {value : Instr}
      (isNamed : has name ty.kind) (pushes : Pushes has linkage value ty.kind) :
      Typed has linkage returnTy (.assign (.var name ty') ty value)
  | assignElement {array : String} {position : Operand} (ty : Ty)
      {value : Instr} (isNamed : has array .reference)
      (gives : position.HasKind has .int)
      (pushes : Pushes has linkage value .int) :
      Typed has linkage returnTy (.assign (.element array position) ty value)
  | putField {object value : Operand} (field : Ir.FieldRef)
      (onObject : object.HasKind has .reference)
      (onValue : value.HasKind has field.ty.kind) :
      Typed has linkage returnTy (.putField object field value)
  | call {call : Call} (passes : Passes has linkage call) :
      Typed has linkage returnTy (.call call)
  | branch {condition : Operand} (label : String)
      (gives : condition.HasKind has .int) :
      Typed has linkage returnTy (.branch condition label)
  | goto (label : String) : Typed has linkage returnTy (.goto label)
  | ret {ty : Ty} {value : Operand} (gives : value.HasKind has ty.kind)
      (declared : ty.result? = returnTy.result?) :
      Typed has linkage returnTy (.ret ty (some value))
  | retVoid (declared : returnTy = .void) :
      Typed has linkage returnTy (.ret .void none)

/-! ## Frames -/

def Slotted (has : Naming) (registers : Registers) (index : Nat)
    (kind : Kind) : Prop :=
  (∃ name ∈ registers.names,
      index = (registers.slot name).toNat ∧ has name kind) ∨
    index = 0 ∧ kind = .reference ∧ has "this" .reference

theorem Slotted.of_front {has : Naming} {registers later : Registers}
    {index : Nat} {kind : Kind} (h : Slotted has registers index kind)
    (front : registers.names <+: later.names) :
    Slotted has later index kind := by
  refine h.imp_left ?_
  rintro ⟨name, member, rfl, isNamed⟩
  exact ⟨name, front.subset member, by rw [slot_of_front front member],
    isNamed⟩

def Frame.Kinded (has : Naming) (returnTy : Ty) (frame : Frame)
    (stack : List Kind) : Prop :=
  ∃ stops, frame.code.lines.toList = stops.map Stop.line ∧
    Stops returnTy (Slotted has frame.registers) stops stack frame.comparisons

structure Line.IsInner (line : Line) : Prop where
  noName : line.name? = none
  noReturn : line.isReturn = false
  noSlot : line.slotKind? = none

theorem Opcode.effect?_of_kinds? {op : Opcode} {popped pushed : List Kind}
    (h : op.kinds? = some (popped, pushed)) :
    op.effect? = some (popped.length, pushed.length) := by
  cases op <;> cases h <;> rfl

namespace Frame.Kinded

variable {has : Naming} {returnTy : Ty} {before after : Frame}
  {stack popped pushed rest : List Kind} {line : Line}

theorem start (registers : Registers) :
    Frame.Kinded has returnTy { registers } [] :=
  ⟨[], rfl, .nil⟩

theorem emitted {count count' : Nat}
    (h : before.Kinded has returnTy (popped ++ rest))
    (emitted : Emitted line count count' before after)
    (takes : line.Takes popped pushed)
    (apart : ∀ name, line.name? = some name → pushed ++ rest = [] ∧
      ∀ number, ¬ IsComparison number name)
    (returns : line.isReturn = true → line = .plain (returnOp returnTy) ∧
      popped ++ rest = returnTy.result?.toList)
    (slots : ∀ index kind, line.slotKind? = some (index, kind) →
      Slotted has before.registers index kind) :
    after.Kinded has returnTy (pushed ++ rest) := by
  obtain ⟨stops, lines, fit⟩ := h
  have more := fit.snoc takes apart returns slots
  rw [← emitted.registers, ← emitted.comparisons] at more
  exact ⟨_, by simp [emitted.lines, lines], more⟩

theorem inner {count count' : Nat}
    (h : before.Kinded has returnTy (popped ++ rest))
    (emitted : Emitted line count count' before after)
    (takes : line.Takes popped pushed) (isInner : line.IsInner) :
    after.Kinded has returnTy (pushed ++ rest) :=
  h.emitted emitted takes (by simp [isInner.noName])
    (by simp [isInner.noReturn]) (by simp [isInner.noSlot])

theorem grows (h : before.Kinded has returnTy stack)
    (grows : Grows before after) (same : after.code = before.code) :
    after.Kinded has returnTy stack := by
  obtain ⟨stops, lines, fit⟩ := h
  have fit := fit.mono fun index kind slotted =>
    slotted.of_front grows.registers
  refine ⟨stops, same ▸ lines, fit.runs, fit.starts, fit.ends, fit.falls,
    fit.jumps, fit.returns, fun stop member name named => ?_, fit.slots⟩
  refine (fit.named stop member name named).imp_left ?_
  rintro ⟨number, earlier, isComparison⟩
  exact ⟨number, Nat.lt_of_lt_of_le earlier grows.comparisons, isComparison⟩

theorem slot (h : before.Kinded has returnTy stack) (name : String) :
    Frame.Kinded has returnTy
      { before with registers := before.registers.allocate name } stack :=
  h.grows ⟨List.prefix_refl _, prefix_allocate _ _, Nat.le_refl _,
    fun _ member => .inl member⟩ rfl

theorem compared {test : Test}
    (h : before.Kinded has returnTy (.int :: .int :: stack))
    (compared : Compared test before after) :
    after.Kinded has returnTy (.int :: stack) := by
  obtain ⟨stops, lines, fit⟩ := h
  have more := fit.compared test
  rw [← compared.registers, ← compared.comparisons] at more
  refine ⟨_, ?_, more⟩
  rw [compared.lines, List.map_append, lines, map_line_comparisonStops]

theorem marked {names : List String} (h : before.Kinded has returnTy [])
    (marked : Marked names before after)
    (apart : ∀ name ∈ names, ∀ number, ¬ IsComparison number name) :
    after.Kinded has returnTy [] := by
  obtain ⟨stops, lines, fit⟩ := h
  refine ⟨stops ++ names.map fun name => ⟨[], [], .label name⟩, ?_, ?_⟩
  · simp [marked.lines, lines, Function.comp_def]
  · rw [marked.registers, marked.comparisons]
    clear marked lines
    induction names generalizing stops with
    | nil => simpa using fit
    | cons name names ih =>
        have isApart : ∀ other, (Line.label name).name? = some other →
            ([] : List Kind) = [] ∧ ∀ number, ¬ IsComparison number other := by
          intro other isName
          cases isName
          exact ⟨rfl, apart name (by simp)⟩
        have first : Stops returnTy (Slotted has before.registers)
            (stops ++ [⟨[], [], .label name⟩]) [] before.comparisons :=
          fit.snoc (.label name) isApart (by simp [Line.isReturn])
            (by simp [Line.slotKind?])
        have others := ih (fun other member => apart other (by simp [member]))
          _ first
        simpa using others

end Frame.Kinded

/-! ## Operands -/

theorem shortForm?_kinds? {op short : Opcode} {index : UInt16}
    (form : op.shortForm? index = some short) :
    short.kinds? = op.kinds? ∧ (Line.plain short).slotKind? =
      (Line.apply op (.slot index)).slotKind? := by
  rw [Opcode.shortForm?] at form
  split at form
  · cases op <;> cases form <;> exact ⟨rfl, rfl⟩
  · contradiction

theorem loadOp_kinds? (ty : Ty) :
    (if ty.isReference then Opcode.aload else .iload).kinds? =
      some ([], [ty.kind]) := by
  cases ty <;> rfl

theorem loadOp_slotKind? (ty : Ty) (index : UInt16) :
    (Line.apply (if ty.isReference then .aload else .iload)
      (.slot index)).slotKind? = some (index.toNat, ty.kind) := by
  cases ty <;> rfl

theorem storeOp_kinds? (ty : Ty) :
    (if ty.isReference then Opcode.astore else .istore).kinds? =
      some ([ty.kind], []) := by
  cases ty <;> rfl

theorem storeOp_slotKind? (ty : Ty) (index : UInt16) :
    (Line.apply (if ty.isReference then .astore else .istore)
      (.slot index)).slotKind? = some (index.toNat, ty.kind) := by
  cases ty <;> rfl

section Operands

variable {has : Naming} {returnTy : Ty} {linkage : Linkage}
  {frame mid after : Frame} {stack popped pushed rest : List Kind}

theorem slotLine_kinded {op : Opcode} {name : String} {index : UInt16}
    {kind : Kind} (known : op.kinds? = some (popped, pushed))
    (works : ∀ index : UInt16, (Line.apply op (.slot index)).slotKind? =
      some (index.toNat, kind))
    (isNamed : has name kind) (hslot : Gen.slot name frame = .ok index mid)
    (h : Gen.emit (.slot op index) mid = .ok () after)
    (kinded : frame.Kinded has returnTy (popped ++ rest)) :
    after.Kinded has returnTy (pushed ++ rest) := by
  obtain ⟨rfl, rfl⟩ := Gen.slot_eq_ok hslot
  have kinded := kinded.slot name
  have slotted : Slotted has (frame.registers.allocate name)
      (frame.registers.slot name).toNat kind := by
    rw [← slot_allocate]
    exact .inl ⟨name, mem_allocate _ _, rfl, isNamed⟩
  have slots : ∀ slot kind', (Line.apply op
      (.slot (frame.registers.slot name))).slotKind? = some (slot, kind') →
      Slotted has (frame.registers.allocate name) slot kind' := by
    intro slot kind' uses
    rw [works] at uses
    cases uses
    exact slotted
  rcases Gen.emit_slot (Opcode.effect?_of_kinds? known) h with
    ⟨short, form, emitted⟩ | emitted
  · obtain ⟨sameKinds, sameSlot⟩ := shortForm?_kinds? form
    refine kinded.emitted emitted (.plain (sameKinds.trans known))
      (by simp [Line.name?, Line.target?]) (fun isReturn => ?_)
      (by rw [sameSlot]; exact slots)
    rw [works] at sameSlot
    cases short <;> simp [Line.isReturn, Line.slotKind?] at isReturn sameSlot
  · exact kinded.emitted emitted (.apply known)
      (by simp [Line.name?, Line.target?]) (by simp [Line.isReturn]) slots

theorem int_kinded {value : Int32}
    (h : Gen.emit (.int value) frame = .ok () after)
    (kinded : frame.Kinded has returnTy stack) :
    after.Kinded has returnTy (.int :: stack) := by
  rw [Emit.int] at h
  split at h
  · exact kinded.inner (Gen.emit_plain rfl h) (.plain rfl) ⟨rfl, rfl, rfl⟩
  · split at h
    · exact kinded.inner (Gen.emit_apply rfl h) (.apply rfl) ⟨rfl, rfl, rfl⟩
    · split at h
      · exact kinded.inner (Gen.emit_apply rfl h) (.apply rfl)
          ⟨rfl, rfl, rfl⟩
      · exact kinded.inner (Gen.emit_apply rfl h) (.apply rfl)
          ⟨rfl, rfl, rfl⟩

theorem load_kinded {operand : Operand} {kind : Kind}
    (h : Gen.load operand frame = .ok () after)
    (isOf : operand.HasKind has kind)
    (kinded : frame.Kinded has returnTy stack) :
    after.Kinded has returnTy (kind :: stack) := by
  induction isOf generalizing frame after stack with
  | literal value ty => exact int_kinded h kinded
  | @var name ty isNamed =>
      obtain ⟨index, mid, hslot, h⟩ := Action.bind_eq_ok.mp h
      exact slotLine_kinded (loadOp_kinds? ty) (loadOp_slotKind? ty) isNamed
        hslot h kinded
  | self className isNamed =>
      refine kinded.emitted (Gen.emit_plain rfl h) (.plain rfl)
        (by simp [Line.name?, Line.target?]) (by simp [Line.isReturn]) ?_
      intro index kind uses
      cases uses
      exact .inr ⟨rfl, rfl, isNamed⟩
  | element isNamed _ ih =>
      obtain ⟨index, first, hslot, h⟩ := Action.bind_eq_ok.mp h
      obtain ⟨_, second, harray, h⟩ := Action.bind_eq_ok.mp h
      obtain ⟨_, third, hposition, hload⟩ := Action.bind_eq_ok.mp h
      have atArray := slotLine_kinded rfl (fun _ => rfl) isNamed hslot harray
        kinded
      exact (ih hposition atArray).inner (Gen.emit_plain rfl hload)
        (.plain rfl) ⟨rfl, rfl, rfl⟩

theorem loadAll_kinded {operands : List Operand} {kinds : List Kind}
    (h : Gen.loadAll operands frame = .ok () after)
    (areOf : List.Forall₂ (Operand.HasKind has) operands kinds)
    (kinded : frame.Kinded has returnTy stack) :
    after.Kinded has returnTy (kinds.reverse ++ stack) := by
  induction areOf generalizing frame stack with
  | nil =>
      obtain ⟨_, rfl⟩ := Action.pure_eq_ok.mp h
      exact kinded
  | cons isOf _ ih =>
      obtain ⟨_, mid, hload, hrest⟩ := Action.bind_eq_ok.mp h
      have rest := ih hrest (load_kinded hload isOf kinded)
      simpa using rest

theorem store_kinded {name : String} {ty : Ty}
    (h : Gen.store name ty frame = .ok () after)
    (isNamed : has name ty.kind)
    (kinded : frame.Kinded has returnTy (ty.kind :: stack)) :
    after.Kinded has returnTy stack := by
  obtain ⟨index, mid, hslot, h⟩ := Action.bind_eq_ok.mp h
  exact slotLine_kinded (storeOp_kinds? ty) (storeOp_slotKind? ty) isNamed
    hslot h kinded

theorem operate_kinded {op : Operator}
    (h : Gen.operate op frame = .ok () after)
    (kinded : frame.Kinded has returnTy (.int :: .int :: stack)) :
    after.Kinded has returnTy (.int :: stack) := by
  cases op with
  | add | sub | mul | div | and =>
      exact kinded.inner (Gen.emit_plain rfl h) (.plain rfl) ⟨rfl, rfl, rfl⟩
  | lt | gt | eq | ne => exact kinded.compared (Gen.compare_eq_ok h)

end Operands

/-! ## Values -/

section Values

variable {has : Naming} {returnTy : Ty} {linkage : Linkage}
  {frame after : Frame} {stack : List Kind} {call : Call}

theorem Linkage.target_spells (linkage : Linkage) (call : Call) :
    SpellsMethod (linkage.target call) (linkage.shape call).1
      (linkage.shape call).2 :=
  ⟨_, linkage.names, rfl⟩

theorem invoke_kinded (h : Gen.invoke linkage call frame = .ok () after)
    (passes : Passes has linkage call)
    (kinded : frame.Kinded has returnTy stack) :
    after.Kinded has returnTy
      ((linkage.shape call).2.result?.toList ++ stack) := by
  obtain ⟨mid, hload, emitted⟩ := Gen.invoke_eq_ok h
  have areOf : List.Forall₂ (Operand.HasKind has) (loaded call)
      ((invocation call.kind).receiver ++
        (linkage.shape call).1.map Ty.kind) := by
    unfold loaded
    rcases passes.invokes with kind | kind | kind
    · rw [kind]
      exact .cons (passes.receiver (by simp [kind])) passes.args
    · rw [kind]
      exact passes.args
    · rw [kind]
      exact .cons (passes.receiver (by simp [kind])) passes.args
  have atCall := loadAll_kinded hload areOf kinded
  rw [List.reverse_append] at atCall
  have sameReceiver : (invocation call.kind).receiver.reverse =
      (invocation call.kind).receiver := by
    cases call.kind <;> rfl
  rw [sameReceiver] at atCall
  have count : (linkage.shape call).1.length +
      (invocation call.kind).receiver.length = (loaded call).length := by
    rw [areOf.length_eq]
    simp [Nat.add_comm]
  have unknown : (invocation call.kind).kinds? = none := by
    cases call.kind <;> rfl
  refine atCall.inner emitted (.invoke unknown
    (linkage.target_spells call) count) ⟨?_, ?_, ?_⟩
  · cases call.kind <;> rfl
  · rfl
  · cases call.kind <;> rfl

theorem call_of_passes (passes : Passes has linkage call) :
    Gen.call linkage call = Gen.invoke linkage call := by
  rw [Gen.call]
  rcases passes.invokes with kind | kind | kind <;> rw [kind]

theorem value_kinded {value : Instr} {kind : Kind}
    (h : Gen.instr linkage value frame = .ok () after)
    (pushes : Pushes has linkage value kind)
    (kinded : frame.Kinded has returnTy stack) :
    after.Kinded has returnTy (kind :: stack) := by
  cases pushes with
  | single isOf => exact load_kinded h isOf kinded
  | binary op ty onLeft onRight =>
      obtain ⟨_, first, hleft, h⟩ := Action.bind_eq_ok.mp h
      obtain ⟨_, second, hright, hop⟩ := Action.bind_eq_ok.mp h
      exact operate_kinded hop
        (load_kinded hright onRight (load_kinded hleft onLeft kinded))
  | not ty isOf =>
      obtain ⟨_, first, hload, h⟩ := Action.bind_eq_ok.mp h
      obtain ⟨_, second, htrue, hxor⟩ := Action.bind_eq_ok.mp h
      have atTrue : second.Kinded has returnTy (.int :: .int :: stack) :=
        (load_kinded hload isOf kinded).inner (Gen.emit_plain rfl htrue)
          (.plain rfl) ⟨rfl, rfl, rfl⟩
      exact atTrue.inner (Gen.emit_plain rfl hxor) (.plain rfl)
        ⟨rfl, rfl, rfl⟩
  | getField field isOf =>
      obtain ⟨_, first, hload, hget⟩ := Action.bind_eq_ok.mp h
      exact (load_kinded hload isOf kinded).inner (Gen.emit_apply rfl hget)
        (.getfield ⟨_, linkage.names, rfl⟩) ⟨rfl, rfl, rfl⟩
  | @new call kind sizes =>
      rw [Gen.instr, Gen.call] at h
      simp only [kind] at h
      rcases Gen.allocate_eq_ok h with
        ⟨size, mid, _, args, hload, emitted⟩ | ⟨className, _, _, _, emitted⟩
      · have isOf := sizes size (by simp [args])
        exact (load_kinded hload isOf kinded).inner emitted (.apply rfl)
          ⟨rfl, rfl, rfl⟩
      · exact kinded.inner emitted (.apply rfl) ⟨rfl, rfl, rfl⟩
  | @length call kind isOf =>
      rw [Gen.instr, Gen.call] at h
      simp only [kind] at h
      obtain ⟨_, mid, hload, hlength⟩ := Action.bind_eq_ok.mp h
      exact (load_kinded hload isOf kinded).inner (Gen.emit_plain rfl hlength)
        (.plain rfl) ⟨rfl, rfl, rfl⟩
  | @invoke call passes hasResult =>
      rw [Gen.instr, call_of_passes passes] at h
      have pushed := invoke_kinded h passes kinded
      rw [Ty.result?, passes.result, hasResult] at pushed
      simpa using pushed

end Values

/-! ## Instructions -/

section Instructions

variable {has : Naming} {returnTy : Ty} {linkage : Linkage}
  {frame after : Frame} {stack : List Kind}

theorem Gen.int_of_increment? {name : String} {ty : Ty} {value : Instr}
    {delta : Int8} (h : Gen.increment? name ty value = some delta) :
    ty = .int := by
  unfold Gen.increment? at h
  split at h
  · obtain ⟨step, _, h⟩ := Option.bind_eq_some_iff.mp h
    split at h
    next small => exact small.1
    next => contradiction
  · contradiction

theorem tryIncrement_kinded {name : String} {ty : Ty} {value : Instr}
    {done : Bool} (h : Gen.tryIncrement name ty value frame = .ok done after)
    (isNamed : has name ty.kind)
    (kinded : frame.Kinded has returnTy stack) :
    after.Kinded has returnTy stack := by
  rcases Gen.tryIncrement_eq_ok h with
    ⟨_, index, delta, mid, known, hslot, _, emitted⟩ | ⟨_, grows, same⟩
  · obtain ⟨rfl, rfl⟩ := Gen.slot_eq_ok hslot
    rw [Gen.int_of_increment? known] at isNamed
    refine (kinded.slot name).emitted emitted (.apply rfl)
      (by simp [Line.name?, Line.target?]) (by simp [Line.isReturn]) ?_
    intro slot kind uses
    cases uses
    rw [← slot_allocate]
    exact .inl ⟨name, mem_allocate _ _, rfl, isNamed⟩
  · exact kinded.grows grows same

theorem returnOp_of_result? {ty : Ty} (h : ty.result? = returnTy.result?) :
    returnOp ty = returnOp returnTy := by
  cases ty <;> cases returnTy <;>
    simp_all [Ty.result?, Ty.isVoid, Ty.kind, Ty.isReference, returnOp]

theorem kinds?_returnOp {ty : Ty} (hasResult : ty.isVoid = false) :
    (returnOp ty).kinds? = some ([ty.kind], []) := by
  cases ty <;> simp [Ty.isVoid] at hasResult <;> rfl

theorem slotKind?_returnOp (ty : Ty) :
    (Line.plain (returnOp ty)).slotKind? = none := by
  cases ty <;> rfl

theorem Gen.ret_some_emits {ty : Ty} {value : Operand}
    (h : Gen.ret ty (some value) frame = .ok () after) :
    ∃ mid, Gen.load value frame = .ok () mid ∧ ty.isVoid = false ∧
      Emitted (.plain (returnOp ty)) 1 0 mid after := by
  obtain ⟨_, mid, hload, h⟩ := Action.bind_eq_ok.mp h
  refine ⟨mid, hload, ?_⟩
  unfold returnOp
  cases isReference : ty.isReference with
  | true =>
      have hasResult : ty.isVoid = false := by
        cases ty <;> simp_all [Ty.isVoid, Ty.isReference]
      rw [if_pos isReference] at h
      rw [hasResult]
      exact ⟨rfl, Gen.emit_plain rfl h⟩
  | false =>
      rw [if_neg (by simp [isReference])] at h
      cases isVoid : ty.isVoid with
      | true =>
          rw [if_pos isVoid] at h
          exact absurd h Action.throw_ne_ok
      | false =>
          rw [if_neg (by simp [isVoid])] at h
          exact ⟨rfl, Gen.emit_plain rfl h⟩

theorem ret_kinded {ty : Ty} {value : Operand}
    (h : Gen.ret ty (some value) frame = .ok () after)
    (isOf : value.HasKind has ty.kind)
    (declared : ty.result? = returnTy.result?)
    (kinded : frame.Kinded has returnTy []) :
    after.Kinded has returnTy [] := by
  obtain ⟨mid, hload, hasResult, emitted⟩ := Gen.ret_some_emits h
  refine (load_kinded hload isOf kinded).emitted emitted
    (.plain (kinds?_returnOp hasResult)) (by simp [Line.name?, Line.target?])
    (fun _ => ⟨?_, ?_⟩) (by simp [slotKind?_returnOp])
  · rw [returnOp_of_result? declared]
  · rw [← declared, Ty.result?, hasResult]
    rfl

theorem Emits.kinded {code : Instr} (h : Emits linkage code frame after)
    (typed : Typed has linkage returnTy code)
    (apart : ∀ name, code.target? = some name →
      ∀ number, ¬ IsComparison number name)
    (kinded : frame.Kinded has returnTy []) :
    after.Kinded has returnTy [] := by
  obtain ⟨mid, h, hdrop, _⟩ := h
  -- Only a bare call may leave a value, which is dropped behind it.
  cases typed with
  | @assign name ty' ty value isNamed pushes =>
      obtain ⟨_, rfl⟩ := Action.pure_eq_ok.mp hdrop
      obtain ⟨done, tried, htry, h⟩ := Action.bind_eq_ok.mp h
      have atTried := tryIncrement_kinded htry isNamed kinded
      cases done with
      | true =>
          obtain ⟨_, rfl⟩ := Action.pure_eq_ok.mp h
          exact atTried
      | false =>
          obtain ⟨_, last, hvalue, hstore⟩ := Action.bind_eq_ok.mp h
          exact store_kinded hstore isNamed
            (value_kinded hvalue pushes atTried)
  | assignElement ty isNamed isOf pushes =>
      obtain ⟨_, rfl⟩ := Action.pure_eq_ok.mp hdrop
      obtain ⟨index, first, hslot, h⟩ := Action.bind_eq_ok.mp h
      obtain ⟨_, second, harray, h⟩ := Action.bind_eq_ok.mp h
      obtain ⟨_, third, hposition, h⟩ := Action.bind_eq_ok.mp h
      obtain ⟨_, fourth, hvalue, hstore⟩ := Action.bind_eq_ok.mp h
      have atArray := slotLine_kinded rfl (fun _ => rfl) isNamed hslot harray
        kinded
      have atValue := value_kinded hvalue pushes
        (load_kinded hposition isOf atArray)
      exact atValue.inner (Gen.emit_plain rfl hstore) (.plain rfl)
        ⟨rfl, rfl, rfl⟩
  | putField field onObject onValue =>
      obtain ⟨_, rfl⟩ := Action.pure_eq_ok.mp hdrop
      obtain ⟨_, first, hobject, h⟩ := Action.bind_eq_ok.mp h
      obtain ⟨_, second, hvalue, hput⟩ := Action.bind_eq_ok.mp h
      have atValue := load_kinded hvalue onValue
        (load_kinded hobject onObject kinded)
      exact atValue.inner (Gen.emit_apply rfl hput)
        (.putfield ⟨_, linkage.names, rfl⟩) ⟨rfl, rfl, rfl⟩
  | @call call passes =>
      rw [Gen.instr, call_of_passes passes] at h
      have pushed := invoke_kinded h passes kinded
      rw [Ty.result?, passes.result] at pushed
      rw [Gen.dropResult] at hdrop
      cases isVoid : call.returnTy.isVoid with
      | true =>
          rw [if_pos isVoid] at hdrop
          obtain ⟨_, rfl⟩ := Action.pure_eq_ok.mp hdrop
          simpa [isVoid] using pushed
      | false =>
          rw [if_neg (by simp [isVoid])] at hdrop
          simp only [isVoid, Bool.false_eq_true, if_false] at pushed
          exact pushed.inner (Gen.emit_plain rfl hdrop) (.pop _)
            ⟨rfl, rfl, rfl⟩
  | branch label isOf =>
      obtain ⟨_, rfl⟩ := Action.pure_eq_ok.mp hdrop
      obtain ⟨_, first, hload, hbranch⟩ := Action.bind_eq_ok.mp h
      refine (load_kinded hload isOf kinded).emitted
        (Gen.emit_apply rfl hbranch) (.apply rfl) (fun name isName => ?_)
        (by simp [Line.isReturn]) (by simp [Line.slotKind?])
      cases isName
      exact ⟨rfl, apart label rfl⟩
  | goto label =>
      obtain ⟨_, rfl⟩ := Action.pure_eq_ok.mp hdrop
      refine kinded.emitted (Gen.emit_apply rfl h) (.apply rfl)
        (fun name isName => ?_) (by simp [Line.isReturn])
        (by simp [Line.slotKind?])
      cases isName
      exact ⟨rfl, apart label rfl⟩
  | ret isOf declared =>
      obtain ⟨_, rfl⟩ := Action.pure_eq_ok.mp hdrop
      exact ret_kinded h isOf declared kinded
  | retVoid declared =>
      obtain ⟨_, rfl⟩ := Action.pure_eq_ok.mp hdrop
      subst declared
      exact kinded.emitted (Gen.emit_plain rfl h) (.plain rfl)
        (by simp [Line.name?, Line.target?]) (fun _ => ⟨rfl, rfl⟩)
        (by simp [Line.slotKind?])

end Instructions

/-! ## Methods -/

structure TypedMethod (has : Naming) (linkage : Linkage)
    (source : Ir.Method) : Prop where
  avoids : source.AvoidsComparisons
  code : ∀ code ∈ source.instrs, Typed has linkage source.returnTy code
  unique : ∀ name kind kind', has name kind → has name kind' → kind = kind'
  receiver : has "this" .reference ↔ source.isStatic = false
  params : ∀ param ∈ source.params, has param.name param.ty.kind
  registers : source.registers =
    .ofMethod source.isStatic (source.params.map Symbol.name)
  distinct : (source.params.map Symbol.name).Nodup
  apart : "this" ∉ source.params.map Symbol.name

section Methods

variable {has : Naming} {linkage : Linkage} {source : Ir.Method}
  {target : Method} {final : Frame}

/-- Between any two instructions the kinds are as they should be. -/
theorem Laid.kinded (laid : Laid linkage source final)
    (typed : TypedMethod has linkage source) {index : Nat}
    (inside : index ≤ source.instrs.length) :
    (boundary linkage source index).Kinded has source.returnTy [] := by
  have apart (spot : Nat) : ∀ name ∈ source.labels.before spot,
      ∀ number, ¬ IsComparison number name := by
    intro name member
    exact typed.avoids.labels (name, spot) (Labels.mem_before.mp member)
  induction index with
  | zero =>
      exact (Frame.Kinded.start source.registers).marked laid.boundary_zero
        (apart 0)
  | succ index ih =>
      have fetch := List.getElem?_eq_getElem inside
      have member := List.mem_of_getElem? fetch
      obtain ⟨done, emits, marked⟩ := laid.boundary_succ fetch
      exact (emits.kinded (typed.code _ member)
        (typed.avoids.targets _ member) (ih (Nat.le_of_lt inside))).marked
          marked (apart (index + 1))

theorem Closes.kinded {after : Frame} (closes : Closes source final after)
    (kinded : final.Kinded has source.returnTy []) :
    after.Kinded has source.returnTy [] := by
  rw [Closes] at closes
  split at closes
  next returns =>
    have isVoid : source.returnTy = .void := by
      rw [Bool.and_eq_true] at returns
      exact Ty.isVoid_eq_true.mp returns.1
    refine kinded.emitted closes (.plain rfl)
      (by simp [Line.name?, Line.target?]) (fun _ => ?_)
      (by simp [Line.slotKind?])
    rw [isVoid]
    exact ⟨rfl, rfl⟩
  next open_ => exact closes ▸ kinded

/-- Names share no slots, so that a slot holds values of one kind. -/
theorem Slotted.unique {registers : Registers} {index : Nat}
    {kind kind' : Kind}
    (unique : ∀ name kind kind', has name kind → has name kind' →
      kind = kind')
    (small : registers.names.length ≤ 65535)
    (receiver : has "this" .reference →
      registers.names.head? = some "this")
    (h : Slotted has registers index kind)
    (h' : Slotted has registers index kind') : kind = kind' := by
  -- The receiver has the first slot, so that both are slots of names.
  have named {kind : Kind} (h : Slotted has registers index kind) :
      ∃ name ∈ registers.names,
        index = (registers.slot name).toNat ∧ has name kind := by
    rcases h with h | ⟨rfl, rfl, isNamed⟩
    · exact h
    · have first := receiver isNamed
      refine ⟨"this", List.mem_of_head? first, ?_, isNamed⟩
      obtain ⟨rest, names⟩ := List.head?_eq_some_iff.mp first
      simp [Registers.slot, names]
  obtain ⟨name, member, slot, isNamed⟩ := named h
  obtain ⟨name', member', slot', isNamed'⟩ := named h'
  have same : registers.slot name = registers.slot name' :=
    UInt16.toNat_inj.mp (slot.symm.trans slot')
  obtain rfl := slot_injective small member member' same
  exact unique name kind kind' isNamed isNamed'

theorem TypedMethod.entry (typed : TypedMethod has linkage source)
    (places : PlacesParams source target) {index : Nat} {kind : Kind}
    (held : (Shape.entry source.isStatic
      (source.params.map Symbol.ty)).slots index = some kind) :
    Slotted has source.registers index kind := by
  have ofParam {position : Nat} (offset : index = position +
        if source.isStatic then 0 else 1)
      (found : ((source.params.map Symbol.ty).map Ty.kind)[position]? =
        some kind) : Slotted has source.registers index kind := by
    rw [List.map_map, List.getElem?_map] at found
    obtain ⟨param, fetch, rfl⟩ := Option.map_eq_some_iff.mp found
    obtain ⟨slot, known, place⟩ := places.params position param fetch
    obtain ⟨member, rfl⟩ := Registers.mem_of_slot? known
    exact .inl ⟨param.name, member, offset.trans place.symm,
      typed.params param (List.mem_of_getElem? fetch)⟩
  change ((if source.isStatic then [] else [Kind.reference]) ++
    (source.params.map Symbol.ty).map Ty.kind)[index]? = some kind at held
  cases isStatic : source.isStatic with
  | true =>
      simp only [isStatic, if_true, List.nil_append] at held
      exact ofParam (by simp [isStatic]) held
  | false =>
      simp only [isStatic, Bool.false_eq_true, if_false,
        List.singleton_append] at held
      cases index with
      | zero =>
          cases held
          exact .inr ⟨rfl, rfl, typed.receiver.mpr isStatic⟩
      | succ position => exact ofParam (by simp [isStatic]) held

/-- Typed code is emitted as lines that find the kinds that they need. -/
theorem Method.ofIr_kindCorrect
    (h : Method.ofIr linkage source = .ok target)
    (typed : TypedMethod has linkage source) :
    target.KindCorrect source.isStatic (source.params.map Symbol.ty)
      source.returnTy := by
  obtain ⟨lines, small, final, laid, closes⟩ := Method.ofIr_eq_ok h
  obtain ⟨_, descriptor, isStatic⟩ := Method.ofIr_header h
  have front : source.registers.names <+:
      (emitted linkage source).registers.names :=
    (Gen.method_leads (Method.translated h).ran).registers
  have atEnd := laid.kinded typed (Nat.le_refl _)
  rw [laid.boundary_length] at atEnd
  obtain ⟨stops, same, fit⟩ := closes.kinded atEnd
  have receiver : has "this" .reference →
      (emitted linkage source).registers.names.head? = some "this" := by
    intro isNamed
    obtain ⟨rest, names⟩ := front
    rw [← names, typed.registers, Registers.names_ofMethod _ typed.distinct
      typed.apart, typed.receiver.mp isNamed]
    rfl
  have places := Method.ofIr_placesParams h typed.registers typed.distinct
    typed.apart
  rw [← isStatic]
  refine fit.kindCorrect
    (fun index kind kind' => Slotted.unique typed.unique small receiver)
    (lines.trans same) ⟨"", linkage.names, ?_⟩ ?_
  · rw [descriptor, String.empty_append]
  · intro index kind held
    rw [isStatic] at held
    exact (typed.entry places held).of_front front

end Methods

end Jvm

end JavaMinus
