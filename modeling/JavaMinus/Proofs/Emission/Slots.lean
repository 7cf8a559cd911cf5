import JavaMinus.Proofs.Emission.Refusals

/-!
# Slots of variables

A name gets the next slot when it is met and keeps it.  So throughout an
emission the slots are numbered without a gap, and whatever line uses a slot
uses one below the limit that the machine is told.
-/

namespace JavaMinus

open Ir (Operand Instr Call Registers)

/-! ## Registers -/

namespace Ir.Registers

variable {registers later : Registers} {name other : String}

/-- The registers come from the signature of a method, or name after name. -/
def IsMade (registers : Registers) : Prop :=
  (∃ isStatic params, registers = .ofMethod isStatic params) ∨
    ∃ names, registers = allocateAll {} names

structure Exact (registers : Registers) : Prop where
  injective : ∀ name other slot, registers.slot? name = some slot →
    registers.slot? other = some slot → name = other
  filled : ∀ index, (∃ name slot, registers.slot? name = some slot ∧
    slot.toNat = index) ↔ index < registers.size

theorem IsMade.distinct (h : registers.IsMade) : registers.names.Nodup := by
  rcases h with ⟨isStatic, params, rfl⟩ | ⟨names, rfl⟩
  · exact (Jvm.met_ofMethod isStatic params).distinct List.nodup_nil
  · exact (met_allocateAll {} names).distinct List.nodup_nil

theorem slot?_of_mem (member : name ∈ registers.names) :
    registers.slot? name = some (registers.slot name) := by
  have found : registers.names.idxOf? name =
      some (registers.names.idxOf name) := by
    rw [List.idxOf?, List.findIdx?_eq_some_iff_findIdx_eq]
    exact ⟨List.idxOf_lt_length_of_mem member, rfl⟩
  simp [slot?, slot, found]

theorem mem_of_slot? {index : UInt16}
    (known : registers.slot? name = some index) :
    name ∈ registers.names ∧ index = registers.slot name := by
  by_cases member : name ∈ registers.names
  · rw [slot?_of_mem member] at known
    exact ⟨member, (Option.some.inj known).symm⟩
  · simp [slot?, List.idxOf?_eq_none_iff.mpr member] at known

theorem slot_toNat (small : registers.size ≤ 65535)
    (member : name ∈ registers.names) :
    (registers.slot name).toNat = registers.names.idxOf name := by
  have bound := List.idxOf_lt_length_of_mem member
  unfold size at small
  simp only [slot, Nat.toUInt16_eq, UInt16.toNat_ofNat']
  omega

/-- A slot that wraps around is still one of those that were given. -/
theorem slot_lt_size (member : name ∈ registers.names) :
    (registers.slot name).toNat < registers.size := by
  have bound := List.idxOf_lt_length_of_mem member
  have wrapped := Nat.mod_le (registers.names.idxOf name) (2 ^ 16)
  simp only [slot, size, Nat.toUInt16_eq, UInt16.toNat_ofNat']
  omega

theorem exact_of_distinct (distinct : registers.names.Nodup)
    (small : registers.size ≤ 65535) : registers.Exact := by
  constructor
  · intro name other slot known known'
    obtain ⟨member, rfl⟩ := mem_of_slot? known
    obtain ⟨member', same⟩ := mem_of_slot? known'
    exact Jvm.slot_injective small member member' same
  · intro index
    constructor
    · rintro ⟨name, slot, known, rfl⟩
      obtain ⟨member, rfl⟩ := mem_of_slot? known
      exact slot_lt_size member
    · intro bound
      unfold size at bound
      have member := List.getElem_mem bound
      refine ⟨_, _, slot?_of_mem member, ?_⟩
      rw [slot_toNat small member, distinct.idxOf_getElem]

theorem slot?_of_front (front : registers.names <+: later.names)
    {index : UInt16} (known : registers.slot? name = some index) :
    later.slot? name = some index := by
  obtain ⟨member, rfl⟩ := mem_of_slot? known
  rw [slot?_of_mem (front.subset member), Jvm.slot_of_front front member]

theorem names_allocateAll {names : List String} (distinct : names.Nodup)
    (apart : ∀ name ∈ names, name ∉ registers.names) :
    (registers.allocateAll names).names = registers.names ++ names := by
  induction names generalizing registers with
  | nil => simp [allocateAll]
  | cons name names ih =>
      obtain ⟨isNew, distinct⟩ := List.nodup_cons.mp distinct
      have unknown : registers.contains name = false := by
        simpa [contains] using apart name (by simp)
      have allocated : (registers.allocate name).names =
          registers.names ++ [name] := by
        simp [allocate, unknown]
      have apart : ∀ other ∈ names,
          other ∉ (registers.allocate name).names := by
        intro other member
        rw [allocated, List.mem_append, List.mem_singleton]
        rintro (known | rfl)
        · exact apart other (by simp [member]) known
        · exact isNew member
      have rest := ih distinct apart
      rw [allocated, List.append_assoc] at rest
      exact rest

theorem names_ofMethod (isStatic : Bool) {params : List String}
    (distinct : params.Nodup) (noReceiver : "this" ∉ params) :
    (ofMethod isStatic params).names =
      (if isStatic then [] else ["this"]) ++ params := by
  unfold ofMethod
  rw [names_allocateAll distinct]
  · cases isStatic <;> rfl
  · cases isStatic with
    | true => simp
    | false =>
        rintro name member (known : name ∈ ["this"])
        rw [List.mem_singleton.mp known] at member
        exact noReceiver member

end Ir.Registers

namespace Jvm

/-! ## The course of an emission -/

inductive Frame.Moves : Frame → Frame → Prop where
  | line {line : Line} {popped pushed : Nat} {before after : Frame}
      (emitted : Emitted line popped pushed before after) :
      Moves before after
  | slot (frame : Frame) (name : String) :
      Moves frame { frame with registers := frame.registers.allocate name }
  | compare {test : Test} {before after : Frame}
      (compared : Compared test before after) : Moves before after

def Frame.Leads : Frame → Frame → Prop := Relation.ReflTransGen Frame.Moves

namespace Frame.Leads

variable {first second third : Frame}

theorem trans (h : first.Leads second) (h' : second.Leads third) :
    first.Leads third :=
  Relation.ReflTransGen.trans h h'

theorem of_emitted {line : Line} {popped pushed : Nat}
    (emitted : Emitted line popped pushed first second) :
    first.Leads second :=
  .single (.line emitted)

theorem of_built {allowed : Line → Prop} (h : Built allowed first second) :
    first.Leads second := by
  refine h.preserves (motive := first.Leads) ?_ .refl
  intro before after step leads
  cases step with
  | line emitted => exact leads.tail (.line emitted)
  | slot name => exact leads.tail (.slot _ _)
  | compare compared => exact leads.tail (.compare compared)

theorem registers (h : first.Leads second) :
    first.registers.names <+: second.registers.names := by
  induction h with
  | refl => exact List.prefix_refl _
  | tail _ moves ih =>
      refine ih.trans ?_
      cases moves with
      | line emitted => exact emitted.registers ▸ List.prefix_refl _
      | slot name => exact prefix_allocate _ _
      | compare compared => exact compared.registers ▸ List.prefix_refl _

theorem distinct (h : first.Leads second)
    (start : first.registers.names.Nodup) :
    second.registers.names.Nodup := by
  induction h with
  | refl => exact start
  | tail _ moves ih =>
      cases moves with
      | line emitted => exact emitted.registers ▸ ih
      | slot name => exact (Registers.met_allocate _ _).distinct ih
      | compare compared => exact compared.registers ▸ ih

end Frame.Leads

namespace Gen

variable {linkage : Linkage} {frame after : Frame}

theorem labels_leads {names : List String}
    (h : labels names frame = .ok () after) : frame.Leads after := by
  induction names generalizing frame with
  | nil =>
      obtain ⟨_, rfl⟩ := Action.pure_eq_ok.mp h
      exact .refl
  | cons name names ih =>
      obtain ⟨_, mid, hlabel, hrest⟩ := Action.bind_eq_ok.mp h
      exact (Frame.Leads.of_emitted (emit_label hlabel)).trans (ih hrest)

theorem body_leads {place : Ir.Labels} {name : String} {index : Nat}
    {code : List Instr}
    (h : body linkage place name index code frame = .ok () after) :
    frame.Leads after := by
  induction code generalizing index frame with
  | nil => exact labels_leads h
  | cons first rest ih =>
      obtain ⟨marked, done, hlabels, ⟨mid, hinstr, hdrop, _⟩, h⟩ :=
        body_cons.mp h
      have emits : marked.Leads done :=
        (Frame.Leads.of_built (Builds.instr linkage first hinstr)).trans
          (.of_built (Builds.dropResult first hdrop))
      exact ((labels_leads hlabels).trans emits).trans (ih h)

theorem method_leads {name : String} {source : Ir.Method}
    (h : method linkage name source frame = .ok () after) :
    frame.Leads after := by
  obtain ⟨_, final, hbody, h⟩ := Action.bind_eq_ok.mp h
  refine (body_leads hbody).trans ?_
  split at h
  · exact .of_emitted (emit_plain rfl h)
  · obtain ⟨_, rfl⟩ := Action.pure_eq_ok.mp h
    exact .refl

end Gen

/-! ## Slots in lines -/

def Line.slot? : Line → Option Nat
  | .plain (.iloadAt slot) | .plain (.aloadAt slot)
  | .plain (.istoreAt slot) | .plain (.astoreAt slot) => some slot.val
  | .apply _ (.slot index) | .apply _ (.step index _) => some index.toNat
  | _ => none

/-- Lines use slots of registers, and the first one if there is a receiver. -/
def Frame.SlotsGiven (hasSelf : Bool) (frame : Frame) : Prop :=
  ∀ line ∈ frame.code.lines.toList, ∀ slot, line.slot? = some slot →
    slot < frame.registers.size ∨ hasSelf = true ∧ slot = 0

namespace Frame.SlotsGiven

variable {hasSelf : Bool} {before after : Frame}

theorem emitted {line : Line} {popped pushed : Nat}
    (h : before.SlotsGiven hasSelf)
    (emitted : Emitted line popped pushed before after)
    (isGiven : ∀ slot, line.slot? = some slot →
      slot < before.registers.size ∨ hasSelf = true ∧ slot = 0) :
    after.SlotsGiven hasSelf := by
  intro other member slot uses
  rw [emitted.registers]
  rw [emitted.lines, Array.toList_push, List.mem_append, List.mem_singleton]
    at member
  rcases member with member | rfl
  · exact h other member slot uses
  · exact isGiven slot uses

theorem slot (h : before.SlotsGiven hasSelf) (name : String) :
    SlotsGiven hasSelf
      { before with registers := before.registers.allocate name } := by
  intro line member slot uses
  refine (h line member slot uses).imp_left fun bound => ?_
  exact Nat.lt_of_lt_of_le bound (prefix_allocate _ _).length_le

theorem compared {test : Test} (h : before.SlotsGiven hasSelf)
    (compared : Compared test before after) : after.SlotsGiven hasSelf := by
  intro line member slot uses
  rw [compared.registers]
  rw [compared.lines, List.mem_append] at member
  rcases member with member | member
  · exact h line member slot uses
  · simp only [comparisonLines, List.mem_cons, List.not_mem_nil, or_false]
      at member
    rcases member with rfl | rfl | rfl | rfl | rfl | rfl | rfl <;>
      simp [Line.slot?, Opcode.truth] at uses

theorem built (h : before.SlotsGiven hasSelf)
    (built : Built (fun line => line.slot? = none) before after) :
    after.SlotsGiven hasSelf := by
  refine built.preserves (motive := SlotsGiven hasSelf) ?_ h
  intro first second step given
  cases step with
  | line emitted _ slotless =>
      exact given.emitted emitted (by simp [slotless])
  | slot => exact given.slot _
  | compare compared => exact given.compared compared

end Frame.SlotsGiven

namespace Gen

variable {linkage : Linkage} {frame mid after : Frame} {hasSelf : Bool}

theorem shortForm?_slot? {op short : Opcode} {index : UInt16}
    (form : op.shortForm? index = some short) :
    (Line.plain short).slot? = some index.toNat := by
  rw [Opcode.shortForm?] at form
  split at form
  · cases op <;> cases form <;> rfl
  · contradiction

theorem slotLine_given {op : Opcode} {name : String} {index : UInt16}
    {popped pushed : Nat} (known : op.effect? = some (popped, pushed))
    (hslot : slot name frame = .ok index mid)
    (h : emit (.slot op index) mid = .ok () after)
    (given : frame.SlotsGiven hasSelf) : after.SlotsGiven hasSelf := by
  obtain ⟨rfl, rfl⟩ := slot_eq_ok hslot
  have bound : (frame.registers.slot name).toNat <
      (frame.registers.allocate name).size := by
    rw [← slot_allocate]
    exact Registers.slot_lt_size (mem_allocate _ _)
  have given := given.slot name
  -- Low slots are part of the instruction, others are its argument.
  rcases emit_slot known h with ⟨short, form, emitted⟩ | emitted
  · refine given.emitted emitted fun slot uses => .inl ?_
    rw [shortForm?_slot? form] at uses
    exact Option.some.inj uses ▸ bound
  · refine given.emitted emitted fun slot uses => .inl ?_
    exact Option.some.inj uses ▸ bound

theorem int_slotless (value : Int32) :
    Builds (fun line => line.slot? = none) (emit (.int value)) := by
  rw [Emit.int]
  split
  · exact .plain rfl rfl
  · split
    · exact .apply rfl rfl rfl
    · split
      · exact .apply rfl rfl rfl
      · exact .apply rfl rfl rfl

theorem load_given {operand : Operand}
    (h : load operand frame = .ok () after)
    (receiver : operand.usesSelf = true → hasSelf = true)
    (given : frame.SlotsGiven hasSelf) : after.SlotsGiven hasSelf := by
  induction operand generalizing frame after with
  | literal value ty => exact given.built (int_slotless value h)
  | var name ty =>
      obtain ⟨index, mid, hslot, h⟩ := Action.bind_eq_ok.mp h
      exact slotLine_given (loadOp_effect? ty) hslot h given
  | element array position ih =>
      obtain ⟨index, first, hslot, h⟩ := Action.bind_eq_ok.mp h
      obtain ⟨_, second, harray, h⟩ := Action.bind_eq_ok.mp h
      obtain ⟨_, third, hposition, hload⟩ := Action.bind_eq_ok.mp h
      have atPosition := ih hposition receiver
        (slotLine_given rfl hslot harray given)
      exact atPosition.emitted (emit_plain rfl hload) (by simp [Line.slot?])
  | self className =>
      refine given.emitted (emit_plain rfl h) fun slot uses => .inr ?_
      exact ⟨receiver rfl, (Option.some.inj uses).symm⟩
  | field ref => exact absurd h Action.throw_ne_ok

theorem loadAll_given {operands : List Operand}
    (h : loadAll operands frame = .ok () after)
    (receiver : ∀ operand ∈ operands,
      operand.usesSelf = true → hasSelf = true)
    (given : frame.SlotsGiven hasSelf) : after.SlotsGiven hasSelf := by
  induction operands generalizing frame with
  | nil =>
      obtain ⟨_, rfl⟩ := Action.pure_eq_ok.mp h
      exact given
  | cons operand rest ih =>
      obtain ⟨_, mid, hload, hrest⟩ := Action.bind_eq_ok.mp h
      exact ih hrest (fun other member => receiver other (by simp [member]))
        (load_given hload (receiver operand (by simp)) given)

theorem operate_slotless (op : Operator) :
    Builds (fun line => line.slot? = none) (operate op) := by
  cases op with
  | add | sub | mul | div | and => exact .plain rfl rfl
  | lt | gt | eq | ne => exact .compare _

theorem mem_of_mem_loaded {call : Call} {operand : Operand}
    (member : operand ∈ loaded call) :
    operand ∈ call.target :: call.args := by
  unfold loaded at member
  split at member
  · exact List.mem_cons_of_mem _ member
  · exact member

theorem call_given {call : Call}
    (h : Gen.call linkage call frame = .ok () after)
    (receiver : ∀ operand ∈ call.target :: call.args,
      operand.usesSelf = true → hasSelf = true)
    (given : frame.SlotsGiven hasSelf) : after.SlotsGiven hasSelf := by
  rw [Gen.call] at h
  cases kind : call.kind with
  | new =>
      simp only [kind] at h
      rcases allocate_eq_ok h with
        ⟨size, mid, _, args, hload, emitted⟩ | ⟨className, _, _, _, emitted⟩
      · have sized := load_given hload
          (receiver size (by simp [args])) given
        exact sized.emitted emitted (by simp [Line.slot?])
      · exact given.emitted emitted (by simp [Line.slot?])
  | arrayLength =>
      simp only [kind] at h
      obtain ⟨_, mid, hload, hlength⟩ := Action.bind_eq_ok.mp h
      exact (load_given hload (receiver _ (by simp)) given).emitted
        (emit_plain rfl hlength) (by simp [Line.slot?])
  | special | static | virtual =>
      simp only [kind] at h
      obtain ⟨mid, hload, emitted⟩ := invoke_eq_ok h
      have atCall := loadAll_given hload (fun operand member =>
        receiver operand (mem_of_mem_loaded member)) given
      exact atCall.emitted emitted (by simp [Line.slot?])

theorem tryIncrement_given {name : String} {ty : Ty} {value : Instr}
    {done : Bool} (h : tryIncrement name ty value frame = .ok done after)
    (given : frame.SlotsGiven hasSelf) : after.SlotsGiven hasSelf := by
  have grows := (Builds.tryIncrement name ty value h).grows
  rcases tryIncrement_eq_ok h with
    ⟨_, index, delta, mid, _, hslot, _, emitted⟩ | ⟨_, _, same⟩
  · obtain ⟨rfl, rfl⟩ := slot_eq_ok hslot
    refine (given.slot name).emitted emitted fun slot uses => .inl ?_
    rw [← Option.some.inj uses, ← slot_allocate]
    exact Registers.slot_lt_size (mem_allocate _ _)
  · intro line member slot uses
    rw [same] at member
    refine (given line member slot uses).imp_left fun bound => ?_
    exact Nat.lt_of_lt_of_le bound grows.registers.length_le

theorem store_given {name : String} {ty : Ty}
    (h : store name ty frame = .ok () after)
    (given : frame.SlotsGiven hasSelf) : after.SlotsGiven hasSelf := by
  obtain ⟨index, mid, hslot, h⟩ := Action.bind_eq_ok.mp h
  exact slotLine_given (storeOp_effect? ty) hslot h given

theorem instr_given {code : Instr}
    (h : instr linkage code frame = .ok () after)
    (receiver : ∀ operand ∈ code.operands,
      operand.usesSelf = true → hasSelf = true)
    (given : frame.SlotsGiven hasSelf) : after.SlotsGiven hasSelf := by
  induction code generalizing frame after with
  | assign dest ty value ih =>
      have inValue : ∀ operand ∈ value.operands,
          operand.usesSelf = true → hasSelf = true :=
        fun operand member => receiver operand (by
          simp [Instr.operands, member])
      cases dest with
      | element array position =>
          obtain ⟨index, first, hslot, h⟩ := Action.bind_eq_ok.mp h
          obtain ⟨_, second, harray, h⟩ := Action.bind_eq_ok.mp h
          obtain ⟨_, third, hposition, h⟩ := Action.bind_eq_ok.mp h
          obtain ⟨_, fourth, hvalue, hstore⟩ := Action.bind_eq_ok.mp h
          have atPosition := load_given hposition
            (receiver (.element array position) (by simp [Instr.operands]))
            (slotLine_given rfl hslot harray given)
          exact (ih hvalue inValue atPosition).emitted (emit_plain rfl hstore)
            (by simp [Line.slot?])
      | var name ty' =>
          obtain ⟨done, mid, htry, h⟩ := Action.bind_eq_ok.mp h
          have tried := tryIncrement_given htry given
          cases done with
          | true =>
              obtain ⟨_, rfl⟩ := Action.pure_eq_ok.mp h
              exact tried
          | false =>
              obtain ⟨_, last, hvalue, hstore⟩ := Action.bind_eq_ok.mp h
              exact store_given hstore (ih hvalue inValue tried)
      | literal | self | field => exact absurd h Action.throw_ne_ok
  | single operand =>
      exact load_given h (receiver operand (by simp [Instr.operands])) given
  | binary op left right ty =>
      obtain ⟨_, first, hleft, h⟩ := Action.bind_eq_ok.mp h
      obtain ⟨_, second, hright, hop⟩ := Action.bind_eq_ok.mp h
      have atLeft := load_given hleft
        (receiver left (by simp [Instr.operands])) given
      have atRight := load_given hright
        (receiver right (by simp [Instr.operands])) atLeft
      exact atRight.built (operate_slotless op hop)
  | not operand ty =>
      obtain ⟨_, first, hload, h⟩ := Action.bind_eq_ok.mp h
      obtain ⟨_, second, htrue, hxor⟩ := Action.bind_eq_ok.mp h
      have atOperand := load_given hload
        (receiver operand (by simp [Instr.operands])) given
      have atTrue := atOperand.emitted (emit_plain rfl htrue)
        (by simp [Line.slot?, Opcode.truth])
      exact atTrue.emitted (emit_plain rfl hxor) (by simp [Line.slot?])
  | call invocation => exact call_given h receiver given
  | getField object field =>
      obtain ⟨_, first, hload, hget⟩ := Action.bind_eq_ok.mp h
      exact (load_given hload (receiver object (by simp [Instr.operands]))
        given).emitted (emit_apply rfl hget) (by simp [Line.slot?])
  | putField object field value =>
      obtain ⟨_, first, hobject, h⟩ := Action.bind_eq_ok.mp h
      obtain ⟨_, second, hvalue, hput⟩ := Action.bind_eq_ok.mp h
      have atObject := load_given hobject
        (receiver object (by simp [Instr.operands])) given
      have atValue := load_given hvalue
        (receiver value (by simp [Instr.operands])) atObject
      exact atValue.emitted (emit_apply rfl hput) (by simp [Line.slot?])
  | branch condition label =>
      obtain ⟨_, first, hload, hbranch⟩ := Action.bind_eq_ok.mp h
      exact (load_given hload (receiver condition (by simp [Instr.operands]))
        given).emitted (emit_apply rfl hbranch) (by simp [Line.slot?])
  | goto label => exact given.emitted (emit_apply rfl h) (by simp [Line.slot?])
  | ret ty operand =>
      rcases ret_eq_ok h with
        ⟨_, emitted⟩ | ⟨value, first, op, rfl, hload, isOp, emitted⟩
      · exact given.emitted emitted (by simp [Line.slot?])
      · refine (load_given hload (receiver value (by simp [Instr.operands]))
          given).emitted emitted ?_
        rcases isOp with rfl | rfl <;> simp [Line.slot?]

theorem labels_given {names : List String}
    (h : labels names frame = .ok () after)
    (given : frame.SlotsGiven hasSelf) : after.SlotsGiven hasSelf := by
  have marked := labels_eq_ok h
  intro line member slot uses
  rw [marked.lines, List.mem_append] at member
  rw [marked.registers]
  rcases member with member | member
  · exact given line member slot uses
  · obtain ⟨_, _, rfl⟩ := List.mem_map.mp member
    simp [Line.slot?] at uses

theorem dropResult_slotless (code : Instr) :
    Builds (fun line => line.slot? = none) (dropResult code) := by
  cases code with
  | call invocation =>
      rw [dropResult]
      split
      · exact .pure ()
      · exact .plain rfl rfl
  | _ => exact .pure ()

theorem body_given {place : Ir.Labels} {name : String} {index : Nat}
    {code : List Instr}
    (h : body linkage place name index code frame = .ok () after)
    (receiver : ∀ instr ∈ code, ∀ operand ∈ instr.operands,
      operand.usesSelf = true → hasSelf = true)
    (given : frame.SlotsGiven hasSelf) : after.SlotsGiven hasSelf := by
  induction code generalizing index frame with
  | nil => exact labels_given h given
  | cons first rest ih =>
      obtain ⟨marked, done, hlabels, ⟨mid, hinstr, hdrop, _⟩, h⟩ :=
        body_cons.mp h
      have atInstr := instr_given hinstr (receiver first (by simp))
        (labels_given hlabels given)
      exact ih h (fun instr member => receiver instr (by simp [member]))
        (atInstr.built (dropResult_slotless first hdrop))

end Gen

/-! ## Methods -/

theorem Method.maxLocals_eq {linkage : Linkage} {source : Ir.Method}
    {target : Method} (h : Method.ofIr linkage source = .ok target) :
    target.maxLocals =
      localCount source (emitted linkage source).registers := by
  have ran := (Method.translated h).ran
  simp only [Method.ofIr, ran] at h
  split at h
  · contradiction
  · cases h
    rfl

theorem localCount_pos {source : Ir.Method} {registers : Registers}
    (isInstance : source.isStatic = false) :
    0 < localCount source registers := by
  cases known : registers.contains "this" with
  | true =>
      have member : "this" ∈ registers.names := by
        simpa [Registers.contains] using known
      have := List.length_pos_of_mem member
      unfold localCount Registers.size
      omega
  | false => simp [localCount, isInstance, known]

theorem size_le_localCount (source : Ir.Method) (registers : Registers) :
    registers.size ≤ localCount source registers := by
  unfold localCount
  omega

structure KeepsSlots (linkage : Linkage) (source : Ir.Method)
    (target : Method) : Prop where
  ran : Gen.method linkage (Method.targetName source) source
    { registers := source.registers } = .ok () (emitted linkage source)
  course : Frame.Leads { registers := source.registers }
    (emitted linkage source)
  exact : ∀ frame : Frame,
    Frame.Leads { registers := source.registers } frame →
    frame.Leads (emitted linkage source) → frame.registers.Exact
  stable : ∀ frame later : Frame,
    Frame.Leads { registers := source.registers } frame →
    frame.Leads later → later.Leads (emitted linkage source) →
    ∀ name slot, frame.registers.slot? name = some slot →
      later.registers.slot? name = some slot
  lines : target.lines = (emitted linkage source).code.lines.toList
  below : ∀ line ∈ target.lines, ∀ slot, line.slot? = some slot →
    slot < target.maxLocals
  few : target.maxLocals ≤ 65535

structure PlacesParams (source : Ir.Method) (target : Method) : Prop where
  receiver : source.isStatic = false →
    source.registers.slot? "this" = some 0
  params : ∀ (index : Nat) (param : Symbol),
    source.params[index]? = some param →
    ∃ slot, source.registers.slot? param.name = some slot ∧
      slot.toNat = index + if source.isStatic then 0 else 1
  room : source.params.length + (if source.isStatic then 0 else 1) ≤
    target.maxLocals

section Methods

variable {linkage : Linkage} {source : Ir.Method} {target : Method}

theorem Method.ofIr_given (h : Method.ofIr linkage source = .ok target)
    (static : source.isStatic = true → ∀ code ∈ source.instrs,
      ∀ operand ∈ code.operands, operand.usesSelf = false) :
    (emitted linkage source).SlotsGiven (!source.isStatic) := by
  obtain ⟨_, _, final, laid, closes⟩ := Method.ofIr_eq_ok h
  have atEnd : final.SlotsGiven (!source.isStatic) := by
    refine Gen.body_given laid (fun code member operand isOperand uses => ?_)
      (by simp [Frame.SlotsGiven])
    cases isStatic : source.isStatic with
    | false => rfl
    | true => simp [static isStatic code member operand isOperand] at uses
  unfold Closes at closes
  split at closes
  · exact atEnd.emitted closes (by simp [Line.slot?])
  · exact closes ▸ atEnd

theorem Method.ofIr_keepsSlots (h : Method.ofIr linkage source = .ok target)
    (made : source.registers.IsMade)
    (static : source.isStatic = true → ∀ code ∈ source.instrs,
      ∀ operand ∈ code.operands, operand.usesSelf = false) :
    KeepsSlots linkage source target := by
  have translated := Method.translated h
  have course := Gen.method_leads translated.ran
  have limit := Method.maxLocals_eq h
  have few : target.maxLocals ≤ 65535 := limit ▸ translated.few
  have fits := size_le_localCount source (emitted linkage source).registers
  refine ⟨translated.ran, course, ?_, ?_, translated.lines, ?_, few⟩
  · intro frame before after
    -- No frame on the way has more names than the last one, which fits.
    have room := after.registers.length_le
    refine Registers.exact_of_distinct (before.distinct made.distinct) ?_
    unfold Registers.size at fits ⊢
    omega
  · intro frame later _ between _ name slot known
    exact Registers.slot?_of_front between.registers known
  · intro line member slot uses
    rw [translated.lines] at member
    rcases Method.ofIr_given h static line member slot uses with
      bound | ⟨isInstance, rfl⟩
    · omega
    · -- The receiver may be loaded from a slot that no name was given.
      rw [limit]
      exact localCount_pos (by simpa using isInstance)

theorem Method.ofIr_placesParams (h : Method.ofIr linkage source = .ok target)
    (registers : source.registers =
      .ofMethod source.isStatic (source.params.map Symbol.name))
    (distinct : (source.params.map Symbol.name).Nodup)
    (noReceiver : "this" ∉ source.params.map Symbol.name) :
    PlacesParams source target := by
  have names := Registers.names_ofMethod source.isStatic distinct noReceiver
  rw [← registers] at names
  have made : source.registers.IsMade := .inl ⟨_, _, registers⟩
  have limit : source.registers.size ≤ target.maxLocals := by
    have course : source.registers.names <+:
        (emitted linkage source).registers.names :=
      (Gen.method_leads (Method.translated h).ran).registers
    rw [Method.maxLocals_eq h]
    exact Nat.le_trans course.length_le (size_le_localCount source _)
  have small : source.registers.size ≤ 65535 := by
    refine Nat.le_trans limit ?_
    rw [Method.maxLocals_eq h]
    exact (Method.translated h).few
  constructor
  · intro isInstance
    have first : "this" ∈ source.registers.names := by
      simp [names, isInstance]
    rw [Registers.slot?_of_mem first]
    simp [Registers.slot, names, isInstance]
  · intro index param fetch
    have here : source.registers.names[
        index + if source.isStatic then 0 else 1]? = some param.name := by
      rw [names]
      cases source.isStatic <;> simp [fetch]
    obtain ⟨bound, here⟩ := List.getElem?_eq_some_iff.mp here
    have member : param.name ∈ source.registers.names :=
      here ▸ List.getElem_mem bound
    refine ⟨_, Registers.slot?_of_mem member, ?_⟩
    rw [Registers.slot_toNat small member, ← here]
    exact made.distinct.idxOf_getElem _ bound
  · unfold Registers.size at limit
    rw [names] at limit
    cases isStatic : source.isStatic <;> simp [isStatic] at limit ⊢ <;> omega

/--
Slots are given out without gaps and never change, no line uses a slot past
the limit, and the limit can be met.  In lowered methods the receiver and the
parameters have the slots that a caller passes them in.
-/
theorem Method.ofIr_slots_sound
    (h : Method.ofIr linkage source = .ok target)
    (made : source.registers.IsMade)
    (static : source.isStatic = true → ∀ code ∈ source.instrs,
      ∀ operand ∈ code.operands, operand.usesSelf = false) :
    KeepsSlots linkage source target ∧
      ∀ (table : SymbolTable) (program : Tree.Program)
        (supply after : Supply) (cls : Ir.Class),
        program.lower table supply = .ok cls after →
        source ∈ cls.methods →
        (source.params.map Symbol.name).Nodup →
        "this" ∉ source.params.map Symbol.name →
        PlacesParams source target := by
  refine ⟨Method.ofIr_keepsSlots h made static, ?_⟩
  intro table program supply after cls lowered member distinct noReceiver
  have predictable := Tree.Program.lower_predictable linkage lowered
  exact Method.ofIr_placesParams h (predictable source member).registers
    distinct noReceiver

end Methods

def counting : Tree.Program where
  declared := { name := "A", methods := [{
    name := "f"
    returnTy := .int
    params := [{ name := "a", ty := .int }, { name := "b", ty := .boolean }]
    locals := [{ name := "c", ty := .int }]
    body := [
      .assign {} (.var ⟨.int, {}⟩ "c")
        (.call ⟨.int, {}⟩ (.self ⟨.object "A", {}⟩) "f"
          [.var ⟨.int, {}⟩ "a", .var ⟨.boolean, {}⟩ "b"]),
      .assign {} (.var ⟨.int, {}⟩ "c")
        (.binary ⟨.int, {}⟩ .add (.var ⟨.int, {}⟩ "c") (.int ⟨.int, {}⟩ 1)),
      .ret {} (some (.var ⟨.int, {}⟩ "c"))] }] }

/-- Its method takes slots for the receiver, a temporary and its variables. -/
theorem ofIr_slots_sound_counting :
    ∃ cls after source target,
      counting.lower (.ofProgram counting) {} = .ok cls after ∧
      cls.methods.head? = some source ∧
      Method.ofIr (linkageOf (.ofProgram counting) cls) source = .ok target ∧
      target.maxLocals = 5 ∧
      KeepsSlots (linkageOf (.ofProgram counting) cls) source target ∧
      PlacesParams source target := by
  have known : (((counting.lower (.ofProgram counting)).run' {}).bind
      fun cls => cls.methods.head?.bind fun source =>
        (Method.ofIr (linkageOf (.ofProgram counting) cls)
          source).toOption.map fun target =>
            (source.isStatic, source.registers,
              source.params.map Symbol.name, target.maxLocals)) =
        some (false, .ofMethod false ["a", "b"], ["a", "b"], 5) := by
    decide +kernel
  cases lowered : counting.lower (.ofProgram counting) {} with
  | error cause after => simp [Action.run'_of_error lowered] at known
  | ok cls after =>
      rw [Action.run'_of_ok lowered, Option.bind_some] at known
      obtain ⟨source, first, known⟩ := Option.bind_eq_some_iff.mp known
      obtain ⟨target, ofIr, known⟩ := Option.map_eq_some_iff.mp known
      obtain ⟨isInstance, registers, params, limit⟩ :
          source.isStatic = false ∧ source.registers = _ ∧
            source.params.map Symbol.name = _ ∧ target.maxLocals = 5 := by
        simpa using known
      have translated : Method.ofIr (linkageOf (.ofProgram counting) cls)
          source = .ok target := by
        revert ofIr
        generalize Method.ofIr (linkageOf (.ofProgram counting) cls) source =
          result
        cases result <;> simp [Except.toOption]
      obtain ⟨keeps, places⟩ := Method.ofIr_slots_sound translated
        (.inl ⟨_, _, registers⟩) (by simp [isInstance])
      exact ⟨cls, after, source, target, rfl, first, translated, limit, keeps,
        places _ _ _ _ _ lowered (List.mem_of_head? first)
          (by rw [params]; decide) (by rw [params]; decide)⟩

end Jvm

end JavaMinus
