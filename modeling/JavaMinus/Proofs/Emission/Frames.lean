import JavaMinus.Jvm.Assembly
import JavaMinus.Proofs.Actions
import JavaMinus.Proofs.Lowering.Names
import Mathlib.Data.List.Basic

/-!
# Frames while code is emitted

Lines are only ever added at the end, and registers keep their slots.  The
labels of comparisons are told apart by their numbers.
-/

namespace JavaMinus.Jvm

open Ir (Registers)

/-! ## Registers -/

section Registers

variable {registers later : Registers} {name other : String}

theorem mem_allocate (registers : Registers) (name : String) :
    name ∈ (registers.allocate name).names := by
  rw [Registers.allocate]
  split
  next known => simpa [Registers.contains] using known
  next => simp

theorem prefix_allocate (registers : Registers) (name : String) :
    registers.names <+: (registers.allocate name).names := by
  rw [Registers.allocate]
  split
  · exact List.prefix_refl _
  · exact List.prefix_append _ _

theorem slot_of_front (front : registers.names <+: later.names)
    (member : name ∈ registers.names) :
    later.slot name = registers.slot name := by
  obtain ⟨rest, known⟩ := front
  rw [Registers.slot, Registers.slot, ← known,
    List.idxOf_append_of_mem member]

theorem slot_allocate (registers : Registers) (name : String) :
    (registers.allocate name).slot name = registers.slot name := by
  rw [Registers.allocate]
  split
  next => rfl
  next unknown =>
    have absent : name ∉ registers.names := by
      simpa [Registers.contains] using unknown
    simp [Registers.slot, List.idxOf_append_of_notMem absent,
      List.idxOf_of_notMem absent]

/-- Registered names have different slots, as long as slots do not wrap. -/
theorem slot_injective (small : registers.names.length ≤ 65535)
    (member : name ∈ registers.names) (member' : other ∈ registers.names)
    (same : registers.slot name = registers.slot other) : name = other := by
  have bound := List.idxOf_lt_length_of_mem member
  have bound' := List.idxOf_lt_length_of_mem member'
  have words := congrArg UInt16.toNat same
  simp only [Registers.slot, Nat.toUInt16_eq, UInt16.toNat_ofNat'] at words
  rw [Nat.mod_eq_of_lt (by omega), Nat.mod_eq_of_lt (by omega)] at words
  exact (List.idxOf_inj member).mp words

end Registers

/-! ## Growth -/

def IsComparison (number : Nat) (name : String) : Prop :=
  name = "cmp_true_" ++ toString number ∨
    name = "cmp_end_" ++ toString number

theorem IsComparison.numbered {number : Nat} {name : String}
    (h : IsComparison number name) : Numbered number name := by
  rcases h with rfl | rfl
  · exact ⟨"cmp_true_", rfl, by decide⟩
  · exact ⟨"cmp_end_", rfl, by decide⟩

theorem IsComparison.length {number : Nat} {name : String}
    (h : IsComparison number name) : 7 < name.length := by
  rcases h with rfl | rfl
  · rw [String.length_append, show "cmp_true_".length = 9 from rfl]
    omega
  · rw [String.length_append, show "cmp_end_".length = 8 from rfl]
    omega

structure Grows (before after : Frame) : Prop where
  lines : before.code.lines.toList <+: after.code.lines.toList
  registers : before.registers.names <+: after.registers.names
  comparisons : before.comparisons ≤ after.comparisons
  labels : ∀ name, .label name ∈ after.code.lines.toList →
    .label name ∈ before.code.lines.toList ∨
      ∃ number, before.comparisons ≤ number ∧
        number < after.comparisons ∧ IsComparison number name

namespace Grows

variable {first second third : Frame}

theorem refl (frame : Frame) : Grows frame frame :=
  ⟨List.prefix_refl _, List.prefix_refl _, Nat.le_refl _,
    fun _ member => .inl member⟩

theorem trans (h : Grows first second) (h' : Grows second third) :
    Grows first third where
  lines := h.lines.trans h'.lines
  registers := h.registers.trans h'.registers
  comparisons := Nat.le_trans h.comparisons h'.comparisons
  labels name member := by
    have := h.comparisons
    have := h'.comparisons
    rcases h'.labels name member with
      member | ⟨number, low, high, isComparison⟩
    · rcases h.labels name member with
        member | ⟨number, low, high, isComparison⟩
      · exact .inl member
      · exact .inr ⟨number, low, by omega, isComparison⟩
    · exact .inr ⟨number, by omega, high, isComparison⟩

end Grows

def Frame.Fresh (frame : Frame) : Prop :=
  ∀ number name, frame.comparisons ≤ number → IsComparison number name →
    .label name ∉ frame.code.lines.toList

theorem Frame.Fresh.after {before after : Frame} (h : before.Fresh)
    (grows : Grows before after) : after.Fresh := by
  intro number name later isComparison member
  rcases grows.labels name member with
    member | ⟨other, low, high, isOther⟩
  · exact h number name (Nat.le_trans grows.comparisons later) isComparison
      member
  · have := isComparison.numbered.unique isOther.numbered
    omega

/-! ## Emitted lines -/

def Line.isLabel : Line → Bool
  | .label _ => true
  | .plain _ | .apply _ _ => false

structure Emitted (line : Line) (popped pushed : Nat)
    (before after : Frame) : Prop where
  lines : after.code.lines = before.code.lines.push line
  enough : popped ≤ before.code.depth
  depth : after.code.depth = before.code.depth - popped + pushed
  peak : after.code.peak =
    if line.isLabel then before.code.peak
    else max before.code.peak after.code.depth
  registers : after.registers = before.registers
  comparisons : after.comparisons = before.comparisons

theorem Emitted.grows {line : Line} {popped pushed : Nat}
    {before after : Frame} (h : Emitted line popped pushed before after)
    (isInstr : ∀ name, line ≠ .label name) : Grows before after where
  lines := by simp [h.lines]
  registers := h.registers ▸ List.prefix_refl _
  comparisons := h.comparisons ▸ Nat.le_refl _
  labels name member := by
    rw [h.lines, Array.toList_push, List.mem_append, List.mem_singleton]
      at member
    exact .inl (member.resolve_right fun same => isInstr name same.symm)

namespace Gen

variable {frame after : Frame} {result : Unit}

theorem emit_eq_ok {α : Type} {action : Emit α} {result : α} :
    emit action frame = .ok result after ↔
      ∃ code, action frame.code = .ok result code ∧
        after = { frame with code } := by
  rw [emit]
  cases action frame.code with
  | ok value code => simp [eq_comm]
  | error fault code => simp

end Gen

namespace Emit

variable {code after : Code} {op : Opcode}

theorem pop_eq_ok {count : Nat} (h : pop op count code = .ok () after) :
    count ≤ code.depth ∧ after = { code with depth := code.depth - count } := by
  change (if code.depth < count then _ else _ : Emit Unit) code = _ at h
  split at h
  · exact absurd h Action.throw_ne_ok
  next enough =>
    cases h
    exact ⟨Nat.le_of_not_lt enough, rfl⟩

theorem push_eq_ok {count : Nat} (h : push count code = .ok () after) :
    after.depth = code.depth + count ∧ after.peak = max code.peak after.depth ∧
      after.lines = code.lines := by
  change (if maxDepth < code.depth + count then _ else _ : Emit Unit) code = _
    at h
  split at h
  · exact absurd h Action.throw_ne_ok
  · cases h
    exact ⟨rfl, rfl, rfl⟩

structure Counts (popped pushed : Nat) (code after : Code) : Prop where
  enough : popped ≤ code.depth
  depth : after.depth = code.depth - popped + pushed
  peak : after.peak = max code.peak after.depth
  lines : after.lines = code.lines

theorem pop_push_eq_ok {popped pushed : Nat}
    (h : (do pop op popped; push pushed) code = .ok () after) :
    Counts popped pushed code after := by
  obtain ⟨_, mid, hpop, hpush⟩ := Action.bind_eq_ok.mp h
  obtain ⟨enough, rfl⟩ := pop_eq_ok hpop
  obtain ⟨depth, peak, lines⟩ := push_eq_ok hpush
  exact ⟨enough, depth, peak, lines⟩

end Emit

namespace Gen

variable {frame after : Frame}

theorem emitted_of_account {line : Line} {popped pushed : Nat}
    {action : Emit Unit} (isInstr : line.isLabel = false)
    (counts : ∀ ⦃code after⦄, action code = .ok () after →
      Emit.Counts popped pushed code after)
    (h : emit (do action; .line line) frame = .ok () after) :
    Emitted line popped pushed frame after := by
  obtain ⟨code, emitted, rfl⟩ := emit_eq_ok.mp h
  obtain ⟨_, mid, counted, added⟩ := Action.bind_eq_ok.mp emitted
  obtain ⟨enough, depth, peak, lines⟩ := counts counted
  cases added
  exact ⟨by rw [← lines], enough, depth, by simpa [isInstr] using peak, rfl,
    rfl⟩

theorem account_counts {op : Opcode} {popped pushed : Nat}
    (known : op.effect? = some (popped, pushed)) ⦃code after : Code⦄
    (h : Emit.account op code = .ok () after) :
    Emit.Counts popped pushed code after := by
  rw [Emit.account, known] at h
  exact Emit.pop_push_eq_ok h

theorem emit_plain {op : Opcode} {popped pushed : Nat}
    (known : op.effect? = some (popped, pushed))
    (h : emit (.plain op) frame = .ok () after) :
    Emitted (.plain op) popped pushed frame after :=
  emitted_of_account rfl (account_counts known) h

theorem emit_apply {op : Opcode} {arg : Argument} {popped pushed : Nat}
    (known : op.effect? = some (popped, pushed))
    (h : emit (.apply op arg) frame = .ok () after) :
    Emitted (.apply op arg) popped pushed frame after :=
  emitted_of_account rfl (account_counts known) h

theorem emit_invoke {op : Opcode} {target : String} {popped pushed : Nat}
    (h : emit (.invoke op target popped pushed) frame = .ok () after) :
    Emitted (.apply op (.method target popped pushed)) popped pushed frame
      after := by
  rw [Emit.invoke, ← bind_assoc] at h
  exact emitted_of_account rfl (fun _ _ => Emit.pop_push_eq_ok) h

theorem effect?_of_shortForm? {op short : Opcode} {index : UInt16}
    (form : op.shortForm? index = some short) :
    short.effect? = op.effect? := by
  rw [Opcode.shortForm?] at form
  split at form
  · cases op <;> cases form <;> rfl
  · contradiction

theorem emit_slot {op : Opcode} {index : UInt16} {popped pushed : Nat}
    (known : op.effect? = some (popped, pushed))
    (h : emit (.slot op index) frame = .ok () after) :
    (∃ short, op.shortForm? index = some short ∧
      Emitted (.plain short) popped pushed frame after) ∨
    Emitted (.apply op (.slot index)) popped pushed frame after := by
  rw [Emit.slot] at h
  cases form : op.shortForm? index with
  | none =>
      rw [form] at h
      exact .inr (emit_apply known h)
  | some short =>
      rw [form] at h
      exact .inl ⟨short, rfl,
        emit_plain ((effect?_of_shortForm? form).trans known) h⟩

theorem loadOp_effect? (ty : Ty) :
    (if ty.isReference then .aload else .iload : Opcode).effect? =
      some (0, 1) := by
  cases ty.isReference <;> rfl

theorem storeOp_effect? (ty : Ty) :
    (if ty.isReference then .astore else .istore : Opcode).effect? =
      some (1, 0) := by
  cases ty.isReference <;> rfl

theorem emit_label {name : String}
    (h : emit (.label name) frame = .ok () after) :
    Emitted (.label name) 0 0 frame after := by
  obtain ⟨code, emitted, rfl⟩ := emit_eq_ok.mp h
  cases emitted
  exact ⟨rfl, Nat.zero_le _, rfl, rfl, rfl, rfl⟩

end Gen

end JavaMinus.Jvm
