import JavaMinus.Proofs.Emission.Growth
import JavaMinus.Proofs.Lowering.Shapes
import Mathlib.Data.List.Dedup

/-!
# Emission that goes through

Whether an instruction can be emitted depends on nothing but the depth of the
stack.  So for each piece of code it is said from which depth it goes through
to which other one, and which variables have slots then, or else from which
depth it is refused and why.
-/

namespace JavaMinus

open Ir (Operand Registers)

namespace Ir

def Operand.variables : Operand → List String
  | .var name _ => [name]
  | .element array position => array :: position.variables
  | .literal _ _ | .self _ | .field _ => []

namespace Registers

structure Met (names : List String) (before after : Registers) : Prop where
  distinct : before.names.Nodup → after.names.Nodup
  members : ∀ name, name ∈ after.names ↔ name ∈ before.names ∨ name ∈ names

variable {names names' : List String} {first second third : Registers}

theorem Met.refl (registers : Registers) : Met [] registers registers :=
  ⟨id, by simp⟩

theorem Met.trans (h : Met names first second)
    (h' : Met names' second third) : Met (names ++ names') first third where
  distinct before := h'.distinct (h.distinct before)
  members name := by
    rw [h'.members, h.members, List.mem_append, or_assoc]

theorem Met.of_iff (h : Met names first second)
    (same : ∀ name, name ∈ names ↔ name ∈ names') :
    Met names' first second where
  distinct := h.distinct
  members name := by rw [h.members, same]

theorem met_allocate (registers : Registers) (name : String) :
    Met [name] registers (registers.allocate name) := by
  rw [allocate]
  split
  next known =>
    have known : name ∈ registers.names := by simpa [contains] using known
    refine ⟨id, fun other => ?_⟩
    constructor
    · exact .inl
    · rintro (member | member)
      · exact member
      · rwa [List.mem_singleton.mp member]
  next unknown =>
    have unknown : name ∉ registers.names := by simpa [contains] using unknown
    constructor
    · intro distinct
      exact List.nodup_append.mpr ⟨distinct, by simp, by
        rintro other member _ isName rfl
        exact unknown (List.mem_singleton.mp isName ▸ member)⟩
    · simp

theorem met_allocateAll (registers : Registers) (names : List String) :
    Met names registers (registers.allocateAll names) := by
  induction names generalizing registers with
  | nil => exact .refl registers
  | cons name names ih => exact (met_allocate registers name).trans (ih _)

/-- Every name takes one slot, however often it is met. -/
theorem Met.size (h : Met names {} second) :
    second.size = names.dedup.length := by
  have distinct : second.names.Nodup := h.distinct List.nodup_nil
  refine ((List.perm_ext_iff_of_nodup distinct names.nodup_dedup).mpr
    fun name => ?_).length_eq
  rw [h.members, List.mem_dedup]
  simp

end Registers

end Ir

namespace Jvm

/-! ## Single instructions -/

namespace Emit

variable {action : Emit Unit} {popped pushed : Nat} {code : Code}

theorem pop_of_le {op : Opcode} {count : Nat} (enough : count ≤ code.depth) :
    pop op count code = .ok () { code with depth := code.depth - count } := by
  change (if code.depth < count then _ else _ : Emit Unit) code = _
  rw [if_neg (Nat.not_lt.mpr enough)]
  rfl

theorem pop_of_lt {op : Opcode} {count : Nat} (short : code.depth < count) :
    pop op count code = .error (.underflow op count code.depth) code := by
  change (if code.depth < count then _ else _ : Emit Unit) code = _
  rw [if_pos short]
  rfl

theorem push_of_le {count : Nat} (room : code.depth + count ≤ maxDepth) :
    push count code = .ok () { code with
      depth := code.depth + count
      peak := max code.peak (code.depth + count) } := by
  change (if maxDepth < code.depth + count then _ else _ : Emit Unit) code = _
  rw [if_neg (Nat.not_lt.mpr room)]
  rfl

theorem push_of_lt {count : Nat} (full : maxDepth < code.depth + count) :
    push count code = .error .overflow code := by
  change (if maxDepth < code.depth + count then _ else _ : Emit Unit) code = _
  rw [if_pos full]
  rfl

def Does (popped pushed : Nat) (action : Emit Unit) : Prop :=
  ∃ op entry, action = do pop op popped; push pushed; line entry

theorem Does.account {op : Opcode} (known : op.effect? = some (popped, pushed))
    (entry : Line) :
    Does popped pushed (do Emit.account op; line entry) := by
  refine ⟨op, entry, ?_⟩
  rw [Emit.account, known]
  exact bind_assoc _ _ _

theorem Does.plain {op : Opcode} (known : op.effect? = some (popped, pushed)) :
    Does popped pushed (plain op) :=
  .account known (.plain op)

theorem Does.apply {op : Opcode} (known : op.effect? = some (popped, pushed))
    (arg : Argument) : Does popped pushed (apply op arg) :=
  .account known (.apply op arg)

theorem Does.invoke (op : Opcode) (target : String) (popped pushed : Nat) :
    Does popped pushed (invoke op target popped pushed) :=
  ⟨op, _, rfl⟩

theorem Does.slot {op : Opcode} (known : op.effect? = some (popped, pushed))
    (index : UInt16) : Does popped pushed (slot op index) := by
  rw [Emit.slot]
  cases form : op.shortForm? index with
  | none => exact .apply known _
  | some short =>
      exact .plain ((Gen.effect?_of_shortForm? form).trans known)

theorem Does.int (value : Int32) : Does 0 1 (int value) := by
  rw [Emit.int]
  split
  · exact .plain rfl
  · split
    · exact .apply rfl _
    · split
      · exact .apply rfl _
      · exact .apply rfl _

theorem Does.increment {index : UInt16} (small : index ≤ 255) (delta : Int8) :
    Does 0 0 (increment index delta) := by
  rw [Emit.increment, if_neg (by simpa using small)]
  exact .apply rfl _

namespace Does

theorem passes (does : Does popped pushed action)
    (enough : popped ≤ code.depth)
    (room : code.depth - popped + pushed ≤ maxDepth) :
    ∃ entry, action code = .ok () {
      depth := code.depth - popped + pushed
      peak := max code.peak (code.depth - popped + pushed)
      lines := code.lines.push entry } := by
  obtain ⟨op, entry, rfl⟩ := does
  rw [Action.bind_of_ok (pop_of_le enough),
    Action.bind_of_ok (push_of_le room)]
  exact ⟨entry, rfl⟩

/-- What was popped stays popped. -/
theorem overflows (does : Does popped pushed action)
    (enough : popped ≤ code.depth)
    (full : maxDepth < code.depth - popped + pushed) :
    action code =
      .error .overflow { code with depth := code.depth - popped } := by
  obtain ⟨op, entry, rfl⟩ := does
  rw [Action.bind_of_ok (pop_of_le enough),
    Action.bind_of_error (push_of_lt full)]

theorem underflows (does : Does popped pushed action)
    (short : code.depth < popped) :
    ∃ op, action code = .error (.underflow op popped code.depth) code := by
  obtain ⟨op, entry, rfl⟩ := does
  exact ⟨op, Action.bind_of_error (pop_of_lt short)⟩

theorem within {after : Code} (does : Does popped pushed action)
    (h : action code = .ok () after) : after.depth ≤ maxDepth := by
  by_cases short : code.depth < popped
  · obtain ⟨op, failed⟩ := does.underflows short
    rw [failed] at h
    cases h
  have enough := Nat.le_of_not_lt short
  by_cases room : code.depth - popped + pushed ≤ maxDepth
  · obtain ⟨entry, ok⟩ := does.passes enough room
    rw [ok] at h
    cases h
    exact room
  · rw [does.overflows enough (Nat.lt_of_not_le room)] at h
    cases h

end Does

end Emit

/-! ## Sequences -/

namespace Gen

def Passes (action : Gen Unit) (names : List String) (start final : Nat) :
    Prop :=
  ∀ frame : Frame, frame.code.depth = start → ∃ after,
    action frame = .ok () after ∧ after.code.depth = final ∧
      frame.registers.Met names after.registers

def Stops (action : Gen Unit) (start : Nat) (causes : Breach → Prop) : Prop :=
  ∀ frame : Frame, frame.code.depth = start → ∃ cause after,
    action frame = .error cause after ∧ causes cause

variable {first : Gen Unit} {second : Unit → Gen Unit}
  {names names' : List String} {start mid final : Nat}
  {causes causes' : Breach → Prop}

namespace Passes

theorem pure : Passes (pure ()) [] start start :=
  fun frame atStart => ⟨frame, rfl, atStart, .refl _⟩

theorem of_iff {action : Gen Unit} (h : Passes action names start final)
    (same : ∀ name, name ∈ names ↔ name ∈ names') :
    Passes action names' start final := by
  intro frame atStart
  obtain ⟨after, ok, atFinal, met⟩ := h frame atStart
  exact ⟨after, ok, atFinal, met.of_iff same⟩

theorem bind (h : Passes first names start mid)
    (h' : Passes (second ()) names' mid final) :
    Passes (first >>= second) (names ++ names') start final := by
  intro frame atStart
  obtain ⟨between, ok, atMid, met⟩ := h frame atStart
  obtain ⟨after, ok', atFinal, met'⟩ := h' between atMid
  exact ⟨after, by rw [Action.bind_of_ok ok, ok'], atFinal, met.trans met'⟩

theorem andThen (h : Passes first names start mid)
    (h' : Passes (second ()) [] mid final) :
    Passes (first >>= second) names start final :=
  (h.bind h').of_iff (by simp)

theorem after (h : Passes first [] start mid)
    (h' : Passes (second ()) names mid final) :
    Passes (first >>= second) names start final :=
  h.bind h'

theorem slot {name : String} {next : UInt16 → Gen Unit}
    (h : ∀ index, Passes (next index) names start final) :
    Passes (Gen.slot name >>= next) (name :: names) start final := by
  intro frame atStart
  obtain ⟨after, ok, atFinal, met⟩ :=
    h (frame.registers.slot name)
      { frame with registers := frame.registers.allocate name } atStart
  exact ⟨after, ok, atFinal, (Registers.met_allocate _ name).trans met⟩

theorem emit {action : Emit Unit} {popped pushed : Nat}
    (does : Emit.Does popped pushed action) (enough : popped ≤ start)
    (counted : start - popped + pushed = final) (room : final ≤ maxDepth) :
    Passes (Gen.emit action) [] start final := by
  rintro frame rfl
  obtain ⟨entry, ok⟩ := does.passes enough (counted ▸ room)
  exact ⟨_, Gen.emit_eq_ok.mpr ⟨_, ok, rfl⟩, counted, .refl _⟩

theorem label (name : String) :
    Passes (Gen.emit (.label name)) [] start start :=
  fun _ atStart => ⟨_, rfl, atStart, .refl _⟩

theorem depth {next : Nat → Gen Unit}
    (h : Passes (next start) names start final) :
    Passes (Gen.depth >>= next) names start final := by
  rintro frame rfl
  exact h frame rfl

theorem resetDepth (depth : Nat) :
    Passes (Gen.emit (.resetDepth depth)) [] start depth :=
  fun _ _ => ⟨_, rfl, rfl, .refl _⟩

end Passes

namespace Stops

theorem throw {cause : Breach} (isCause : causes cause) :
    Stops (throw cause) start causes :=
  fun frame _ => ⟨cause, frame, rfl, isCause⟩

theorem mono {action : Gen Unit} (h : Stops action start causes)
    (more : ∀ cause, causes cause → causes' cause) :
    Stops action start causes' := by
  intro frame atStart
  obtain ⟨cause, after, failed, isCause⟩ := h frame atStart
  exact ⟨cause, after, failed, more cause isCause⟩

theorem atOnce (h : Stops first start causes) :
    Stops (first >>= second) start causes := by
  intro frame atStart
  obtain ⟨cause, after, failed, isCause⟩ := h frame atStart
  exact ⟨cause, after, Action.bind_of_error failed, isCause⟩

theorem later (h : Passes first names start mid)
    (h' : Stops (second ()) mid causes) :
    Stops (first >>= second) start causes := by
  intro frame atStart
  obtain ⟨between, ok, atMid, _⟩ := h frame atStart
  obtain ⟨cause, after, failed, isCause⟩ := h' between atMid
  exact ⟨cause, after, by rw [Action.bind_of_ok ok, failed], isCause⟩

theorem slot {name : String} {next : UInt16 → Gen Unit}
    (h : ∀ index, Stops (next index) start causes) :
    Stops (Gen.slot name >>= next) start causes :=
  fun frame atStart => h (frame.registers.slot name)
    { frame with registers := frame.registers.allocate name } atStart

theorem depth {next : Nat → Gen Unit} (h : Stops (next start) start causes) :
    Stops (Gen.depth >>= next) start causes := by
  rintro frame rfl
  exact h frame rfl

theorem overflow {action : Emit Unit} {popped pushed : Nat}
    (does : Emit.Does popped pushed action) (enough : popped ≤ start)
    (full : maxDepth < start - popped + pushed) :
    Stops (Gen.emit action) start (· = .fault .overflow) := by
  rintro frame rfl
  exact ⟨_, _, by rw [Gen.emit, does.overflows enough full], rfl⟩

theorem underflow {action : Emit Unit} {popped pushed : Nat}
    (does : Emit.Does popped pushed action) (short : start < popped) :
    Stops (Gen.emit action) start
      fun cause => ∃ op, cause = .fault (.underflow op popped start) := by
  rintro frame rfl
  obtain ⟨op, failed⟩ := does.underflows short
  exact ⟨_, _, by rw [Gen.emit, failed], op, rfl⟩

end Stops

/-! ## Operands -/

theorem load_passes {operand : Operand} (simple : operand.isSimple = true)
    (room : start < maxDepth) :
    Passes (load operand) operand.variables start (start + 1) := by
  cases operand with
  | literal value ty => exact .emit (.int value) (by omega) rfl room
  | var name ty =>
      exact .slot fun index =>
        .emit (.slot (loadOp_effect? ty) index) (by omega) rfl room
  | self className => exact .emit (.plain rfl) (by omega) rfl room
  | element array position => simp [Operand.isSimple] at simple
  | field ref => simp [Operand.isSimple] at simple

theorem load_stops {operand : Operand} (simple : operand.isSimple = true) :
    Stops (load operand) maxDepth (· = .fault .overflow) := by
  cases operand with
  | literal value ty => exact .overflow (.int value) (by omega) (by omega)
  | var name ty =>
      exact .slot fun index =>
        .overflow (.slot (loadOp_effect? ty) index) (by omega) (by omega)
  | self className => exact .overflow (.plain rfl) (by omega) (by omega)
  | element array position => simp [Operand.isSimple] at simple
  | field ref => simp [Operand.isSimple] at simple

theorem load_passes_of_isReadable {operand : Operand}
    (readable : operand.isReadable = true) (room : start + 1 < maxDepth) :
    Passes (load operand) operand.variables start (start + 1) := by
  cases operand with
  | element array position =>
      refine .slot fun index => ?_
      refine .bind (.emit (.slot rfl index) (by omega) rfl (by omega)) ?_
      exact .andThen (load_passes readable room)
        (.emit (.plain rfl) (by omega) (by omega) (by omega))
  | literal | var | self | field => exact load_passes readable (by omega)

theorem loadAll_passes {operands : List Operand}
    (simple : ∀ operand ∈ operands, operand.isSimple = true)
    (room : start + operands.length ≤ maxDepth) :
    Passes (loadAll operands) (operands.flatMap Operand.variables) start
      (start + operands.length) := by
  induction operands generalizing start with
  | nil => exact .pure
  | cons operand rest ih =>
      rw [List.length_cons] at room
      have first := load_passes (simple operand (by simp))
        (show start < maxDepth by omega)
      have others := ih (fun other member => simple other (by simp [member]))
        (show start + 1 + rest.length ≤ maxDepth by omega)
      rw [List.length_cons, Nat.add_comm rest.length, ← Nat.add_assoc]
      exact first.bind others

theorem loadAll_stops {operands : List Operand}
    (simple : ∀ operand ∈ operands, operand.isSimple = true)
    (low : start ≤ maxDepth) (full : maxDepth < start + operands.length) :
    Stops (loadAll operands) start (· = .fault .overflow) := by
  induction operands generalizing start with
  | nil =>
      rw [List.length_nil] at full
      omega
  | cons operand rest ih =>
      rw [List.length_cons] at full
      rcases Nat.lt_or_eq_of_le low with room | rfl
      · exact .later (load_passes (simple operand (by simp)) room)
          (ih (fun other member => simple other (by simp [member])) room
            (by omega))
      · exact .atOnce (load_stops (simple operand (by simp)))

section Counts

variable {frame after : Frame}

theorem emit_within {action : Emit Unit} {popped pushed : Nat}
    (does : Emit.Does popped pushed action)
    (h : Gen.emit action frame = .ok () after) :
    after.code.depth ≤ maxDepth := by
  obtain ⟨code, ok, rfl⟩ := emit_eq_ok.mp h
  exact does.within ok

theorem load_within {operand : Operand}
    (h : load operand frame = .ok () after) :
    after.code.depth ≤ maxDepth := by
  cases operand with
  | literal value ty => exact emit_within (.int value) h
  | var name ty =>
      obtain ⟨index, _, _, h⟩ := Action.bind_eq_ok.mp h
      exact emit_within (.slot (loadOp_effect? ty) index) h
  | self className => exact emit_within (.plain rfl) h
  | element array position =>
      obtain ⟨_, _, _, h⟩ := Action.bind_eq_ok.mp h
      obtain ⟨_, _, _, h⟩ := Action.bind_eq_ok.mp h
      obtain ⟨_, _, _, h⟩ := Action.bind_eq_ok.mp h
      exact emit_within (.plain rfl) h
  | field ref => exact absurd h Action.throw_ne_ok

theorem loadAll_within {operands : List Operand}
    (low : frame.code.depth ≤ maxDepth)
    (h : loadAll operands frame = .ok () after) :
    after.code.depth ≤ maxDepth := by
  induction operands generalizing frame with
  | nil =>
      obtain ⟨_, rfl⟩ := Action.pure_eq_ok.mp h
      exact low
  | cons operand rest ih =>
      obtain ⟨_, _, hload, hrest⟩ := Action.bind_eq_ok.mp h
      exact ih (load_within hload) hrest

theorem length_le_of_loadAll {operands : List Operand}
    (h : loadAll operands frame = .ok () after) :
    operands.length ≤ maxDepth := by
  have depth := loadAll_depth h
  cases operands with
  | nil => exact Nat.zero_le _
  | cons operand rest =>
      obtain ⟨_, _, hload, hrest⟩ := Action.bind_eq_ok.mp h
      have := loadAll_within (load_within hload) hrest
      omega

/-- The number of values that a call takes fits a word of sixteen bits. -/
theorem invoke_counts {linkage : Linkage} {call : Ir.Call}
    (h : invoke linkage call frame = .ok () after) :
    (loaded call).length ≤ maxDepth := by
  cases named : call.method with
  | none =>
      simp only [invoke, named] at h
      exact absurd h Action.throw_ne_ok
  | some method =>
      simp only [invoke, named] at h
      obtain ⟨_, _, hload, _⟩ := Action.bind_eq_ok.mp h
      exact length_le_of_loadAll hload

end Counts

theorem store_passes (name : String) (ty : Ty) (room : start ≤ maxDepth) :
    Passes (store name ty) [name] (start + 1) start :=
  .slot fun index =>
    .emit (.slot (storeOp_effect? ty) index) (by omega) (by omega) room

theorem store_stops (name : String) (ty : Ty) :
    Stops (store name ty) 0
      fun cause => ∃ op, cause = .fault (.underflow op 1 0) :=
  .slot fun index =>
    .underflow (.slot (storeOp_effect? ty) index) Nat.zero_lt_one

/-! ## Operations -/

theorem compare_passes (test : Test) (room : start + 2 ≤ maxDepth) :
    Passes (compare test) [] (start + 2) (start + 1) := by
  have numbered (number : Nat) : Passes (do
      emit (.plain .isub)
      emit (.branch (.branchIf test) ("cmp_true_" ++ toString number))
      let before ← depth
      emit (.plain (.truth false))
      emit (.branch .goto ("cmp_end_" ++ toString number))
      emit (.label ("cmp_true_" ++ toString number))
      emit (.resetDepth before)
      emit (.plain (.truth true))
      emit (.label ("cmp_end_" ++ toString number)))
      [] (start + 2) (start + 1) := by
    refine .bind (.emit (.plain rfl) (by omega) rfl (by omega)) ?_
    refine .bind (.emit (.apply rfl _) (by omega) rfl (by omega)) ?_
    refine .depth ?_
    refine .bind (.emit (.plain rfl) (by omega) rfl (by omega)) ?_
    refine .bind (.emit (.apply rfl _) (by omega) rfl (by omega)) ?_
    refine .bind (.label _) (.bind (.resetDepth _) ?_)
    exact .bind (.emit (.plain rfl) (by omega) rfl (by omega)) (.label _)
  intro frame atStart
  exact numbered frame.comparisons
    { frame with comparisons := frame.comparisons + 1 } atStart

theorem operate_passes (op : Operator) (room : start + 2 ≤ maxDepth) :
    Passes (operate op) [] (start + 2) (start + 1) := by
  cases op with
  | add | sub | mul | div | and =>
      exact .emit (.plain rfl) (by omega) (by omega) (by omega)
  | lt | gt | eq | ne => exact compare_passes _ room

end Gen

end Jvm

end JavaMinus
