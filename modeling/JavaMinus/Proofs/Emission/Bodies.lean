import JavaMinus.Proofs.Emission.Instructions
import Mathlib.Data.List.Nodup

/-!
# The layout of emitted bodies

The code of a body is the code of its instructions, one after the other, each
behind the labels that stand before it.  The frames between them are kept:
there the stack is empty, and a label stands in the lines only if its place
was passed.
-/

namespace JavaMinus.Jvm

open Ir (Instr Labels Operand Registers)

/-! ## Labels -/

structure Marked (names : List String) (before after : Frame) : Prop where
  lines : after.code.lines.toList =
    before.code.lines.toList ++ names.map .label
  depth : after.code.depth = before.code.depth
  peak : after.code.peak = before.code.peak
  registers : after.registers = before.registers
  comparisons : after.comparisons = before.comparisons

theorem Marked.size {names : List String} {before after : Frame}
    (marked : Marked names before after) :
    after.code.lines.size = before.code.lines.size + names.length := by
  rw [← Array.length_toList, marked.lines]
  simp

theorem Gen.labels_eq_ok {names : List String} {frame after : Frame}
    (h : Gen.labels names frame = .ok () after) :
    Marked names frame after := by
  induction names generalizing frame with
  | nil =>
      obtain ⟨_, rfl⟩ := Action.pure_eq_ok.mp h
      exact ⟨by simp, rfl, rfl, rfl, rfl⟩
  | cons name names ih =>
      obtain ⟨_, mid, hlabel, hrest⟩ := Action.bind_eq_ok.mp h
      have emitted := emit_label hlabel
      have marked := ih hrest
      exact ⟨by simp [marked.lines, emitted.lines],
        marked.depth.trans emitted.depth, marked.peak.trans emitted.peak,
        marked.registers.trans emitted.registers,
        marked.comparisons.trans emitted.comparisons⟩

theorem Labels.mem_before {labels : Labels} {name : String} {index : Nat} :
    name ∈ labels.before index ↔ (name, index) ∈ labels := by
  simp [Ir.Labels.before]

theorem Marked.reaches {exec : Execution} {names : List String}
    {frame after : Frame} (marked : Marked names frame after)
    (within : exec.Within after) (state : State)
    (low : frame.code.lines.size ≤ state.pc)
    (high : state.pc ≤ after.code.lines.size) :
    Reaches (step exec.runtime exec.lines) state
      { state with pc := after.code.lines.size } := by
  have size := marked.size
  obtain ⟨more, distance⟩ := Nat.exists_eq_add_of_le high
  induction more generalizing state with
  | zero =>
      have same : state.pc = after.code.lines.size := distance.symm
      rw [← same]
      exact .refl state
  | succ more ih =>
      have bound : state.pc - frame.code.lines.size < names.length := by omega
      obtain ⟨rest, whole⟩ := within.lines
      have fetched : exec.lines[state.pc]? = some
          (.label (names[state.pc - frame.code.lines.size])) := by
        rw [← whole, marked.lines, List.append_assoc,
          List.getElem?_append_right (by simpa using low),
          List.getElem?_append_left (by simpa using bound)]
        simp [bound]
      have stepped := Execution.step_silent fetched rfl
      exact (Reaches.single stepped).trans
        (ih _ (by simp only; omega) (by simp only; omega)
          (by simp only; omega))

theorem Marked.within {exec : Execution} {names : List String}
    {frame after : Frame} (marked : Marked names frame after)
    (within : exec.Within after) : exec.Within frame where
  lines := (marked.lines ▸ List.prefix_append _ _).trans within.lines
  registers := marked.registers ▸ within.registers

/-! ## Instructions -/

def Emits (linkage : Linkage) (code : Instr) (before after : Frame) : Prop :=
  ∃ mid, Gen.instr linkage code before = .ok () mid ∧
    Gen.dropResult code mid = .ok () after ∧ after.code.depth = 0

theorem Emits.grows {linkage : Linkage} {code : Instr} {before after : Frame}
    (h : Emits linkage code before after) : Grows before after := by
  obtain ⟨mid, hinstr, hdrop, _⟩ := h
  exact (Builds.instr linkage code hinstr).grows.trans
    (Builds.dropResult code hdrop).grows

inductive Leaves : Instr → Line → Prop where
  | branch {condition : Operand} {name : String} :
      Leaves (.branch condition name) (.apply (.branchIf .ne) (.label name))
  | goto {name : String} : Leaves (.goto name) (.apply .goto (.label name))
  | ret {ty : Ty} {operand : Option Operand} {op : Opcode}
      (isReturn : (Line.plain op).isReturn = true) :
      Leaves (.ret ty operand) (.plain op)

theorem Builds.value {linkage : Linkage} {code : Instr}
    (known : isValue code = true) :
    Builds (Line.Suits code.call?) (Gen.instr linkage code) := by
  cases code with
  | single operand => exact (load operand).suits
  | binary op left right ty =>
      exact suits (bind (load left) fun _ =>
        bind (load right) fun _ => operate op)
  | not operand ty =>
      exact suits (bind (load operand) fun _ =>
        bind (plain rfl rfl) fun _ => plain rfl rfl)
  | call invocation => exact call linkage invocation
  | getField object field =>
      exact suits (bind (load object) fun _ => apply rfl rfl rfl)
  | _ => contradiction

section Assignments

variable {linkage : Linkage} {frame after : Frame} {value : Instr}

theorem assignElement_built {array : String} {position : Operand} {ty : Ty}
    (h : Gen.instr linkage (.assign (.element array position) ty value)
      frame = .ok () after) (empty : frame.code.depth = 0) :
    Built (Line.Suits value.call?) frame after := by
  obtain ⟨index, first, hslot, h⟩ := Action.bind_eq_ok.mp h
  obtain ⟨_, second, harray, h⟩ := Action.bind_eq_ok.mp h
  obtain ⟨_, third, hposition, h⟩ := Action.bind_eq_ok.mp h
  obtain ⟨_, fourth, hvalue, hstore⟩ := Action.bind_eq_ok.mp h
  have known : isValue value = true := by
    have atArray := (Gen.slotLine_depth rfl harray).2
    have atPosition := Gen.load_depth hposition
    have enough := (Gen.emit_plain rfl hstore).enough
    obtain ⟨_, rfl⟩ := Gen.slot_eq_ok hslot
    simp only at atArray
    exact Gen.isValue_of_deeper hvalue (by omega)
  have front : Built Line.IsStraight frame third :=
    ((Builds.slot array hslot).trans (Builds.slotLine rfl index harray)).trans
      (Builds.load position hposition)
  exact (front.suits.trans (Builds.value known hvalue)).trans
    (Builds.plain rfl (.inl rfl) hstore)

theorem assignVar_built {name : String} {ty ty' : Ty}
    (h : Gen.instr linkage (.assign (.var name ty') ty value) frame =
      .ok () after) (empty : frame.code.depth = 0) :
    Built (Line.Suits value.call?) frame after := by
  obtain ⟨done, mid, htry, h⟩ := Action.bind_eq_ok.mp h
  have front : Built (Line.Suits value.call?) frame mid :=
    (Builds.tryIncrement name ty value htry).suits
  rcases Gen.tryIncrement_eq_ok htry with
    ⟨rfl, _⟩ | ⟨rfl, _, same⟩
  · obtain ⟨_, rfl⟩ := Action.pure_eq_ok.mp h
    exact front
  · obtain ⟨_, last, hvalue, hstore⟩ := Action.bind_eq_ok.mp h
    have enough := (Gen.store_depth hstore).1
    have known : isValue value = true :=
      Gen.isValue_of_deeper hvalue (by rw [same]; omega)
    exact (front.trans (Builds.value known hvalue)).trans
      (Builds.store name ty hstore).suits

end Assignments

/--
From an empty stack, an instruction is built without jumps other than those of
comparisons.  If it goes elsewhere, it does so by its last line.
-/
theorem Emits.cases {linkage : Linkage} {code : Instr} {before after : Frame}
    (h : Emits linkage code before after) (empty : before.code.depth = 0) :
    ∃ mid, Built (Line.Suits code.call?) before mid ∧
      (after = mid ∨ ∃ line, Leaves code line ∧
        Emitted line line.popped line.pushed mid after) := by
  obtain ⟨mid, hinstr, hdrop, balanced⟩ := h
  have rest : Built (Line.Suits code.call?) mid after :=
    (Builds.dropResult code hdrop).suits
  cases code with
  | assign dest ty value =>
      have built : Built (Line.Suits value.call?) before mid := by
        cases dest with
        | element array position => exact assignElement_built hinstr empty
        | var name ty' => exact assignVar_built hinstr empty
        | literal | self | field => exact absurd hinstr Action.throw_ne_ok
      exact ⟨after, built.trans rest, .inl rfl⟩
  | single | binary | not | getField =>
      exact ⟨after, .trans (Builds.value rfl hinstr) rest, .inl rfl⟩
  | call invocation =>
      exact ⟨after, .trans (Builds.call linkage invocation hinstr) rest,
        .inl rfl⟩
  | putField object field value =>
      have puts : Builds Line.IsStraight
          (Gen.instr linkage (.putField object field value)) :=
        .bind (.load object) fun _ => .bind (.load value) fun _ =>
          .apply rfl rfl rfl
      exact ⟨after, (puts hinstr).suits.trans rest, .inl rfl⟩
  | branch condition name =>
      obtain ⟨_, first, hload, hbranch⟩ := Action.bind_eq_ok.mp hinstr
      obtain ⟨_, rfl⟩ := Action.pure_eq_ok.mp hdrop
      exact ⟨first, (Builds.load condition hload).suits,
        .inr ⟨_, .branch, Gen.emit_apply rfl hbranch⟩⟩
  | goto name =>
      obtain ⟨_, rfl⟩ := Action.pure_eq_ok.mp hdrop
      exact ⟨before, .refl before,
        .inr ⟨_, .goto, Gen.emit_apply rfl hinstr⟩⟩
  | ret ty operand =>
      obtain ⟨_, rfl⟩ := Action.pure_eq_ok.mp hdrop
      rcases Gen.ret_eq_ok hinstr with
        ⟨_, emitted⟩ | ⟨value, first, op, _, hload, isOp, emitted⟩
      · exact ⟨before, .refl before, .inr ⟨_, .ret rfl, emitted⟩⟩
      · refine ⟨first, (Builds.load value hload).suits, .inr ?_⟩
        rcases isOp with rfl | rfl
        · exact ⟨_, .ret rfl, emitted⟩
        · exact ⟨_, .ret rfl, emitted⟩

/-! ## Bodies -/

namespace Gen

variable {linkage : Linkage} {place : Labels} {name : String} {index : Nat}
  {frame after : Frame} {code : Instr} {front rest : List Instr}

theorem body_cons :
    body linkage place name index (code :: rest) frame = .ok () after ↔
      ∃ marked done, labels (place.before index) frame = .ok () marked ∧
        Emits linkage code marked done ∧
        body linkage place name (index + 1) rest done = .ok () after := by
  rw [body]
  constructor
  · intro h
    obtain ⟨_, marked, hlabels, h⟩ := Action.bind_eq_ok.mp h
    obtain ⟨_, mid, hinstr, h⟩ := Action.bind_eq_ok.mp h
    obtain ⟨_, done, hdrop, h⟩ := Action.bind_eq_ok.mp h
    obtain ⟨left, done', hdepth, h⟩ := Action.bind_eq_ok.mp h
    cases hdepth
    split at h
    · exact absurd h Action.throw_ne_ok
    next balanced =>
      exact ⟨marked, done, hlabels, ⟨mid, hinstr, hdrop, by
        simpa using balanced⟩, h⟩
  · rintro ⟨marked, done, hlabels, ⟨mid, hinstr, hdrop, balanced⟩, h⟩
    rw [Action.bind_of_ok hlabels, Action.bind_of_ok hinstr,
      Action.bind_of_ok hdrop]
    have depth : Gen.depth done = .ok 0 done := by
      rw [← balanced]
      rfl
    rw [Action.bind_of_ok depth]
    exact h

/-- A body that can be emitted can be emitted up to any instruction. -/
theorem body_front
    (h : body linkage place name index (front ++ rest) frame =
      .ok () after) :
    ∃ mid, body linkage place name index front frame = .ok () mid := by
  induction front generalizing index frame with
  | nil =>
      cases rest with
      | nil => exact ⟨after, h⟩
      | cons code rest =>
          obtain ⟨marked, _, hlabels, _⟩ := body_cons.mp h
          exact ⟨marked, hlabels⟩
  | cons code front ih =>
      obtain ⟨marked, done, hlabels, emits, h⟩ := body_cons.mp h
      obtain ⟨mid, hfront⟩ := ih h
      exact ⟨mid, body_cons.mpr ⟨marked, done, hlabels, emits, hfront⟩⟩

theorem body_concat
    (h : body linkage place name index (front ++ [code]) frame =
      .ok () after) :
    ∃ mid done, body linkage place name index front frame = .ok () mid ∧
      Emits linkage code mid done ∧
      Marked (place.before (index + front.length + 1)) done after := by
  induction front generalizing index frame with
  | nil =>
      obtain ⟨marked, done, hlabels, emits, hend⟩ := body_cons.mp h
      exact ⟨marked, done, hlabels, emits, labels_eq_ok hend⟩
  | cons first front ih =>
      obtain ⟨marked, done, hlabels, emits, h⟩ := body_cons.mp h
      obtain ⟨mid, done', hfront, emits', atEnd⟩ := ih h
      refine ⟨mid, done', body_cons.mpr ⟨marked, done, hlabels, emits,
        hfront⟩, emits', ?_⟩
      rwa [List.length_cons, ← Nat.add_assoc, Nat.add_right_comm index]

end Gen

/--
Frames between instructions: the stack is empty, and the labels so far are
those of comparisons and those before instructions with a smaller index.
-/
structure Orderly (place : Labels) (index : Nat) (frame : Frame) : Prop where
  depth : frame.code.depth = 0
  fresh : frame.Fresh
  labels : ∀ name, .label name ∈ frame.code.lines.toList →
    (∃ spot < index, (name, spot) ∈ place) ∨ ∃ number, IsComparison number name

namespace Orderly

variable {linkage : Linkage} {place : Labels} {index : Nat}
  {before after : Frame} {code : Instr}

theorem start (registers : Registers) :
    Orderly place 0 { registers } :=
  ⟨rfl, fun _ _ _ _ => by simp, fun _ member => by simp at member⟩

theorem emits (h : Orderly place index before)
    (emits : Emits linkage code before after) :
    Orderly place index after where
  depth := by
    obtain ⟨_, _, _, balanced⟩ := emits
    exact balanced
  fresh := h.fresh.after emits.grows
  labels name member := by
    rcases emits.grows.labels name member with
      member | ⟨number, _, _, isComparison⟩
    · exact h.labels name member
    · exact .inr ⟨number, isComparison⟩

theorem marked (h : Orderly place index before)
    (apart : ∀ entry ∈ place, ∀ number, ¬ IsComparison number entry.1)
    (marked : Marked (place.before index) before after) :
    Orderly place (index + 1) after where
  depth := marked.depth.trans h.depth
  fresh number name later isComparison member := by
    rw [marked.lines, List.mem_append] at member
    rcases member with member | member
    · exact h.fresh number name (marked.comparisons ▸ later) isComparison
        member
    · have entry : (name, index) ∈ place := by
        simpa [Labels.mem_before] using member
      exact apart _ entry number isComparison
  labels name member := by
    rw [marked.lines, List.mem_append] at member
    rcases member with member | member
    · rcases h.labels name member with ⟨spot, small, entry⟩ | isComparison
      · exact .inl ⟨spot, Nat.lt_succ_of_lt small, entry⟩
      · exact .inr isComparison
    · exact .inl ⟨index, Nat.lt_succ_self index, by
        simpa [Labels.mem_before] using member⟩

theorem areNew (h : Orderly place index before)
    (apart : ∀ entry ∈ place, ∀ number, ¬ IsComparison number entry.1)
    (unique : (place.map Prod.fst).Nodup) :
    ∀ name ∈ place.before index, .label name ∉ before.code.lines.toList := by
  intro name member stands
  have entry := Labels.mem_before.mp member
  rcases h.labels name stands with
    ⟨spot, small, other⟩ | ⟨number, isComparison⟩
  · have same := List.inj_on_of_nodup_map unique entry other rfl
    have : index = spot := congrArg Prod.snd same
    omega
  · exact apart _ entry number isComparison

end Orderly

/-! ## Boundaries -/

def boundary (linkage : Linkage) (source : Ir.Method) (index : Nat) : Frame :=
  match Gen.body linkage source.labels (Method.targetName source) 0
      (source.instrs.take index) { registers := source.registers } with
  | .ok _ frame | .error _ frame => frame

def Laid (linkage : Linkage) (source : Ir.Method) (final : Frame) : Prop :=
  Gen.body linkage source.labels (Method.targetName source) 0 source.instrs
    { registers := source.registers } = .ok () final

namespace Laid

variable {linkage : Linkage} {source : Ir.Method} {final : Frame}
  {index : Nat} {code : Instr}

theorem body_take (laid : Laid linkage source final) (index : Nat) :
    Gen.body linkage source.labels (Method.targetName source) 0
      (source.instrs.take index) { registers := source.registers } =
        .ok () (boundary linkage source index) := by
  rw [Laid, ← List.take_append_drop index source.instrs] at laid
  obtain ⟨mid, front⟩ := Gen.body_front laid
  rw [boundary, front]

theorem boundary_length (laid : Laid linkage source final) :
    boundary linkage source source.instrs.length = final := by
  rw [boundary, List.take_length, laid]

theorem boundary_zero (laid : Laid linkage source final) :
    Marked (source.labels.before 0) { registers := source.registers }
      (boundary linkage source 0) :=
  Gen.labels_eq_ok (laid.body_take 0)

theorem boundary_succ (laid : Laid linkage source final)
    (fetch : source.instrs[index]? = some code) :
    ∃ done, Emits linkage code (boundary linkage source index) done ∧
      Marked (source.labels.before (index + 1)) done
        (boundary linkage source (index + 1)) := by
  have upTo := laid.body_take (index + 1)
  obtain ⟨bound, rfl⟩ := List.getElem?_eq_some_iff.mp fetch
  rw [List.take_succ_eq_append_getElem bound] at upTo
  obtain ⟨mid, done, front, emits, marked⟩ := Gen.body_concat upTo
  rw [laid.body_take index] at front
  cases front
  rw [Nat.zero_add, List.length_take_of_le (Nat.le_of_lt bound)] at marked
  exact ⟨done, emits, marked⟩

theorem within {exec : Execution} (laid : Laid linkage source final)
    (h : exec.Within final) (inside : index ≤ source.instrs.length) :
    exec.Within (boundary linkage source index) := by
  obtain ⟨more, total⟩ := Nat.exists_eq_add_of_le inside
  induction more generalizing index with
  | zero =>
      obtain rfl : index = source.instrs.length := total.symm
      exact laid.boundary_length.symm ▸ h
  | succ more ih =>
      have bound : index < source.instrs.length := by omega
      obtain ⟨done, emits, marked⟩ :=
        laid.boundary_succ (List.getElem?_eq_getElem bound)
      exact (marked.within (ih bound (by omega))).before emits.grows

theorem registers {exec : Execution} (laid : Laid linkage source final)
    (h : exec.Within final) :
    source.registers.names <+: exec.registers.names := by
  have within := laid.within h (Nat.zero_le _)
  have same : (boundary linkage source 0).registers = source.registers :=
    laid.boundary_zero.registers
  rw [← same]
  exact within.registers

/-- Every instruction is come to by its labels, in good order. -/
theorem arrival (laid : Laid linkage source final)
    (apart : ∀ entry ∈ source.labels, ∀ number,
      ¬ IsComparison number entry.1)
    (inside : index ≤ source.instrs.length) :
    ∃ done, Orderly source.labels index done ∧
      Marked (source.labels.before index) done
        (boundary linkage source index) := by
  induction index with
  | zero => exact ⟨_, .start source.registers, laid.boundary_zero⟩
  | succ index ih =>
      obtain ⟨before, orderly, marked⟩ := ih (Nat.le_of_lt inside)
      obtain ⟨done, emits, marked'⟩ :=
        laid.boundary_succ (List.getElem?_eq_getElem inside)
      exact ⟨done, (orderly.marked apart marked).emits emits, marked'⟩

theorem orderly (laid : Laid linkage source final)
    (apart : ∀ entry ∈ source.labels, ∀ number,
      ¬ IsComparison number entry.1)
    (inside : index ≤ source.instrs.length) :
    Orderly source.labels (index + 1) (boundary linkage source index) := by
  obtain ⟨done, orderly, marked⟩ := laid.arrival apart inside
  exact orderly.marked apart marked

theorem jump_reaches {exec : Execution} {name : String}
    (laid : Laid linkage source final) (h : exec.Within final)
    (apart : ∀ entry ∈ source.labels, ∀ number,
      ¬ IsComparison number entry.1)
    (unique : (source.labels.map Prod.fst).Nodup)
    (entry : (name, index) ∈ source.labels)
    (inside : index ≤ source.instrs.length) :
    .label name ∈ exec.lines ∧ ∀ state : State,
      state.pc = exec.lines.idxOf (.label name) →
      Reaches (step exec.runtime exec.lines) state
        { state with
          pc := (boundary linkage source index).code.lines.size } := by
  obtain ⟨done, orderly, marked⟩ := laid.arrival apart inside
  have within := laid.within h inside
  have isNew := orderly.areNew apart unique name (Labels.mem_before.mpr entry)
  have marks : .label name ∈
      (source.labels.before index).map Line.label := by
    simpa [Labels.mem_before] using entry
  obtain ⟨rest, whole⟩ := within.lines
  rw [marked.lines, List.append_assoc] at whole
  have size := marked.size
  have first := List.idxOf_lt_length_of_mem marks
  have found : exec.lines.idxOf (.label name) = done.code.lines.size +
      ((source.labels.before index).map Line.label).idxOf (.label name) := by
    rw [← whole, List.idxOf_append_of_notMem isNew,
      List.idxOf_append_of_mem marks, Array.length_toList]
  refine ⟨by rw [← whole]; simp [marks], fun state here => ?_⟩
  rw [List.length_map] at first
  exact marked.reaches within state (by omega) (by omega)

end Laid

end JavaMinus.Jvm
