import JavaMinus.Proofs.Emission.Progress

/-!
# Code buffers

A buffer is asked for labels and instructions, one after the other and whether
or not those before were refused.  How many values an instruction pops and
pushes is known beforehand.  If it is refused, no line is added and the
greatest depth stays.  The depth stays as well, but for one case: values are
popped before it is known whether there is room for those that are pushed.
-/

namespace JavaMinus.Jvm

/-! ## Refused instructions -/

/-- The action fails and changes nothing, whatever the buffer is. -/
def Emit.Refuses (action : Emit Unit) : Prop :=
  ∀ code, ∃ fault, action code = .error fault code

namespace Emit.Refuses

variable {op : Opcode}

theorem account (unknown : op.effect? = none) (entry : Line) :
    Refuses (do Emit.account op; line entry) := by
  intro code
  rw [Emit.account, unknown]
  exact ⟨.invalidOpcode op.byte, rfl⟩

theorem plain (unknown : op.effect? = none) : Refuses (plain op) :=
  account unknown (.plain op)

theorem apply (unknown : op.effect? = none) (arg : Argument) :
    Refuses (apply op arg) :=
  account unknown (.apply op arg)

theorem slot (unknown : op.effect? = none) (index : UInt16) :
    Refuses (slot op index) := by
  rw [Emit.slot]
  cases form : op.shortForm? index with
  | none => exact apply unknown _
  | some short =>
      exact plain ((Gen.effect?_of_shortForm? form).trans unknown)

end Emit.Refuses

/-! ## Single requests -/

namespace Request

/-- What an instruction pops and then pushes; none if no buffer takes it. -/
def effect? : Request → Option (Nat × Nat)
  | .plain byte | .symbol byte _ | .slot byte _ | .branch byte _ =>
      (Opcode.ofByte? byte).bind Opcode.effect?
  | .int _ => some (0, 1)
  | .increment index _ => if 255 < index then none else some (0, 0)
  | .invoke byte _ popped pushed =>
      (Opcode.ofByte? byte).map fun _ => (popped.toNat, pushed.toNat)

section Opcodes

variable {byte : UInt8} {op : Opcode} {next : Opcode → Emit Unit}

theorem opcode_bind_of_some (known : Opcode.ofByte? byte = some op) :
    opcode byte >>= next = next op := by
  rw [opcode, known]
  exact pure_bind op next

theorem opcode_bind_of_none (unknown : Opcode.ofByte? byte = none) :
    Emit.Refuses (opcode byte >>= next) := by
  rw [opcode, unknown]
  exact fun code => ⟨.invalidOpcode byte, rfl⟩

theorem does_of_bind {popped pushed : Nat}
    (h : (Opcode.ofByte? byte).bind Opcode.effect? = some (popped, pushed))
    (does : ∀ {op}, op.effect? = some (popped, pushed) →
      Emit.Does popped pushed (next op)) :
    Emit.Does popped pushed (opcode byte >>= next) := by
  obtain ⟨op, known, effect⟩ := Option.bind_eq_some_iff.mp h
  rw [opcode_bind_of_some known]
  exact does effect

theorem refuses_of_bind
    (h : (Opcode.ofByte? byte).bind Opcode.effect? = none)
    (refuses : ∀ {op}, op.effect? = none → Emit.Refuses (next op)) :
    Emit.Refuses (opcode byte >>= next) := by
  cases known : Opcode.ofByte? byte with
  | none => exact opcode_bind_of_none known
  | some op =>
      rw [known] at h
      rw [opcode_bind_of_some known]
      exact refuses h

end Opcodes

theorem perform_does {request : Request} {popped pushed : Nat}
    (h : request.effect? = some (popped, pushed)) :
    Emit.Does popped pushed request.perform := by
  cases request with
  | plain byte => exact does_of_bind h .plain
  | symbol byte text => exact does_of_bind h (.apply · _)
  | int value =>
      cases h
      exact .int value
  | slot byte index => exact does_of_bind h (.slot · index)
  | increment index delta =>
      rw [effect?] at h
      split at h
      · cases h
      next small =>
        cases h
        exact .increment (by simpa using small) delta
  | invoke byte target popped pushed =>
      obtain ⟨op, known, rfl, rfl⟩ := Option.map_eq_some_iff.mp h
      rw [perform, opcode_bind_of_some known]
      exact .invoke op target _ _
  | branch byte name => exact does_of_bind h (.apply · _)

theorem perform_refuses {request : Request} (h : request.effect? = none) :
    Emit.Refuses request.perform := by
  cases request with
  | plain byte => exact refuses_of_bind h .plain
  | symbol byte text => exact refuses_of_bind h (.apply · _)
  | int value => cases h
  | slot byte index => exact refuses_of_bind h (.slot · index)
  | increment index delta =>
      intro code
      rw [effect?] at h
      split at h
      next large =>
        rw [perform, Emit.increment, if_pos large]
        exact ⟨.slotOutOfRange index, rfl⟩
      next => cases h
  | invoke byte target popped pushed =>
      exact opcode_bind_of_none (Option.map_eq_none_iff.mp h)
  | branch byte name => exact refuses_of_bind h (.apply · _)

/-- The instruction is known, finds its values and has room for its results. -/
def Fits (code : Code) (request : Request) : Prop :=
  ∃ popped pushed, request.effect? = some (popped, pushed) ∧
    popped ≤ code.depth ∧ code.depth - popped + pushed ≤ maxDepth

theorem perform_cases (request : Request) (code : Code) :
    (∃ popped pushed entry, request.effect? = some (popped, pushed) ∧
      popped ≤ code.depth ∧ code.depth - popped + pushed ≤ maxDepth ∧
      request.perform code = .ok () {
        depth := code.depth - popped + pushed
        peak := max code.peak (code.depth - popped + pushed)
        lines := code.lines.push entry }) ∨
    (∃ fault, request.perform code = .error fault code ∧
      ∀ popped pushed, request.effect? = some (popped, pushed) →
        code.depth < popped) ∨
    ∃ popped pushed, request.effect? = some (popped, pushed) ∧
      popped ≤ code.depth ∧ maxDepth < code.depth - popped + pushed ∧
      request.perform code =
        .error .overflow { code with depth := code.depth - popped } := by
  cases effect : request.effect? with
  | none =>
      obtain ⟨fault, refused⟩ := perform_refuses effect code
      exact .inr (.inl ⟨fault, refused, by simp⟩)
  | some counts =>
      obtain ⟨popped, pushed⟩ := counts
      have does := perform_does effect
      by_cases short : code.depth < popped
      · obtain ⟨op, refused⟩ := does.underflows short
        refine .inr (.inl ⟨_, refused, ?_⟩)
        rintro _ _ ⟨⟩
        exact short
      · have enough := Nat.le_of_not_lt short
        by_cases full : maxDepth < code.depth - popped + pushed
        · exact .inr (.inr ⟨popped, pushed, rfl, enough, full,
            does.overflows enough full⟩)
        · have room := Nat.le_of_not_lt full
          obtain ⟨entry, passed⟩ := does.passes enough room
          exact .inl ⟨popped, pushed, entry, rfl, enough, room, passed⟩

theorem passes_iff_fits {request : Request} {code : Code} :
    (∃ after, request.perform code = .ok () after) ↔ request.Fits code := by
  rcases request.perform_cases code with
    ⟨popped, pushed, entry, effect, enough, room, passed⟩ |
    ⟨fault, refused, short⟩ | ⟨popped, pushed, effect, enough, full, stranded⟩
  · exact iff_of_true ⟨_, passed⟩ ⟨popped, pushed, effect, enough, room⟩
  · rw [refused]
    refine iff_of_false (by simp) ?_
    rintro ⟨popped, pushed, effect, enough, _⟩
    exact Nat.not_lt.mpr enough (short popped pushed effect)
  · rw [stranded]
    refine iff_of_false (by simp) ?_
    rintro ⟨_, _, effect', _, room⟩
    cases effect.symm.trans effect'
    exact Nat.not_lt.mpr room full

theorem perform_adds {request : Request} {code after : Code}
    (h : request.perform code = .ok () after) :
    ∃ popped pushed entry, request.effect? = some (popped, pushed) ∧
      popped ≤ code.depth ∧ after.lines = code.lines.push entry ∧
      after.depth = code.depth - popped + pushed ∧
      after.peak = max code.peak after.depth := by
  rcases request.perform_cases code with
    ⟨popped, pushed, entry, effect, enough, _, passed⟩ | ⟨fault, refused, _⟩ |
    ⟨_, _, _, _, _, stranded⟩
  · cases passed.symm.trans h
    exact ⟨popped, pushed, entry, effect, enough, rfl, rfl, rfl⟩
  · cases refused.symm.trans h
  · cases stranded.symm.trans h

/-! ## Stranded requests -/

/--
The instruction pops values and has no room for its results.  This is a copy
of the topmost value on a full stack, or a call.
-/
def Strands (code : Code) : Request → Prop
  | .plain byte | .symbol byte _ | .slot byte _ | .branch byte _ =>
      Opcode.ofByte? byte = some .dup ∧ code.depth = maxDepth
  | .int _ | .increment _ _ => False
  | .invoke byte _ popped pushed =>
      (Opcode.ofByte? byte).isSome ∧ 0 < popped.toNat ∧
        popped.toNat ≤ code.depth ∧
        maxDepth < code.depth - popped.toNat + pushed.toNat

/-- No other instruction pops values and then pushes more than it popped. -/
theorem eq_dup_of_effect? {op : Opcode} {popped pushed : Nat}
    (effect : op.effect? = some (popped, pushed)) (pops : 0 < popped)
    (grows : popped < pushed) : op = .dup := by
  cases op with
  | dup => rfl
  | _ => grind [Opcode.effect?]

variable {code : Code}

theorem bind_strands_iff {byte : UInt8} (within : code.depth ≤ maxDepth) :
    (Opcode.ofByte? byte = some .dup ∧ code.depth = maxDepth) ↔
      ∃ popped pushed,
        (Opcode.ofByte? byte).bind Opcode.effect? = some (popped, pushed) ∧
        0 < popped ∧ popped ≤ code.depth ∧
        maxDepth < code.depth - popped + pushed := by
  constructor
  · rintro ⟨isDup, full⟩
    refine ⟨1, 2, by rw [isDup]; rfl, Nat.one_pos, ?_, ?_⟩
    · rw [full]
      decide
    · rw [full]
      decide
  · rintro ⟨popped, pushed, h, pops, enough, full⟩
    obtain ⟨op, known, effect⟩ := Option.bind_eq_some_iff.mp h
    -- The stack was within its bound, so it grows by what is left over.
    have grows : popped < pushed := by omega
    obtain rfl := eq_dup_of_effect? effect pops grows
    cases effect
    exact ⟨known, by omega⟩

theorem strands_iff {request : Request} (within : code.depth ≤ maxDepth) :
    request.Strands code ↔ ∃ popped pushed,
      request.effect? = some (popped, pushed) ∧ 0 < popped ∧
      popped ≤ code.depth ∧ maxDepth < code.depth - popped + pushed := by
  cases request with
  | plain byte | symbol byte text | slot byte index | branch byte name =>
      exact bind_strands_iff within
  | int value => simp [Strands, effect?]
  | increment index delta => simp [Strands, effect?]
  | invoke byte target popped pushed =>
      constructor
      · rintro ⟨known, rest⟩
        obtain ⟨op, known⟩ := Option.isSome_iff_exists.mp known
        exact ⟨_, _, by rw [effect?, known]; rfl, rest⟩
      · rintro ⟨_, _, h, rest⟩
        obtain ⟨op, known, rfl, rfl⟩ := Option.map_eq_some_iff.mp h
        exact ⟨by rw [known]; rfl, rest⟩

theorem perform_keeps {request : Request} {after : Code} {fault : Fault}
    (within : code.depth ≤ maxDepth)
    (h : request.perform code = .error fault after) :
    after.lines = code.lines ∧ after.peak = code.peak ∧
      (¬ request.Strands code ∧ after.depth = code.depth ∨
        request.Strands code ∧ fault = .overflow ∧ ∃ popped pushed,
          request.effect? = some (popped, pushed) ∧ 0 < popped ∧
          after.depth + popped = code.depth) := by
  have strands : request.Strands code ↔ _ := strands_iff within
  rcases request.perform_cases code with
    ⟨_, _, _, _, _, _, passed⟩ | ⟨fault, refused, short⟩ |
    ⟨popped, pushed, effect, enough, full, stranded⟩
  · cases passed.symm.trans h
  · cases refused.symm.trans h
    refine ⟨rfl, rfl, .inl ⟨?_, rfl⟩⟩
    rw [strands]
    rintro ⟨popped, pushed, effect, _, enough, _⟩
    exact Nat.not_lt.mpr enough (short popped pushed effect)
  · cases stranded.symm.trans h
    refine ⟨rfl, rfl, ?_⟩
    -- If nothing was popped, the depth is the old one all the same.
    rcases Nat.eq_zero_or_pos popped with rfl | pops
    · refine .inl ⟨?_, rfl⟩
      rw [strands]
      rintro ⟨_, _, effect', pops, _⟩
      cases effect.symm.trans effect'
      exact Nat.lt_irrefl 0 pops
    · exact .inr ⟨strands.mpr ⟨popped, pushed, effect, pops, enough, full⟩, rfl,
        popped, pushed, effect, pops, Nat.sub_add_cancel enough⟩

end Request

/-! ## Runs -/

def Emit.leaves (action : Emit Unit) (code : Code) : Code :=
  match action code with
  | .ok _ after => after
  | .error _ after => after

inductive Item where
  | label (name : String)
  -- The code goes on from a depth that a branch was taken at.
  | reset (depth : UInt16)
  | instr (request : Request)

def Item.emit : Item → Emit Unit
  | .label name => .label name
  | .reset depth => .resetDepth depth.toNat
  | .instr request => request.perform

def Code.ofItems (items : List Item) : Code :=
  items.foldl (fun code item => item.emit.leaves code) {}

theorem Item.leaves_within (item : Item) {code : Code}
    (within : code.depth ≤ maxDepth) :
    (item.emit.leaves code).depth ≤ maxDepth := by
  cases item with
  | label name => exact within
  | reset depth => exact Nat.le_of_lt_succ depth.toNat_lt
  | instr request =>
      rcases request.perform_cases code with
        ⟨popped, pushed, entry, _, _, room, passed⟩ | ⟨fault, refused, _⟩ |
        ⟨popped, pushed, _, _, _, stranded⟩
      · rw [emit, Emit.leaves, passed]
        exact room
      · rw [emit, Emit.leaves, refused]
        exact within
      · rw [emit, Emit.leaves, stranded]
        exact Nat.le_trans (Nat.sub_le _ _) within

theorem Code.ofItems_within (items : List Item) :
    (Code.ofItems items).depth ≤ maxDepth := by
  have run (code : Code) (within : code.depth ≤ maxDepth) :
      (items.foldl (fun code item => item.emit.leaves code) code).depth ≤
        maxDepth := by
    induction items generalizing code with
    | nil => exact within
    | cons item items ih => exact ih _ (item.leaves_within within)
  exact run {} (Nat.zero_le _)

/--
Whatever was asked of a buffer before: an instruction is taken exactly if it is
known, finds its values and has room for its results.  It then adds one line,
and the depths are counted.  If it is refused, the lines and the greatest depth
stay, and the depth stays exactly if the instruction is not stranded between
its values and its results.
-/
theorem Request.perform_atomic_unless_stranded (items : List Item)
    (request : Request) :
    let code := Code.ofItems items
    ((∃ after, request.perform code = .ok () after) ↔ request.Fits code) ∧
    (∀ after, request.perform code = .ok () after →
      ∃ popped pushed entry, request.effect? = some (popped, pushed) ∧
        popped ≤ code.depth ∧ after.lines = code.lines.push entry ∧
        after.depth = code.depth - popped + pushed ∧
        after.peak = max code.peak after.depth) ∧
    ∀ fault after, request.perform code = .error fault after →
      after.lines = code.lines ∧ after.peak = code.peak ∧
      (¬ request.Strands code ∧ after.depth = code.depth ∨
        request.Strands code ∧ fault = .overflow ∧ ∃ popped pushed,
          request.effect? = some (popped, pushed) ∧ 0 < popped ∧
          after.depth + popped = code.depth) := by
  intro code
  exact ⟨passes_iff_fits, fun _ => perform_adds,
    fun _ _ => perform_keeps (Code.ofItems_within items)⟩

/-- A copy that is refused on a full stack has popped what it copies. -/
theorem Request.refused_dup_pops :
    let full := Code.ofItems [.instr (.invoke 0xb8 "f()V" 0 65535)]
    ∃ fault after, (Request.plain 0x59).perform full = .error fault after ∧
      full.depth = 65535 ∧ after.depth = 65534 :=
  ⟨.overflow, _, rfl, rfl, rfl⟩

end JavaMinus.Jvm
