import JavaMinus.Proofs.Emission.Growth
import JavaMinus.Proofs.Semantics.Jvm

/-!
# Ways through emitted lines

Which lines can follow which, and how deep the stack is on the way.  The
machine goes such a way: a line takes from the stack and puts onto it as many
values as its effect says.
-/

namespace JavaMinus.Jvm

/-! ## Ways -/

def Line.continues : Line → Bool
  | .apply .goto _ => false
  | line => !line.isReturn

inductive Flows (lines : List Line) : Nat → Nat → Prop where
  | next {position : Nat} {line : Line}
      (fetch : lines[position]? = some line)
      (continues : line.continues = true) :
      Flows lines position (position + 1)
  | jump {position goal : Nat} {line : Line} {name : String}
      (fetch : lines[position]? = some line)
      (target : line.target? = some name)
      (isGoal : lines[goal]? = some (.label name)) :
      Flows lines position goal

inductive Arrives (lines : List Line) : Nat → Nat → Prop where
  | start : Arrives lines 0 0
  | step {position next depth : Nat} {line : Line}
      (before : Arrives lines position depth)
      (fetch : lines[position]? = some line)
      (flows : Flows lines position next) :
      Arrives lines next (depth - line.popped + line.pushed)

/-! ## The machine -/

def Control.Moves (popped pushed : Nat) (stack : List Value)
    (control : Control) : Prop :=
  popped ≤ stack.length ∧ ∃ stack' slots, control = .next stack' slots ∧
    stack'.length = stack.length - popped + pushed

section Moves

variable {stack : List Value} {slots : Slots} {world world' : World}
  {control : Control}

theorem push_moves {value : Value}
    (h : push stack slots value world = .ok control world') :
    control.Moves 0 1 stack := by
  obtain ⟨rfl, _⟩ := Action.pure_eq_ok.mp h
  exact ⟨Nat.zero_le _, _, _, rfl, by simp⟩

theorem pushWithin_moves {low high : Int} {word : Int32}
    (h : pushWithin stack slots low high word world = .ok control world') :
    control.Moves 0 1 stack := by
  rw [pushWithin] at h
  split at h
  · exact push_moves h
  · exact absurd h Action.throw_ne_ok

theorem loadSlot_moves {index : UInt16}
    (h : loadSlot stack slots index world = .ok control world') :
    control.Moves 0 1 stack := by
  cases known : slots index with
  | none =>
      simp only [loadSlot, known] at h
      exact absurd h Action.throw_ne_ok
  | some value =>
      simp only [loadSlot, known] at h
      exact push_moves h

theorem storeSlot_moves {index : UInt16}
    (h : storeSlot stack slots index world = .ok control world') :
    control.Moves 1 0 stack := by
  cases stack with
  | nil => exact absurd h Action.throw_ne_ok
  | cons value rest =>
      obtain ⟨rfl, _⟩ := Action.pure_eq_ok.mp h
      exact ⟨by simp, _, _, rfl, by simp⟩

theorem addToSlot_moves {index : UInt16} {delta : Int8}
    (h : addToSlot stack slots index delta world = .ok control world') :
    control.Moves 0 0 stack := by
  cases known : slots index with
  | none =>
      simp only [addToSlot, known] at h
      exact absurd h Action.throw_ne_ok
  | some value =>
      simp only [addToSlot, known] at h
      obtain ⟨word, _, _, h⟩ := Action.bind_eq_ok.mp h
      split at h
      · obtain ⟨rfl, _⟩ := Action.pure_eq_ok.mp h
        exact ⟨Nat.zero_le _, _, _, rfl, by simp⟩
      · exact absurd h Action.throw_ne_ok

theorem onWords_moves {operation : Int32 → Int32 → Effect Int32}
    (h : onWords stack slots operation world = .ok control world') :
    control.Moves 2 1 stack := by
  rcases stack with _ | ⟨right, _ | ⟨left, rest⟩⟩
  · exact absurd h Action.throw_ne_ok
  · exact absurd h Action.throw_ne_ok
  · obtain ⟨_, _, _, h⟩ := Action.bind_eq_ok.mp h
    obtain ⟨_, _, _, h⟩ := Action.bind_eq_ok.mp h
    obtain ⟨_, _, _, h⟩ := Action.bind_eq_ok.mp h
    obtain ⟨rfl, _⟩ := Action.pure_eq_ok.mp h
    exact ⟨by simp, _, _, rfl, by simp⟩

theorem onTop_moves {action : Value → Effect Value}
    (h : onTop stack slots action world = .ok control world') :
    control.Moves 1 1 stack := by
  cases stack with
  | nil => exact absurd h Action.throw_ne_ok
  | cons value rest =>
      obtain ⟨_, _, _, h⟩ := Action.bind_eq_ok.mp h
      obtain ⟨rfl, _⟩ := Action.pure_eq_ok.mp h
      exact ⟨by simp, _, _, rfl, by simp⟩

theorem invoke_moves {runtime : Runtime} {kind : Ir.CallKind}
    {target : String}
    (h : invoke stack slots runtime kind target world =
      .ok control world') :
    ∃ method, runtime.method? target = some method ∧
      control.Moves (method.taken kind) (if method.isVoid then 0 else 1)
        stack := by
  cases read : runtime.method? target with
  | none =>
      simp only [invoke, read] at h
      exact absurd h Action.throw_ne_ok
  | some method =>
      simp only [invoke, read] at h
      refine ⟨method, rfl, ?_⟩
      split at h
      · exact absurd h Action.throw_ne_ok
      next enough =>
        obtain ⟨value, _, _, h⟩ := Action.bind_eq_ok.mp h
        obtain ⟨rfl, _⟩ := Action.pure_eq_ok.mp h
        refine ⟨Nat.le_of_not_lt enough, _, _, rfl, ?_⟩
        cases method.isVoid <;> simp

theorem getField_moves {runtime : Runtime} {target : String}
    (h : getField stack slots runtime target world = .ok control world') :
    control.Moves 1 1 stack := by
  cases read : runtime.field? target with
  | none =>
      simp only [getField, read] at h
      exact absurd h Action.throw_ne_ok
  | some field =>
      simp only [getField, read] at h
      exact onTop_moves h

theorem putField_moves {runtime : Runtime} {target : String}
    (h : putField stack slots runtime target world = .ok control world') :
    control.Moves 2 0 stack := by
  cases read : runtime.field? target with
  | none =>
      simp only [putField, read] at h
      exact absurd h Action.throw_ne_ok
  | some field =>
      simp only [putField, read] at h
      rcases stack with _ | ⟨value, _ | ⟨object, rest⟩⟩
      · exact absurd h Action.throw_ne_ok
      · exact absurd h Action.throw_ne_ok
      · obtain ⟨_, _, _, h⟩ := Action.bind_eq_ok.mp h
        obtain ⟨rfl, _⟩ := Action.pure_eq_ok.mp h
        exact ⟨by simp, _, _, rfl, by simp⟩

end Moves

def MethodRef.Moves (method : MethodRef) (op : Opcode) (popped pushed : Nat) :
    Prop :=
  (if op = .invokestatic then method.ty.params.length
    else method.ty.params.length + 1) = popped ∧
  (if method.isVoid then 0 else 1) = pushed

def Runtime.Counts (runtime : Runtime) (lines : List Line) : Prop :=
  ∀ op target popped pushed method,
    .apply op (.method target popped pushed) ∈ lines →
    runtime.method? target = some method → method.Moves op popped pushed

structure Control.Leaves (line : Line) (stack : List Value)
    (control : Control) : Prop where
  enough : line.popped ≤ stack.length
  next : ∀ stack' slots, control = .next stack' slots →
    line.continues = true ∧
      stack'.length = stack.length - line.popped + line.pushed
  jump : ∀ name stack', control = .jump name stack' →
    line.target? = some name ∧
      stack'.length = stack.length - line.popped + line.pushed

theorem Control.Moves.leaves {line : Line} {stack : List Value}
    {control : Control} {popped pushed : Nat}
    (h : control.Moves popped pushed stack)
    (effect : line.effect = (popped, pushed))
    (continues : line.continues = true) : control.Leaves line stack := by
  obtain ⟨enough, stack', slots, rfl, length⟩ := h
  constructor
  · simpa [Line.popped, effect] using enough
  · rintro _ _ ⟨⟩
    exact ⟨continues, by simpa [Line.popped, Line.pushed, effect] using length⟩
  · rintro _ _ ⟨⟩

section Lines

variable {stack : List Value} {slots : Slots} {world world' : World}
  {control : Control}

theorem Control.Leaves.ret {line : Line} {value : Option Value}
    (enough : line.popped ≤ stack.length) :
    (Control.ret value).Leaves line stack :=
  ⟨enough, by rintro _ _ ⟨⟩, by rintro _ _ ⟨⟩⟩

theorem Opcode.run_leaves {op : Opcode}
    (h : op.run stack slots world = .ok control world') :
    control.Leaves (.plain op) stack := by
  cases op with
  | iconst => exact (push_moves h).leaves rfl rfl
  | iloadAt | aloadAt => exact (loadSlot_moves h).leaves rfl rfl
  | istoreAt | astoreAt => exact (storeSlot_moves h).leaves rfl rfl
  | iaload =>
      rcases stack with _ | ⟨position, _ | ⟨array, rest⟩⟩
      · exact absurd h Action.throw_ne_ok
      · exact absurd h Action.throw_ne_ok
      · obtain ⟨value, _, _, h⟩ := Action.bind_eq_ok.mp h
        obtain ⟨rfl, _⟩ := Action.pure_eq_ok.mp h
        have moves : (Control.next (value :: rest) slots).Moves 2 1
            (position :: array :: rest) := ⟨by simp, _, _, rfl, by simp⟩
        exact moves.leaves rfl rfl
  | iastore =>
      rcases stack with _ | ⟨value, _ | ⟨position, _ | ⟨array, rest⟩⟩⟩
      · exact absurd h Action.throw_ne_ok
      · exact absurd h Action.throw_ne_ok
      · exact absurd h Action.throw_ne_ok
      · obtain ⟨_, _, _, h⟩ := Action.bind_eq_ok.mp h
        obtain ⟨rfl, _⟩ := Action.pure_eq_ok.mp h
        have moves : (Control.next rest slots).Moves 3 0
            (value :: position :: array :: rest) :=
          ⟨by simp, _, _, rfl, by simp⟩
        exact moves.leaves rfl rfl
  | pop =>
      cases stack with
      | nil => exact absurd h Action.throw_ne_ok
      | cons value rest =>
          obtain ⟨rfl, _⟩ := Action.pure_eq_ok.mp h
          have moves : (Control.next rest slots).Moves 1 0 (value :: rest) :=
            ⟨by simp, _, _, rfl, by simp⟩
          exact moves.leaves rfl rfl
  | dup =>
      cases stack with
      | nil => exact absurd h Action.throw_ne_ok
      | cons value rest =>
          obtain ⟨rfl, _⟩ := Action.pure_eq_ok.mp h
          have moves : (Control.next (value :: value :: rest) slots).Moves 1 2
              (value :: rest) := ⟨by simp, _, _, rfl, by simp⟩
          exact moves.leaves rfl rfl
  | iadd | isub | imul | idiv | iand | ixor =>
      exact (onWords_moves h).leaves rfl rfl
  | ireturn | areturn =>
      cases stack with
      | nil => exact absurd h Action.throw_ne_ok
      | cons value rest =>
          obtain ⟨rfl, _⟩ := Action.pure_eq_ok.mp h
          exact .ret (by simp [Line.popped, Line.effect, effect?])
  | vreturn =>
      obtain ⟨rfl, _⟩ := Action.pure_eq_ok.mp h
      exact .ret (Nat.zero_le _)
  | arraylength => exact (onTop_moves h).leaves rfl rfl
  | _ => exact absurd h Action.throw_ne_ok

theorem branchOn_leaves {test : Test} {name : String}
    (h : branchOn stack slots test name world = .ok control world') :
    control.Leaves (.apply (.branchIf test) (.label name)) stack := by
  cases stack with
  | nil => exact absurd h Action.throw_ne_ok
  | cons value rest =>
      obtain ⟨word, _, _, h⟩ := Action.bind_eq_ok.mp h
      obtain ⟨rfl, _⟩ := Action.pure_eq_ok.mp h
      have length : rest.length = (value :: rest).length - 1 + 0 := by simp
      split
      · refine ⟨by simp [Line.popped, Line.effect, Opcode.effect?], ?_, ?_⟩
        · rintro _ _ ⟨⟩
        · rintro _ _ ⟨⟩
          exact ⟨rfl, length⟩
      · refine ⟨by simp [Line.popped, Line.effect, Opcode.effect?], ?_, ?_⟩
        · rintro _ _ ⟨⟩
          exact ⟨rfl, length⟩
        · rintro _ _ ⟨⟩

theorem Opcode.runWith_leaves {runtime : Runtime} {op : Opcode}
    {arg : Argument}
    (counts : ∀ target popped pushed method,
      arg = .method target popped pushed →
      runtime.method? target = some method → method.Moves op popped pushed)
    (h : op.runWith runtime stack slots arg world = .ok control world') :
    control.Leaves (.apply op arg) stack := by
  unfold Opcode.runWith at h
  split at h
  · exact (pushWithin_moves h).leaves rfl rfl
  · exact (pushWithin_moves h).leaves rfl rfl
  · exact (push_moves h).leaves rfl rfl
  · exact (loadSlot_moves h).leaves rfl rfl
  · exact (loadSlot_moves h).leaves rfl rfl
  · exact (storeSlot_moves h).leaves rfl rfl
  · exact (storeSlot_moves h).leaves rfl rfl
  · exact (addToSlot_moves h).leaves rfl rfl
  · exact branchOn_leaves h
  next name =>
    obtain ⟨rfl, _⟩ := Action.pure_eq_ok.mp h
    refine ⟨Nat.zero_le _, ?_, ?_⟩
    · rintro _ _ ⟨⟩
    · rintro _ _ ⟨⟩
      exact ⟨rfl, rfl⟩
  · exact (getField_moves h).leaves rfl rfl
  · exact (putField_moves h).leaves rfl rfl
  next target popped pushed =>
    obtain ⟨method, read, moves⟩ := invoke_moves h
    obtain ⟨rfl, rfl⟩ := counts target popped pushed method rfl read
    exact moves.leaves rfl rfl
  next target popped pushed =>
    obtain ⟨method, read, moves⟩ := invoke_moves h
    obtain ⟨rfl, rfl⟩ := counts target popped pushed method rfl read
    exact moves.leaves rfl rfl
  next target popped pushed =>
    obtain ⟨method, read, moves⟩ := invoke_moves h
    obtain ⟨rfl, rfl⟩ := counts target popped pushed method rfl read
    exact moves.leaves rfl rfl
  next text =>
    obtain ⟨_, _, _, h⟩ := Action.bind_eq_ok.mp h
    exact (push_moves h).leaves rfl rfl
  next text =>
    split at h
    · exact (onTop_moves h).leaves rfl rfl
    · exact absurd h Action.throw_ne_ok
  · exact absurd h Action.throw_ne_ok

theorem Line.run_leaves {runtime : Runtime} {line : Line} {lines : List Line}
    (counts : runtime.Counts lines) (member : line ∈ lines)
    (h : line.run runtime stack slots world = .ok control world') :
    control.Leaves line stack := by
  cases line with
  | label name =>
      obtain ⟨rfl, _⟩ := Action.pure_eq_ok.mp h
      have moves : (Control.next stack slots).Moves 0 0 stack :=
        ⟨Nat.zero_le _, _, _, rfl, rfl⟩
      exact moves.leaves rfl rfl
  | plain op => exact Opcode.run_leaves h
  | apply op arg =>
      refine Opcode.runWith_leaves ?_ h
      rintro target popped pushed method rfl
      exact counts op target popped pushed method member

end Lines

theorem step_flows {runtime : Runtime} {lines : List Line}
    {state state' : State} (counts : runtime.Counts lines)
    (h : step runtime lines state = .next state') :
    ∃ line, lines[state.pc]? = some line ∧
      line.popped ≤ state.stack.length ∧ Flows lines state.pc state'.pc ∧
      state'.stack.length =
        state.stack.length - line.popped + line.pushed := by
  rw [step] at h
  split at h
  next line fetch =>
    split at h
    next control world ran =>
      have leaves := Line.run_leaves counts (List.mem_of_getElem? fetch) ran
      refine ⟨line, fetch, leaves.enough, ?_⟩
      cases control with
      | next stack slots =>
          cases h
          obtain ⟨continues, length⟩ := leaves.next stack slots rfl
          exact ⟨.next fetch continues, length⟩
      | jump name stack =>
          obtain ⟨target, length⟩ := leaves.jump name stack rfl
          rw [State.follow] at h
          split at h
          next known =>
            cases h
            exact ⟨.jump fetch target (List.getElem?_idxOf known), length⟩
          next => contradiction
      | ret value => contradiction
    next => contradiction
  next => contradiction

theorem arrives_of_reaches {runtime : Runtime} {lines : List Line}
    {start state : State} (counts : runtime.Counts lines)
    (atStart : start.pc = 0) (empty : start.stack = [])
    (reaches : Reaches (step runtime lines) start state) :
    Arrives lines state.pc state.stack.length := by
  induction reaches with
  | refl =>
      rw [atStart, empty]
      exact .start
  | tail _ stepped ih =>
      obtain ⟨line, fetch, _, flows, length⟩ := step_flows counts stepped
      rw [length]
      exact .step ih fetch flows

end JavaMinus.Jvm
