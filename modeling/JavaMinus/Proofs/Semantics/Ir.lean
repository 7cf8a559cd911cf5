import JavaMinus.Proofs.Semantics.Machine

/-!
# The meaning of three-address code

A machine that runs the instructions of a method one after the other.  How
calls and fields are called by those who watch is left open: a setting gives
their names.  It also says what the operators do, so that one may ask for runs
in which no comparison overflows.
-/

namespace JavaMinus.Ir

structure Setting where
  self : Value
  oracle : Oracle
  callee : Call → Callee
  field : FieldRef → FieldId
  operate : Operator → Value → Value → Effect Value := Effect.operate

/-- Calls and fields go by the names that stand in the code. -/
def Setting.named (self : Value) (oracle : Oracle) : Setting where
  self
  oracle
  callee call :=
    { kind := call.kind
      owner := call.target.ty.className?
      name := call.method.getD "" }
  field ref := { name := ref.name }

namespace Operand

def read (setting : Setting) (vars : Locals) : Operand → Effect Value
  | .literal value _ => pure (.word value)
  | .var name _ => Effect.read vars name
  | .element array position => do
      let array ← Effect.read vars array
      let position ← position.read setting vars
      Effect.load array position
  | .self _ => pure setting.self
  | .field _ => Effect.stuck

def readAll (setting : Setting) (vars : Locals) :
    List Operand → Effect (List Value)
  | [] => pure []
  | operand :: rest => do
      let value ← operand.read setting vars
      let values ← readAll setting vars rest
      pure (value :: values)

end Operand

def Call.perform (setting : Setting) (vars : Locals) (call : Call) :
    Effect Value :=
  match call.kind with
  | .new =>
      if call.returnTy.isArray then
        match call.args with
        | [size] => do
            let size ← size.read setting vars
            Effect.newArray size
        | _ => Effect.stuck
      else if call.args.isEmpty then
        Effect.call setting.oracle (setting.callee call) []
      else Effect.stuck
  | .arrayLength => do
      let array ← call.target.read setting vars
      Effect.length array
  | .static => do
      let values ← Operand.readAll setting vars call.args
      Effect.call setting.oracle (setting.callee call) values
  | .special | .virtual => do
      let values ← Operand.readAll setting vars (call.target :: call.args)
      Effect.call setting.oracle (setting.callee call) values

inductive Control where
  | next (vars : Locals)
  | jump (label : String)
  | ret (value : Option Value)

namespace Instr

def value (setting : Setting) (vars : Locals) : Instr → Effect Value
  | .single operand => operand.read setting vars
  | .binary op left right _ => do
      let left ← left.read setting vars
      let right ← right.read setting vars
      setting.operate op left right
  | .not operand _ => do
      let value ← operand.read setting vars
      let truth ← Effect.truth value
      pure (.ofBool !truth)
  | .call invocation => invocation.perform setting vars
  | .getField object field => do
      let object ← object.read setting vars
      Effect.getField object (setting.field field)
  | .assign _ _ _ | .putField _ _ _ | .branch _ _ | .goto _ | .ret _ _ =>
      Effect.stuck

def run (setting : Setting) (vars : Locals) : Instr → Effect Control
  | .assign (.var name _) _ value => do
      let value ← value.value setting vars
      pure (.next (vars.set name value))
  | .assign (.element array position) _ value => do
      let array ← Effect.read vars array
      let position ← position.read setting vars
      let value ← value.value setting vars
      Effect.store array position value
      pure (.next vars)
  | .assign _ _ _ => Effect.stuck
  | .putField object field value => do
      let object ← object.read setting vars
      let value ← value.read setting vars
      Effect.putField object (setting.field field) value
      pure (.next vars)
  | .branch condition label => do
      let value ← condition.read setting vars
      let word ← Effect.word value
      pure (if word = 0 then .next vars else .jump label)
  | .goto label => pure (.jump label)
  | .ret _ none => pure (.ret none)
  | .ret _ (some operand) => do
      let value ← operand.read setting vars
      pure (.ret (some value))
  | instr => do
      let _ ← instr.value setting vars
      pure (.next vars)

theorem target?_of_jump {setting : Setting} {vars : Locals} {code : Instr}
    {name : String} {world after : World}
    (h : code.run setting vars world = .ok (.jump name) after) :
    code.target? = some name := by
  cases code with
  | branch condition label =>
      obtain ⟨value, _, _, h⟩ := Action.bind_eq_ok.mp h
      obtain ⟨word, _, _, h⟩ := Action.bind_eq_ok.mp h
      have control := (Action.pure_eq_ok.mp h).1
      split at control
      · contradiction
      · cases control
        rfl
  | goto label =>
      cases h
      rfl
  | assign dest ty value =>
      cases dest with
      | var name' ty' =>
          obtain ⟨_, _, _, h⟩ := Action.bind_eq_ok.mp h
          cases h
      | element array position =>
          obtain ⟨_, _, _, h⟩ := Action.bind_eq_ok.mp h
          obtain ⟨_, _, _, h⟩ := Action.bind_eq_ok.mp h
          obtain ⟨_, _, _, h⟩ := Action.bind_eq_ok.mp h
          obtain ⟨_, _, _, h⟩ := Action.bind_eq_ok.mp h
          cases h
      | literal | self | field => exact absurd h Action.throw_ne_ok
  | putField object field value =>
      obtain ⟨_, _, _, h⟩ := Action.bind_eq_ok.mp h
      obtain ⟨_, _, _, h⟩ := Action.bind_eq_ok.mp h
      obtain ⟨_, _, _, h⟩ := Action.bind_eq_ok.mp h
      cases h
  | ret ty operand =>
      cases operand with
      | none => cases h
      | some operand =>
          obtain ⟨_, _, _, h⟩ := Action.bind_eq_ok.mp h
          cases h
  | single | binary | not | call | getField =>
      obtain ⟨_, _, _, h⟩ := Action.bind_eq_ok.mp h
      cases h

end Instr

/-! ## The machine -/

structure State where
  pc : Nat
  vars : Locals
  world : World
  jumps : List String := []

instance : HasWorld State := ⟨State.world⟩

namespace State

def follow (labels : Labels) (state : State) (world : World) :
    Control → Progress State
  | .next vars => .next { state with pc := state.pc + 1, vars, world }
  | .jump label =>
      match labels.lookup label with
      | some pc =>
          .next { state with
            pc, world, jumps := state.jumps ++ [label] }
      | none => .done .stuck { state with world }
  | .ret value => .done (.returned value) { state with world }

end State

namespace Method

/--
One step.  A method without a result whose code does not end with a return
returns at the end of its code.
-/
def step (setting : Setting) (method : Method) (state : State) :
    Progress State :=
  match method.instrs[state.pc]? with
  | some instr =>
      match instr.run setting state.vars state.world with
      | .ok control world => state.follow method.labels world control
      | .error exit world => .done exit { state with world }
  | none =>
      if state.pc = method.instrs.length ∧ method.returnTy.isVoid ∧
          !method.endsWithReturn then
        .done (.returned none) state
      else .done .stuck state

variable {setting : Setting} {method : Method} {state : State}
  {instr : Instr} {world : World}

theorem step_of_ok {control : Control}
    (fetch : method.instrs[state.pc]? = some instr)
    (ran : instr.run setting state.vars state.world = .ok control world) :
    method.step setting state = state.follow method.labels world control := by
  simp only [step, fetch, ran]

theorem step_of_error {exit : Exit}
    (fetch : method.instrs[state.pc]? = some instr)
    (ran : instr.run setting state.vars state.world = .error exit world) :
    method.step setting state = .done exit { state with world } := by
  simp only [step, fetch, ran]

end Method

theorem Labels.mem_of_lookup {labels : Labels} {name : String} {place : Nat}
    (h : labels.lookup name = some place) : (name, place) ∈ labels := by
  obtain ⟨front, rest, whole, _⟩ := List.lookup_eq_some_iff.mp h
  simp [whole]

end JavaMinus.Ir
