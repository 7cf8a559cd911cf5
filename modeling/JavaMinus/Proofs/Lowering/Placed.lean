import JavaMinus.Proofs.Lowering.Labels
import JavaMinus.Proofs.Semantics.Ir

/-!
# Running placed code

Code that stands somewhere in a method is run piece by piece.  For every kind
of instruction there is one lemma that says what has to be shown about the
rest if the instruction comes first.
-/

namespace JavaMinus

open Ir (Operand Instr Fragment)

variable {α β : Type}

/-! ## Placed code -/

namespace Lowering

def Placed (method : Ir.Method) (start : Nat) (code : List Fragment) : Prop :=
  ∃ before after, Holds method (before ++ code ++ after) ∧
    position before = start

namespace Placed

variable {method : Ir.Method} {start : Nat} {code code' : List Fragment}

theorem left (h : Placed method start (code ++ code')) :
    Placed method start code := by
  obtain ⟨before, after, holds, here⟩ := h
  exact ⟨before, code' ++ after, by simpa using holds, here⟩

theorem right (h : Placed method start (code ++ code')) :
    Placed method (start + position code) code' := by
  obtain ⟨before, after, holds, here⟩ := h
  exact ⟨before ++ code, after, by simpa using holds, by simp [here]⟩

theorem ofPrefix (h : Placed method start code') (front : code <+: code') :
    Placed method start code := by
  obtain ⟨rest, rfl⟩ := front
  exact h.left

theorem fetch {instr : Instr} (h : Placed method start (.instr instr :: code)) :
    method.instrs[start]? = some instr := by
  obtain ⟨before, after, holds, rfl⟩ := h
  have split : before ++ .instr instr :: code ++ after =
      before ++ .instr instr :: (code ++ after) := by simp
  exact holds.fetch split

theorem tail {instr : Instr} (h : Placed method start (.instr instr :: code)) :
    Placed method (start + 1) code := by
  rw [← List.singleton_append] at h
  exact h.right

theorem afterLabel {name : String}
    (h : Placed method start (.label name :: code)) :
    Placed method start code := by
  rw [← List.singleton_append] at h
  exact h.right

theorem jump {name : String} (h : Placed method start code)
    (before : List Fragment) (instr : Instr)
    (split : before ++ [.label name] <+: code) (member : .instr instr ∈ code)
    (target : instr.target? = some name) :
    method.labels.lookup name = some (start + position before) := by
  obtain ⟨outside, rest, holds, rfl⟩ := h
  obtain ⟨after, rfl⟩ := split
  have whole : outside ++ (before ++ [.label name] ++ after) ++ rest =
      (outside ++ before) ++ .label name :: (after ++ rest) := by
    simp
  rw [← position_append]
  exact holds.jump whole
    (List.mem_append_left _ (List.mem_append_right _ member)) target

end Placed

end Lowering

/-! ## Variables that are kept -/

namespace Supply

/-- The variables that the supply keeps are the same. -/
def Preserves (supply : Supply) (vars vars' : Locals) : Prop :=
  ∀ name, supply.Kept name → vars' name = vars name

namespace Preserves

variable {supply after : Supply} {first second third : Locals}

theorem refl (supply : Supply) (vars : Locals) :
    supply.Preserves vars vars :=
  fun _ _ => rfl

theorem trans (h : supply.Preserves first second)
    (h' : supply.Preserves second third) : supply.Preserves first third :=
  fun name kept => (h' name kept).trans (h name kept)

theorem mono (h : after.Preserves first second)
    (extend : supply.Extends after) : supply.Preserves first second :=
  fun name kept => h name (extend.kept kept)

theorem set {name : String} (fresh : ¬ supply.Kept name) (vars : Locals)
    (value : Value) : supply.Preserves vars (vars.set name value) := by
  intro other kept
  apply Locals.set_of_ne
  rintro rfl
  exact fresh kept

end Preserves

end Supply

/-! ## Operands that are kept -/

namespace Ir.Operand

variable {setting : Setting} {supply after : Supply} {vars vars' : Locals}
  {operand : Operand} {value : Value}

/-- An operand that is read without effect, from what a supply keeps. -/
def Settled (supply : Supply) : Operand → Prop
  | .literal _ _ | .self _ => True
  | .var name _ => supply.Kept name
  | .element _ _ | .field _ => False

def Gives (setting : Setting) (supply : Supply) (vars : Locals)
    (operand : Operand) (value : Value) : Prop :=
  ∀ vars', supply.Preserves vars vars' →
    operand.read setting vars' = pure value

theorem Gives.now (h : operand.Gives setting supply vars value) :
    operand.read setting vars = pure value :=
  h vars (.refl supply vars)

theorem Gives.later (h : operand.Gives setting supply vars value)
    (extend : supply.Extends after) (same : supply.Preserves vars vars') :
    operand.Gives setting after vars' value :=
  fun _ same' => h _ (same.trans (same'.mono extend))

theorem Settled.read (h : operand.Settled supply) (setting : Setting)
    (vars : Locals) :
    (∃ value, operand.Gives setting supply vars value) ∨
      operand.read setting vars = Effect.stuck := by
  cases operand with
  | literal value ty => exact .inl ⟨.word value, fun _ _ => rfl⟩
  | self className => exact .inl ⟨setting.self, fun _ _ => rfl⟩
  | var name ty =>
      cases known : vars name with
      | none =>
          right
          simp [Operand.read, Effect.read, known]
      | some value =>
          refine .inl ⟨value, fun vars' same => ?_⟩
          have := same name h
          simp [Operand.read, Effect.read, this, known]
  | element array position => exact h.elim
  | field ref => exact h.elim

end Ir.Operand

/-! ## Instructions -/

abbrev Runs {τ : Type} [HasWorld τ] (setting : Ir.Setting)
    (method : Ir.Method) (start : Ir.State)
    (result : EStateM.Result Exit τ α) (post : α → τ → Ir.State → Prop) :
    Prop :=
  Follows (method.step setting) (fun _ => True) start result post

namespace Runs

variable {setting : Ir.Setting} {method : Ir.Method} {start : Ir.State}

theorem next {instr : Instr} {action : Effect α} (write : α → Locals)
    {rest : α → Effect β} {post : β → World → Ir.State → Prop}
    (fetch : method.instrs[start.pc]? = some instr)
    (run : instr.run setting start.vars = do
      let value ← action
      pure (.next (write value)))
    (h : ∀ value reached, reached.pc = start.pc + 1 →
      reached.vars = write value →
      Runs setting method reached (rest value reached.world) post) :
    Runs setting method start ((action >>= rest) start.world) post := by
  cases result : action start.world with
  | ok value world =>
      have ran : instr.run setting start.vars start.world =
          .ok (.next (write value)) world := by
        rw [run, Action.bind_of_ok result]
        rfl
      rw [Action.bind_of_ok result]
      exact .of_step (Ir.Method.step_of_ok fetch ran) (h value _ rfl rfl)
  | error exit world =>
      have ran : instr.run setting start.vars start.world =
          .error exit world := by
        rw [run, Action.bind_of_error result]
      rw [Action.bind_of_error result]
      exact .done (Ir.Method.step_of_error fetch ran) rfl trivial

theorem truth {value : Value} {rest : Bool → Effect β}
    {post : β → World → Ir.State → Prop} {world : World}
    (h : ∀ truth, value = .ofBool truth →
      Runs setting method start (rest truth world) post) :
    Runs setting method start ((Effect.truth value >>= rest) world) post := by
  cases known : value.truth? with
  | none =>
      rw [Effect.truth, known]
      exact .stuck
  | some truth =>
      rw [Effect.truth, known]
      exact h truth (Value.eq_ofBool_of_truth? known)

variable {τ : Type} [HasWorld τ]

theorem goto {name : String} {target : Nat}
    {result : EStateM.Result Exit τ α} {post : α → τ → Ir.State → Prop}
    (fetch : method.instrs[start.pc]? = some (.goto name))
    (place : method.labels.lookup name = some target)
    (h : ∀ reached, reached.pc = target → reached.vars = start.vars →
      reached.world = start.world → Runs setting method reached result post) :
    Runs setting method start result post := by
  have ran : (Instr.goto name).run setting start.vars start.world =
      .ok (.jump name) start.world := rfl
  have stepped := Ir.Method.step_of_ok fetch ran
  rw [Ir.State.follow, place] at stepped
  exact .of_step stepped (h _ rfl rfl rfl)

theorem branch {condition : Operand} {name : String} {target : Nat}
    {truth : Bool} {result : EStateM.Result Exit τ α}
    {post : α → τ → Ir.State → Prop}
    (fetch : method.instrs[start.pc]? = some (.branch condition name))
    (place : method.labels.lookup name = some target)
    (gives : condition.read setting start.vars = pure (.ofBool truth))
    (h : ∀ reached,
      reached.pc = (if truth then target else start.pc + 1) →
      reached.vars = start.vars → reached.world = start.world →
      Runs setting method reached result post) :
    Runs setting method start result post := by
  have run : (Instr.branch condition name).run setting start.vars
      start.world =
        .ok (if truth then .jump name else .next start.vars) start.world := by
    rw [Instr.run, gives]
    cases truth <;> rfl
  have stepped := Ir.Method.step_of_ok fetch run
  cases truth with
  | false => exact .of_step stepped (h _ rfl rfl rfl)
  | true =>
      rw [if_pos rfl, Ir.State.follow, place] at stepped
      exact .of_step stepped (h _ rfl rfl rfl)

theorem retVoid {ty : Ty} {state : τ} {post : α → τ → Ir.State → Prop}
    (fetch : method.instrs[start.pc]? = some (.ret ty none))
    (sees : start.world = world state) :
    Runs setting method start (.error (.returned none) state) post :=
  .done (Ir.Method.step_of_ok fetch rfl) sees trivial

theorem retValue {ty : Ty} {operand : Operand}
    {post : α → World → Ir.State → Prop}
    (fetch : method.instrs[start.pc]? = some (.ret ty (some operand))) :
    Runs setting method start
      ((operand.read setting start.vars >>= fun value =>
        throw (.returned (some value)) : Effect α) start.world) post := by
  cases result : operand.read setting start.vars start.world with
  | ok value world =>
      have ran : (Instr.ret ty (some operand)).run setting start.vars
          start.world = .ok (.ret (some value)) world :=
        Action.bind_of_ok result
      rw [Action.bind_of_ok result]
      exact .done (Ir.Method.step_of_ok fetch ran) rfl trivial
  | error exit world =>
      have ran : (Instr.ret ty (some operand)).run setting start.vars
          start.world = .error exit world :=
        Action.bind_of_error result
      rw [Action.bind_of_error result]
      exact .done (Ir.Method.step_of_error fetch ran) rfl trivial

end Runs

end JavaMinus
