import JavaMinus.Proofs.Actions
import JavaMinus.Proofs.Semantics.Runtime
import Mathlib.Logic.Relation

/-!
# Machines

A machine takes one step after another until it is done.  That a machine
follows a computation is said once for all machines: if the computation yields
a result, the machine gets to a state that fits it, and if the computation
ends the program, so does the machine.  Computations that get stuck, or that
were not carried through, bind the machine to nothing.
-/

namespace JavaMinus

inductive Progress (σ : Type) where
  | next (state : σ)
  | done (exit : Exit) (final : σ)

class HasWorld (σ : Type) where
  world : σ → World

export HasWorld (world)

instance : HasWorld World := ⟨id⟩

variable {σ τ α β : Type}

def Reaches (step : σ → Progress σ) : σ → σ → Prop :=
  Relation.ReflTransGen fun first second => step first = .next second

def Ends (step : σ → Progress σ) (start : σ) (exit : Exit) (final : σ) :
    Prop :=
  ∃ last, Reaches step start last ∧ step last = .done exit final

namespace Reaches

variable {step : σ → Progress σ} {first second third : σ}

theorem refl (state : σ) : Reaches step state state :=
  Relation.ReflTransGen.refl

theorem single (h : step first = .next second) : Reaches step first second :=
  Relation.ReflTransGen.single h

theorem trans (h : Reaches step first second)
    (h' : Reaches step second third) : Reaches step first third :=
  Relation.ReflTransGen.trans h h'

theorem ends {exit : Exit} {final : σ} (h : Reaches step first second)
    (h' : Ends step second exit final) : Ends step first exit final := by
  obtain ⟨last, toLast, atLast⟩ := h'
  exact ⟨last, h.trans toLast, atLast⟩

/-- Steps that are matched by runs make up runs that are matched. -/
theorem simulates {step' : τ → Progress τ} {related : σ → τ → Prop}
    {steps : σ → σ → Prop} {start' : τ}
    (h : ∀ ⦃first second first'⦄, steps first second → related first first' →
      ∃ second', Reaches step' first' second' ∧ related second second')
    (run : Relation.ReflTransGen steps first second)
    (starts : related first start') :
    ∃ second', Reaches step' start' second' ∧ related second second' := by
  induction run with
  | refl => exact ⟨start', refl start', starts⟩
  | tail _ last ih =>
      obtain ⟨mid, toMid, atMid⟩ := ih
      obtain ⟨second', toEnd, atEnd⟩ := h last atMid
      exact ⟨second', toMid.trans toEnd, atEnd⟩

end Reaches

/-! ## Following a computation -/

section Follows

variable [HasWorld σ] [HasWorld τ]

/--
From a state, the machine does what a computation with this result did.  A
state in which the machine ends fits `onExit`; one that it gets to with a
value fits `post`, together with the value and the state of the computation.
-/
def Follows (step : σ → Progress σ) (onExit : σ → Prop) (start : σ) :
    EStateM.Result Exit τ α → (α → τ → σ → Prop) → Prop
  | .ok value state, post =>
      ∃ reached, Reaches step start reached ∧
        world reached = world state ∧ post value state reached
  | .error exit state, _ =>
      exit.IsOutcome →
        ∃ final, Ends step start exit final ∧
          world final = world state ∧ onExit final

namespace Follows

variable {step : σ → Progress σ} {onExit : σ → Prop} {start : σ}
  {mid : α → τ → σ → Prop} {post : β → τ → σ → Prop}

theorem ok {value : α} {state : τ} {post : α → τ → σ → Prop}
    (sees : world start = world state) (h : post value state start) :
    Follows step onExit start (.ok value state) post :=
  ⟨start, Reaches.refl start, sees, h⟩

theorem stuck {state : τ} {post : α → τ → σ → Prop} :
    Follows step onExit start (.error .stuck state) post :=
  fun h => h.elim

theorem outOfFuel {state : τ} {post : α → τ → σ → Prop} :
    Follows step onExit start (.error .outOfFuel state) post :=
  fun h => h.elim

theorem done {exit : Exit} {final : σ} {state : τ}
    {post : α → τ → σ → Prop} (atStart : step start = .done exit final)
    (sees : world final = world state) (h : onExit final) :
    Follows step onExit start (.error exit state) post :=
  fun _ => ⟨final, ⟨start, Reaches.refl start, atStart⟩, sees, h⟩

theorem of_reaches {reached : σ} {result : EStateM.Result Exit τ α}
    {post : α → τ → σ → Prop} (h : Reaches step start reached)
    (h' : Follows step onExit reached result post) :
    Follows step onExit start result post := by
  cases result with
  | ok value state =>
      obtain ⟨last, toLast, rest⟩ := h'
      exact ⟨last, h.trans toLast, rest⟩
  | error exit state =>
      intro outcome
      obtain ⟨final, ends, rest⟩ := h' outcome
      exact ⟨final, h.ends ends, rest⟩

theorem of_step {reached : σ} {result : EStateM.Result Exit τ α}
    {post : α → τ → σ → Prop} (h : step start = .next reached)
    (h' : Follows step onExit reached result post) :
    Follows step onExit start result post :=
  of_reaches (Reaches.single h) h'

theorem mono {result : EStateM.Result Exit τ α}
    {post weaker : α → τ → σ → Prop} {onExit' : σ → Prop}
    (h : Follows step onExit start result post)
    (onExits : ∀ final, onExit final → onExit' final)
    (weakens : ∀ value state reached, world reached = world state →
      post value state reached → weaker value state reached) :
    Follows step onExit' start result weaker := by
  cases result with
  | ok value state =>
      obtain ⟨reached, toReached, sees, holds⟩ := h
      exact ⟨reached, toReached, sees, weakens _ _ _ sees holds⟩
  | error exit state =>
      intro outcome
      obtain ⟨final, ends, sees, holds⟩ := h outcome
      exact ⟨final, ends, sees, onExits final holds⟩

theorem andThen {result : EStateM.Result Exit τ α}
    {post post' : α → τ → σ → Prop}
    (h : Follows step onExit start result post)
    (h' : ∀ value state reached, world reached = world state →
      post value state reached →
      Follows step onExit reached (.ok value state) post') :
    Follows step onExit start result post' := by
  cases result with
  | ok value state =>
      obtain ⟨reached, toReached, sees, holds⟩ := h
      exact of_reaches toReached (h' value state reached sees holds)
  | error exit state => exact h

theorem bind {first : EStateM Exit τ α} {second : α → EStateM Exit τ β}
    {state : τ} (h : Follows step onExit start (first state) mid)
    (h' : ∀ value state reached, world reached = world state →
      mid value state reached →
      Follows step onExit reached (second value state) post) :
    Follows step onExit start ((first >>= second) state) post := by
  cases result : first state with
  | ok value next =>
      rw [result] at h
      rw [Action.bind_of_ok result]
      obtain ⟨reached, toReached, sees, holds⟩ := h
      exact of_reaches toReached (h' value next reached sees holds)
  | error exit next =>
      rw [result] at h
      rw [Action.bind_of_error result]
      exact h

end Follows

end Follows

end JavaMinus
