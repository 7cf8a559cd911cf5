/-!
# Actions

What is known about the parts of an action whose result is known.
-/

namespace JavaMinus.Action

variable {ε σ α β : Type}

theorem bind_of_ok {first : EStateM ε σ α} {second : α → EStateM ε σ β}
    {start mid : σ} {value : α} (h : first start = .ok value mid) :
    (first >>= second) start = second value mid := by
  change EStateM.bind first second start = _
  rw [EStateM.bind, h]

theorem bind_of_error {first : EStateM ε σ α} {second : α → EStateM ε σ β}
    {start final : σ} {cause : ε} (h : first start = .error cause final) :
    (first >>= second) start = .error cause final := by
  change EStateM.bind first second start = _
  rw [EStateM.bind, h]

theorem bind_eq_ok {first : EStateM ε σ α} {second : α → EStateM ε σ β}
    {start final : σ} {result : β} :
    (first >>= second) start = .ok result final ↔
      ∃ value mid, first start = .ok value mid ∧
        second value mid = .ok result final := by
  cases atStart : first start with
  | ok value mid =>
      rw [bind_of_ok atStart]
      constructor
      · intro h
        exact ⟨value, mid, rfl, h⟩
      · rintro ⟨value', mid', h, h'⟩
        cases h
        exact h'
  | error cause mid =>
      rw [bind_of_error atStart]
      simp

theorem bind_congr {first first' : EStateM ε σ α}
    {second second' : α → EStateM ε σ β} {start : σ}
    (h : first start = first' start)
    (h' : ∀ value mid, first start = .ok value mid →
      second value mid = second' value mid) :
    (first >>= second) start = (first' >>= second') start := by
  cases atStart : first start with
  | ok value mid =>
      rw [bind_of_ok atStart, bind_of_ok (h ▸ atStart)]
      exact h' value mid atStart
  | error cause final =>
      rw [bind_of_error atStart, bind_of_error (h ▸ atStart)]

theorem pure_eq_ok {value result : α} {start final : σ} :
    (pure value : EStateM ε σ α) start = .ok result final ↔
      value = result ∧ start = final := by
  change EStateM.Result.ok value start = _ ↔ _
  simp

theorem throw_ne_ok {cause : ε} {result : α} {start final : σ} :
    (throw cause : EStateM ε σ α) start ≠ .ok result final := by
  change EStateM.Result.error cause start ≠ _
  simp

/-! ## Results without the last state -/

section Results

variable {action : EStateM ε σ α} {start final : σ}

theorem run'_of_ok {value : α} (h : action start = .ok value final) :
    action.run' start = some value := by
  delta EStateM.run' EStateM.run
  rw [h]

theorem run'_of_error {cause : ε} (h : action start = .error cause final) :
    action.run' start = none := by
  delta EStateM.run' EStateM.run
  rw [h]

end Results

end JavaMinus.Action
