import JavaMinus.Proofs.Constants.Replacement
import JavaMinus.Proofs.Tree.Typing

/-!
# Types in simplified programs

Only ints are put in the place of something, and only where there were ints
before.  So a well-typed program stays so when it is simplified.
-/

namespace JavaMinus

def Scope.Tracks (scope : Scope) (tracked : List String) : Prop :=
  ∀ name ∈ tracked, ∃ symbol : Symbol, symbol.ty = .int ∧
    (scope.resolve name = .localVar symbol ∨
      scope.resolve name = .param symbol)

theorem Operator.resultTy_of_compute? {op : Operator}
    {left right value : Int32} (h : op.compute? left right = some value) :
    op ≠ .and ∧ op.resultTy = .int := by
  cases op <;> simp [compute?] at h <;> exact ⟨by decide, rfl⟩

namespace Tree

/-! ## Expressions -/

namespace Expr

structure KeepsType (scope : Scope) (expr expr' : Expr) : Prop where
  named : expr'.namesClass scope = expr.namesClass scope
  typed : expr.isTyped scope = true →
    expr'.isTyped scope = true ∧ scope.typeOf expr' = scope.typeOf expr

variable {scope : Scope} {tracked : List String} {expr expr' : Expr}

theorem KeepsType.members {before after : List Expr}
    (h : KeepsType scope expr expr')
    (typed : areTyped scope (before ++ expr :: after) = true) :
    areTyped scope (before ++ expr' :: after) = true ∧
      (before ++ expr' :: after).map scope.typeOf =
        (before ++ expr :: after).map scope.typeOf := by
  simp only [areTyped_eq_true, List.mem_append, List.mem_cons] at typed ⊢
  obtain ⟨here, same⟩ := h.typed (typed expr (by simp))
  refine ⟨?_, by simp [same]⟩
  rintro other (member | rfl | member)
  · exact typed other (.inl member)
  · exact here
  · exact typed other (.inr (.inr member))

theorem KeepsType.receives (h : KeepsType scope expr expr')
    (typed : (expr.namesClass scope || expr.isTyped scope &&
      (scope.typeOf expr).className?.isSome) = true) :
    (expr'.namesClass scope || expr'.isTyped scope &&
        (scope.typeOf expr').className?.isSome) = true ∧
      scope.ownMethod? expr' = scope.ownMethod? expr := by
  unfold Scope.ownMethod?
  rw [h.named]
  cases named : expr.namesClass scope with
  | true => simp
  | false =>
      simp only [named, Bool.false_or, Bool.and_eq_true] at typed
      obtain ⟨here, same⟩ := h.typed typed.1
      simp [here, same, typed.2]

/-- Literals take the place of ints only. -/
theorem Becomes.keepsType (tracks : scope.Tracks tracked)
    (h : Becomes tracked expr expr') : KeepsType scope expr expr' := by
  induction h with
  | refl expr => exact ⟨rfl, fun typed => ⟨typed, rfl⟩⟩
  | trans _ _ ih ih' =>
      refine ⟨ih'.named.trans ih.named, fun typed => ?_⟩
      obtain ⟨typed, same⟩ := ih.typed typed
      obtain ⟨typed, same'⟩ := ih'.typed typed
      exact ⟨typed, same'.trans same⟩
  | computed attr isFirst isSecond isValue =>
      -- Comparisons are not computed, so the literal replaces an int.
      refine ⟨rfl, fun typed => ⟨rfl, ?_⟩⟩
      simp only [isTyped, Bool.and_eq_true, decide_eq_true_eq] at typed
      obtain ⟨strict, isInt⟩ := Operator.resultTy_of_compute? isValue
      simp [Scope.typeOf, strict, typed.1.2, isInt]
  | known attr value isTracked =>
      obtain ⟨symbol, isInt, origin⟩ := tracks _ isTracked
      constructor
      · rcases origin with origin | origin <;>
          simp [namesClass, skipParens, Scope.hasValue, origin]
      · refine fun _ => ⟨rfl, ?_⟩
        rcases origin with origin | origin <;>
          simp [Scope.typeOf, origin, isInt, Ty.valueTy]
  | left attr op right _ ih =>
      refine ⟨rfl, fun typed => ⟨?_, rfl⟩⟩
      simp only [isTyped, Bool.and_eq_true] at typed ⊢
      obtain ⟨here, same⟩ := ih.typed typed.1.1.1
      rw [same]
      exact ⟨⟨⟨here, typed.1.1.2⟩, typed.1.2⟩, typed.2⟩
  | right attr op left _ ih =>
      refine ⟨rfl, fun typed => ⟨?_, rfl⟩⟩
      simp only [isTyped, Bool.and_eq_true] at typed ⊢
      obtain ⟨here, same⟩ := ih.typed typed.1.1.2
      rw [same]
      exact ⟨⟨⟨typed.1.1.1, here⟩, typed.1.2⟩, typed.2⟩
  | paren attr _ ih => exact ⟨ih.named, ih.typed⟩
  | receiver attr method args _ ih =>
      refine ⟨rfl, fun typed => ⟨?_, rfl⟩⟩
      simp only [isTyped, Bool.and_eq_true] at typed ⊢
      obtain ⟨here, same⟩ := ih.receives typed.1.1.1
      refine ⟨⟨⟨here, typed.1.1.2⟩, typed.1.2⟩, ?_⟩
      rw [Scope.permits, same]
      exact typed.2
  | arg attr receiver method before after _ ih =>
      refine ⟨rfl, fun typed => ⟨?_, rfl⟩⟩
      simp only [isTyped, Bool.and_eq_true] at typed ⊢
      obtain ⟨here, same⟩ := ih.members typed.1.1.2
      rw [same]
      exact ⟨⟨⟨typed.1.1.1, here⟩, typed.1.2⟩, typed.2⟩
  | element attr before after _ ih =>
      refine ⟨rfl, fun typed => ⟨?_, rfl⟩⟩
      simp only [isTyped, Bool.and_eq_true] at typed ⊢
      obtain ⟨here, same⟩ := ih.members typed.1
      rw [same]
      exact ⟨here, typed.2⟩
  | array attr position _ ih =>
      refine ⟨rfl, fun typed => ⟨?_, rfl⟩⟩
      simp only [isTyped, Bool.and_eq_true] at typed ⊢
      obtain ⟨here, same⟩ := ih.typed typed.1.1.1
      rw [same]
      exact ⟨⟨⟨here, typed.1.1.2⟩, typed.1.2⟩, typed.2⟩
  | position attr array _ ih =>
      refine ⟨rfl, fun typed => ⟨?_, rfl⟩⟩
      simp only [isTyped, Bool.and_eq_true] at typed ⊢
      obtain ⟨here, same⟩ := ih.typed typed.1.1.2
      rw [same]
      exact ⟨⟨⟨typed.1.1.1, here⟩, typed.1.2⟩, typed.2⟩
  | not attr _ ih | size attr _ ih | length attr _ ih =>
      refine ⟨rfl, fun typed => ⟨?_, rfl⟩⟩
      simp only [isTyped, Bool.and_eq_true] at typed ⊢
      obtain ⟨here, same⟩ := ih.typed typed.1
      rw [same]
      exact ⟨here, typed.2⟩

theorem Becomes.yields (tracks : scope.Tracks tracked)
    (h : Becomes tracked expr expr') {ty : Ty}
    (yields : expr.yields scope ty = true) :
    expr'.yields scope ty = true := by
  simp only [Expr.yields, Bool.and_eq_true] at yields ⊢
  obtain ⟨here, same⟩ := (h.keepsType tracks).typed yields.1.1
  rw [same]
  exact ⟨⟨here, yields.1.2⟩, yields.2⟩

end Expr

/-! ## Statements -/

theorem Stmt.Becomes.isTyped {scope : Scope} {tracked : List String}
    {stmt stmt' : Stmt} (tracks : scope.Tracks tracked)
    (h : Becomes tracked stmt stmt') (typed : stmt.isTyped scope = true) :
    stmt'.isTyped scope = true := by
  induction h with
  | refl stmt => exact typed
  | trans _ _ ih ih' => exact ih' (ih typed)
  | member span before after _ ih =>
      simp only [Stmt.isTyped, areTyped_eq_true, List.mem_append,
        List.mem_cons] at typed ⊢
      rintro other (member | rfl | member)
      · exact typed other (.inl member)
      · exact ih (typed _ (.inr (.inl rfl)))
      · exact typed other (.inr (.inr member))
  | target span value _ becomes =>
      simp only [Stmt.isTyped, Bool.and_eq_true] at typed ⊢
      obtain ⟨here, same⟩ := (becomes.keepsType tracks).typed typed.1
      rw [same]
      exact ⟨here, typed.2⟩
  | value span target becomes =>
      simp only [Stmt.isTyped, Bool.and_eq_true] at typed ⊢
      exact ⟨typed.1, becomes.yields tracks typed.2⟩
  | expr span becomes =>
      simp only [Stmt.isTyped] at typed ⊢
      exact ((becomes.keepsType tracks).typed typed).1
  | ret span becomes =>
      simp only [Stmt.isTyped] at typed ⊢
      exact becomes.yields tracks typed
  | ifThen span becomes _ ih =>
      simp only [Stmt.isTyped, Bool.and_eq_true] at typed ⊢
      exact ⟨becomes.yields tracks typed.1, ih typed.2⟩
  | ifElse span becomes _ _ ihTrue ihFalse =>
      simp only [Stmt.isTyped, Bool.and_eq_true] at typed ⊢
      exact ⟨⟨becomes.yields tracks typed.1.1, ihTrue typed.1.2⟩,
        ihFalse typed.2⟩
  | loop span becomes _ ih =>
      simp only [Stmt.isTyped, Bool.and_eq_true] at typed ⊢
      exact ⟨becomes.yields tracks typed.1, ih typed.2⟩

/-! ## Methods -/

theorem Method.isTyped_tracks {table : SymbolTable} {method : Method}
    (typed : method.isTyped table = true)
    (known : table.method? method.name = some method.signature) :
    Scope.Tracks { table, method := method.name } method.tracked := by
  intro name isTracked
  simp only [tracked, List.mem_map, List.mem_filter, decide_eq_true_eq]
    at isTracked
  obtain ⟨decl, ⟨member, isInt⟩, rfl⟩ := isTracked
  have declared : decl.symbol ∈
      method.signature.params ++ method.signature.locals := by
    rw [List.mem_append] at member ⊢
    refine member.imp (fun isParam => ?_) List.mem_map_of_mem
    have some : method.params.isEmpty = false := by
      cases params : method.params with
      | nil => simp [params] at isParam
      | cons => rfl
    simpa [signature, some] using ⟨decl, isParam, rfl⟩
  exact ⟨decl.symbol, isInt, resolve_variable typed known declared⟩

theorem Method.Becomes.isTyped {table : SymbolTable} {method method' : Method}
    (h : method.Becomes method')
    (known : table.method? method.name = some method.signature)
    (typed : method.isTyped table = true) : method'.isTyped table = true := by
  have tracks := Method.isTyped_tracks typed known
  rw [Method.isTyped_eq_true] at typed ⊢
  have body : Stmt.isTyped { table, method := method.name }
      (.block {} method'.body) = true :=
    h.body.isTyped tracks (by simpa [Stmt.isTyped] using typed.1)
  rw [h.declared]
  exact ⟨by simpa [Stmt.isTyped] using body, typed.2⟩

end Tree

end JavaMinus
