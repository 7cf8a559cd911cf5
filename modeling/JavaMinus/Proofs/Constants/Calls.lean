import JavaMinus.Proofs.Constants.Replacement
import JavaMinus.Proofs.Lowering.Sites

/-!
# Calls in simplified programs

Simplifying a program keeps all of its declarations and calls.  The receiver
of a call may become a literal, which nothing can be called on.
-/

namespace JavaMinus.Tree

structure CallSite.Stays (scope : Scope) (site site' : CallSite) : Prop where
  method : site'.method = site.method
  args : site'.args.length = site.args.length
  dropped : site'.isDropped = site.isDropped
  own : site.isOwn scope = true → site'.isOwn scope = true ∨
    (scope.typeOf site'.receiver).className? = none
  noObject : (scope.typeOf site.receiver).className? = none →
    (scope.typeOf site'.receiver).className? = none

namespace CallSite.Stays

variable {scope : Scope} {first second third : CallSite}

theorem refl (site : CallSite) : Stays scope site site :=
  ⟨rfl, rfl, rfl, .inl, id⟩

theorem trans (h : Stays scope first second) (h' : Stays scope second third) :
    Stays scope first third where
  method := h'.method.trans h.method
  args := h'.args.trans h.args
  dropped := h'.dropped.trans h.dropped
  own own := by
    rcases h.own own with own | noObject
    · exact h'.own own
    · exact .inr (h'.noObject noObject)
  noObject none := h'.noObject (h.noObject none)

end CallSite.Stays

abbrev KeepsCalls (scope : Scope) : List CallSite → List CallSite → Prop :=
  List.Forall₂ (CallSite.Stays scope)

theorem KeepsCalls.refl {scope : Scope} (sites : List CallSite) :
    KeepsCalls scope sites sites :=
  List.forall₂_same.mpr fun site _ => .refl site

theorem KeepsCalls.trans {scope : Scope} {first second third : List CallSite}
    (h : KeepsCalls scope first second) (h' : KeepsCalls scope second third) :
    KeepsCalls scope first third :=
  forall₂_trans (fun _ _ _ first second => first.trans second) h h'

theorem KeepsCalls.append {scope : Scope}
    {first first' second second' : List CallSite}
    (h : KeepsCalls scope first first') (h' : KeepsCalls scope second second') :
    KeepsCalls scope (first ++ second) (first' ++ second') :=
  List.rel_append h h'

/-! ## Expressions -/

namespace Expr

structure Keeps (scope : Scope) (expr expr' : Expr) : Prop where
  ty : scope.typeOf expr' = scope.typeOf expr ∨ scope.typeOf expr' = .int
  named : expr'.namesClass scope = true → expr.namesClass scope = true
  calls : ∀ isDropped,
    KeepsCalls scope (expr.calls isDropped) (expr'.calls isDropped)

variable {scope : Scope}

theorem Keeps.refl (expr : Expr) : Keeps scope expr expr :=
  ⟨.inl rfl, id, fun _ => .refl _⟩

theorem Keeps.stays {receiver receiver' : Expr}
    (h : Keeps scope receiver receiver') {args args' : List Expr}
    (count : args'.length = args.length) (method : String)
    (isDropped : Bool) :
    CallSite.Stays scope ⟨receiver, method, args, isDropped⟩
      ⟨receiver', method, args', isDropped⟩ where
  method := rfl
  args := count
  dropped := rfl
  own own := by
    simp only [CallSite.isOwn, Bool.and_eq_true, Bool.not_eq_true',
      decide_eq_true_eq] at own ⊢
    rcases h.ty with same | isInt
    · refine .inl ⟨?_, same.trans own.2⟩
      cases named : receiver'.namesClass scope with
      | false => rfl
      | true => rw [h.named named] at own; simp at own
    · exact .inr (by rw [isInt]; rfl)
  noObject none := by
    rcases h.ty with same | isInt
    · rw [same]
      exact none
    · rw [isInt]
      rfl

theorem callsAll_append (before after : List Expr) :
    callsAll (before ++ after) = callsAll before ++ callsAll after := by
  induction before with
  | nil => rfl
  | cons expr rest ih => simp [callsAll, ih]

theorem callsAll_member {before after : List Expr} {expr expr' : Expr}
    (h : KeepsCalls scope (expr.calls false) (expr'.calls false)) :
    KeepsCalls scope (callsAll (before ++ expr :: after))
      (callsAll (before ++ expr' :: after)) := by
  rw [callsAll_append, callsAll_append, callsAll, callsAll]
  exact .append (.refl _) (.append h (.refl _))

theorem calls_of_literal {expr : Expr} {value : Int32}
    (h : expr.literal? = some value) : expr.calls false = [] := by
  rw [literal?] at h
  rw [← calls_skipParens]
  cases form : expr.skipParens with
  | int => rfl
  | _ => simp [form] at h

theorem Keeps.of_parts {expr expr' : Expr}
    (ty : scope.typeOf expr' = scope.typeOf expr)
    (notName : expr'.namesClass scope = false)
    (calls : ∀ isDropped,
      KeepsCalls scope (expr.calls isDropped) (expr'.calls isDropped)) :
    Keeps scope expr expr' :=
  ⟨.inl ty, by simp [notName], calls⟩

theorem Becomes.keeps {tracked : List String} {expr expr' : Expr}
    (h : Becomes tracked expr expr') : Keeps scope expr expr' := by
  induction h with
  | refl expr => exact .refl expr
  | trans _ _ ih ih' =>
      refine ⟨?_, fun named => ih.named (ih'.named named), fun isDropped =>
        (ih.calls isDropped).trans (ih'.calls isDropped)⟩
      rcases ih'.ty with same | isInt
      · rw [same]
        exact ih.ty
      · exact .inr isInt
  | computed attr isFirst isSecond isValue =>
      refine ⟨.inr rfl, by simp [namesClass, skipParens], fun isDropped => ?_⟩
      simp [calls, calls_of_literal isFirst, calls_of_literal isSecond]
  | known attr value isTracked =>
      exact ⟨.inr rfl, by simp [namesClass, skipParens], fun _ => .nil⟩
  | left attr op right _ ih =>
      exact .of_parts rfl rfl fun _ => .append (ih.calls false) (.refl _)
  | right attr op left _ ih =>
      exact .of_parts rfl rfl fun _ => .append (.refl _) (ih.calls false)
  | paren attr _ ih => exact ⟨ih.ty, ih.named, ih.calls⟩
  | receiver attr method args _ ih =>
      exact .of_parts rfl rfl fun isDropped =>
        .append (.append (ih.calls false) (.refl _))
          (.cons (ih.stays rfl method isDropped) .nil)
  | arg attr receiver method before after _ ih =>
      refine .of_parts rfl rfl fun isDropped => .append
        (.append (.refl _) (callsAll_member (ih.calls false)))
        (.cons ((Keeps.refl receiver).stays (by simp) method isDropped) .nil)
  | element attr before after _ ih =>
      exact .of_parts rfl rfl fun _ => callsAll_member (ih.calls false)
  | array attr position _ ih =>
      exact .of_parts rfl rfl fun _ => .append (ih.calls false) (.refl _)
  | position attr array _ ih =>
      exact .of_parts rfl rfl fun _ => .append (.refl _) (ih.calls false)
  | not attr _ ih | size attr _ ih | length attr _ ih =>
      exact .of_parts rfl rfl fun _ => ih.calls false

end Expr

/-! ## Statements -/

namespace Stmt

variable {scope : Scope}

theorem callsAll_append (before after : List Stmt) :
    callsAll (before ++ after) = callsAll before ++ callsAll after := by
  induction before with
  | nil => rfl
  | cons stmt rest ih => simp [callsAll, ih]

theorem Becomes.keepsCalls {tracked : List String} {stmt stmt' : Stmt}
    (h : Becomes tracked stmt stmt') :
    KeepsCalls scope stmt.calls stmt'.calls := by
  induction h with
  | refl stmt => exact .refl _
  | trans _ _ ih ih' => exact ih.trans ih'
  | member span before after _ ih =>
      simp only [calls, callsAll_append, callsAll]
      exact .append (.refl _) (.append ih (.refl _))
  | target span value _ becomes =>
      exact .append (becomes.keeps.calls false) (.refl _)
  | value span target becomes =>
      exact .append (.refl _) (becomes.keeps.calls false)
  | expr span becomes => exact becomes.keeps.calls true
  | ret span becomes => exact becomes.keeps.calls false
  | ifThen span becomes _ ih => exact .append (becomes.keeps.calls false) ih
  | ifElse span becomes _ _ ihTrue ihFalse =>
      exact .append (.append (becomes.keeps.calls false) ihFalse) ihTrue
  | loop span becomes _ ih => exact .append (becomes.keeps.calls false) ih

end Stmt

theorem Method.Becomes.keepsCalls {scope : Scope} {method method' : Method}
    (h : method.Becomes method') :
    KeepsCalls scope (Stmt.callsAll method.body)
      (Stmt.callsAll method'.body) :=
  h.body.keepsCalls

end JavaMinus.Tree
