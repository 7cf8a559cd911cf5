import JavaMinus.Proofs.Lowering.Settled
import Mathlib.Data.List.Forall2

/-!
# Calls in trees and in lowered code

Every call of a method in a tree becomes one call instruction, and these stand
in the order in which the tree is lowered.  All other calls in lowered code
make objects and arrays or take the length of an array.
-/

namespace JavaMinus

open Ir (Operand Instr Call Fragment)
open Lowering

/-! ## Calls in trees -/

namespace Signature

def Takes (signature : Signature) (count : Nat) : Prop :=
  signature.params.length = count ∨
    signature.hasVararg = true ∧ signature.params.length - 1 ≤ count

instance (signature : Signature) (count : Nat) :
    Decidable (signature.Takes count) :=
  inferInstanceAs (Decidable (_ ∨ _))

theorem params_pos {signature : Signature}
    (h : signature.hasVararg = true) : 0 < signature.params.length := by
  rw [hasVararg] at h
  cases known : signature.params with
  | nil => simp [known] at h
  | cons param rest => simp

end Signature

namespace Tree

structure CallSite where
  receiver : Expr
  method : String
  args : List Expr
  -- Whether the call is a statement, so that its value is not used.
  isDropped : Bool

mutual

/-- The calls in an expression, in the order in which they are made. -/
def Expr.calls : Expr → Bool → List CallSite
  | .int _ _, _ | .bool _ _, _ | .var _ _, _ | .self _, _
  | .newObject _ _, _ => []
  | .paren _ inner, isDropped => inner.calls isDropped
  | .call _ receiver method args, isDropped =>
      receiver.calls false ++ Expr.callsAll args ++
        [{ receiver, method, args, isDropped }]
  | .binary _ _ left right, _ => left.calls false ++ right.calls false
  | .index _ array position, _ => array.calls false ++ position.calls false
  | .not _ inner, _ | .newArray _ inner, _ | .length _ inner, _ =>
      inner.calls false
  | .arrayLiteral _ elements, _ => Expr.callsAll elements

def Expr.callsAll : List Expr → List CallSite
  | [] => []
  | expr :: rest => expr.calls false ++ Expr.callsAll rest

end

mutual

def Stmt.calls : Stmt → List CallSite
  | .block _ body => Stmt.callsAll body
  | .assign _ target value => target.calls false ++ value.calls false
  | .expr _ value => value.calls true
  | .ret _ (some value) => value.calls false
  | .ret _ none => []
  | .ifThen _ cond onTrue => cond.calls false ++ onTrue.calls
  | .ifElse _ cond onTrue onFalse =>
      cond.calls false ++ onFalse.calls ++ onTrue.calls
  | .loop _ cond body => cond.calls false ++ body.calls

def Stmt.callsAll : List Stmt → List CallSite
  | [] => []
  | stmt :: rest => stmt.calls ++ Stmt.callsAll rest

end

theorem Expr.calls_skipParens (expr : Expr) (isDropped : Bool) :
    expr.skipParens.calls isDropped = expr.calls isDropped := by
  induction expr with
  | paren attr inner ih => simpa [skipParens, calls] using ih
  | _ => rfl

end Tree

/-! ## Calls in code -/

namespace Ir.Instr

def isBareCall : Instr → Bool
  | .call _ => true
  | _ => false

/-- The call of a method that an instruction makes, and whether it is bare. -/
def invocation? (instr : Instr) : Option (Call × Bool) :=
  (instr.call?.filter fun call =>
    call.kind = .virtual || call.kind = .static).map (·, instr.isBareCall)

end Ir.Instr

namespace Lowering

def invocations (code : List Fragment) : List (Call × Bool) :=
  (instrs code).filterMap Instr.invocation?

@[simp] theorem invocations_nil : invocations [] = [] := rfl

@[simp] theorem invocations_append (code code' : List Fragment) :
    invocations (code ++ code') = invocations code ++ invocations code' := by
  simp [invocations]

@[simp] theorem invocations_label (name : String) (code : List Fragment) :
    invocations (.label name :: code) = invocations code := by
  simp [invocations]

theorem invocations_quiet {instr : Instr} (quiet : instr.invocation? = none)
    (code : List Fragment) :
    invocations (.instr instr :: code) = invocations code := by
  simp [invocations, quiet]

@[simp] theorem invocations_branch (condition : Operand) (label : String)
    (code : List Fragment) :
    invocations (.instr (.branch condition label) :: code) =
      invocations code :=
  invocations_quiet rfl code

@[simp] theorem invocations_goto (label : String) (code : List Fragment) :
    invocations (.instr (.goto label) :: code) = invocations code :=
  invocations_quiet rfl code

@[simp] theorem invocations_copy (dest source : Operand)
    (code : List Fragment) :
    invocations (.instr (.store dest (.single source)) :: code) =
      invocations code :=
  invocations_quiet rfl code

theorem invocations_andQuiet {instr : Instr}
    (quiet : instr.invocation? = none) (code : List Fragment) :
    invocations (code ++ [.instr instr]) = invocations code := by
  simp [invocations, quiet]

theorem invocations_eq_nil {code : List Fragment}
    (h : ∀ instr ∈ instrs code, instr.invocation? = none) :
    invocations code = [] :=
  List.filterMap_eq_nil_iff.mpr h

structure Makes (scope : Scope) (site : Tree.CallSite) (made : Call × Bool) :
    Prop where
  named : made.1.method = some site.method
  dropped : made.2 = site.isDropped
  receiver :
    directReceiver? scope site.receiver = some (made.1.kind, made.1.target) ∨
      directReceiver? scope site.receiver = none ∧
        made.1.kind = .virtual ∧
        made.1.target.ty = scope.typeOf site.receiver
  args : ∀ signature,
    callee? scope made.1.kind made.1.target site.method = some signature →
    signature.Takes site.args.length →
    made.1.args.length = signature.params.length
  result : site.isDropped = true → ∀ signature,
    callee? scope made.1.kind made.1.target site.method = some signature →
    made.1.returnTy = signature.returnTy.valueTy

variable {scope : Scope} {supply after : Supply} {code : List Fragment}

theorem invocations_packArray {values : List Operand} {array : Operand}
    (h : packArray values supply = .ok (array, code) after) :
    invocations code = [] := by
  obtain ⟨name, _, _, rfl, rfl⟩ := packArray_eq_ok h
  refine invocations_eq_nil fun instr member => ?_
  rw [instrs_instr, List.mem_cons, mem_instrs] at member
  rcases member with rfl | member
  · rfl
  · obtain ⟨index, value, _, isStore⟩ := mem_elementStores member
    cases isStore
    rfl

theorem packVarargs_length {callee : Option Signature}
    {args passed : List Operand} {signature : Signature}
    (h : packVarargs callee args supply = .ok (passed, code) after)
    (known : callee = some signature) (takes : signature.Takes args.length) :
    passed.length = signature.params.length := by
  rcases packVarargs_eq_ok h with
    ⟨passes, rfl, _⟩ | ⟨fixed, array, ⟨_, same, vararg, rfl, enough, _⟩, _, rfl⟩
  · rcases takes with same | ⟨vararg, enough⟩
    · exact same.symm
    · have last := congrArg List.length (passes signature known vararg).2
      have nonempty := Signature.params_pos vararg
      simp only [List.length_map, List.length_drop, List.length_singleton]
        at last
      omega
  · rw [known] at same
    cases same
    have nonempty := Signature.params_pos vararg
    simp only [List.length_append, List.length_take, List.length_singleton]
    omega

theorem invocations_packVarargs {callee : Option Signature}
    {args passed : List Operand}
    (h : packVarargs callee args supply = .ok (passed, code) after) :
    invocations code = [] := by
  rcases packVarargs_eq_ok h with
    ⟨_, _, rfl, _⟩ | ⟨fixed, array, _, hpack, _⟩
  · rfl
  · exact invocations_packArray hpack

theorem invocations_finishElement {dest : Destination} {element : Operand}
    {lowered : Lowered}
    (h : finishElement element code dest supply = .ok lowered after) :
    invocations lowered.code = invocations code := by
  cases dest with
  | assigned | returned =>
      obtain ⟨rfl, _⟩ := Action.pure_eq_ok.mp h
      rfl
  | discarded | operand =>
      obtain ⟨_, _, rfl⟩ := intoTemp_eq_ok h
      exact invocations_andQuiet rfl code

end Lowering

/-! ## Expressions -/

def Destination.isDropped : Destination → Bool
  | .discarded => true
  | .assigned _ | .returned _ | .operand => false

namespace Tree.Expr

variable {scope : Scope} {supply after : Supply}

private theorem receives_makes {receiver : Expr} {kind : Ir.CallKind}
    {target : Operand} {code : List Fragment}
    (h : Receives scope receiver kind target code supply after)
    (onValue : receiver.lower scope .operand supply =
        .ok ⟨some target, code⟩ after →
      List.Forall₂ (Makes scope) (receiver.calls false) (invocations code)) :
    List.Forall₂ (Makes scope) (receiver.calls false) (invocations code) := by
  rcases h with ⟨direct, rfl, _⟩ | ⟨_, _, hreceiver⟩
  · have noCalls : receiver.calls false = [] := by
      rw [directReceiver?] at direct
      rw [← calls_skipParens]
      split at direct
      next form => rw [form, calls]
      next form => rw [form, calls]
      · cases direct
    rw [noCalls]
    exact .nil
  · exact onValue hreceiver

private theorem call_makes {attr : Attr} {receiver : Expr} {method : String}
    {args : List Expr} {dest : Destination} {kind : Ir.CallKind}
    {target : Operand} {targetCode argCode packCode : List Fragment}
    {first second third : Supply} {operands passed : List Operand}
    {lowered : Lowered}
    (receives : Receives scope receiver kind target targetCode supply first)
    (hargs : lowerAll scope args first = .ok (operands, argCode) second)
    (hpack : packVarargs (callee? scope kind target method) operands second =
      .ok (passed, packCode) third)
    (hfinish : finishCall
      { kind, target, method := some method, args := passed
        returnTy := callTy (callee? scope kind target method) attr.ty dest }
      (targetCode ++ argCode ++ packCode) dest third = .ok lowered after)
    (onReceiver : List.Forall₂ (Makes scope) (receiver.calls false)
      (invocations targetCode))
    (onArgs : List.Forall₂ (Makes scope) (callsAll args)
      (invocations argCode)) :
    List.Forall₂ (Makes scope)
      ((Expr.call attr receiver method args).calls dest.isDropped)
      (invocations lowered.code) := by
  have isInvocation : kind = .virtual ∨ kind = .static := by
    rcases receives with ⟨direct, _⟩ | ⟨_, rfl, _⟩
    · rcases directReceiver?_eq_some direct with ⟨rfl, _⟩ | ⟨rfl, _⟩
      · exact .inl rfl
      · exact .inr rfl
    · exact .inl rfl
  have made (isBare : Bool) (same : isBare = dest.isDropped) : Makes scope
      { receiver, method, args, isDropped := dest.isDropped }
      ({ kind, target, method := some method, args := passed
         returnTy := callTy (callee? scope kind target method) attr.ty dest },
        isBare) := by
    refine ⟨rfl, same, ?_, ?_, ?_⟩
    · rcases receives with ⟨direct, _⟩ | ⟨notDirect, rfl, hreceiver⟩
      · exact .inl direct
      · exact .inr ⟨notDirect, rfl, lower_typeOf hreceiver⟩
    · intro signature known takes
      have count := lowerAll_length hargs
      exact packVarargs_length hpack known (count ▸ takes)
    · intro isDropped signature known
      cases dest with
      | discarded =>
          simp only at known
          simp only [known, callTy]
      | assigned | returned | operand => cases isDropped
  -- Packing arguments calls no method.
  have before : List.Forall₂ (Makes scope)
      (receiver.calls false ++ callsAll args)
      (invocations (targetCode ++ argCode ++ packCode)) := by
    rw [invocations_append, invocations_packVarargs hpack, List.append_nil,
      invocations_append]
    exact List.rel_append onReceiver onArgs
  rw [calls]
  cases dest with
  | discarded =>
      obtain ⟨rfl, rfl⟩ := Action.pure_eq_ok.mp hfinish
      rw [invocations_append]
      refine List.rel_append before ?_
      rcases isInvocation with rfl | rfl <;> exact .cons (made true rfl) .nil
  | assigned | returned | operand =>
      obtain ⟨name, _, rfl⟩ := intoTemp_eq_ok hfinish
      rw [invocations_append]
      refine List.rel_append before ?_
      rcases isInvocation with rfl | rfl <;> exact .cons (made false rfl) .nil

theorem lower_makes {expr : Expr} {dest : Destination} {lowered : Lowered}
    (h : expr.lower scope dest supply = .ok lowered after) :
    List.Forall₂ (Makes scope) (expr.calls dest.isDropped)
      (invocations lowered.code) := by
  induction h using lower_induction (fun exprs _ _ code _ =>
    List.Forall₂ (Makes scope) (callsAll exprs) (invocations code)) with
  | nil => exact .nil
  | cons _ _ onFirst onRest =>
      rw [callsAll, invocations_append]
      exact List.rel_append onFirst onRest
  | int | bool | self | readVar | readField | readEnclosing | readClass
  | newObject => exact .nil
  | paren _ ih =>
      rw [calls]
      exact ih
  | and _ _ _ _ _ ihLeft ihRight =>
      simp only [calls, invocations_append, invocations_branch,
        invocations_copy, invocations_goto, invocations_label,
        invocations_nil, List.append_nil]
      exact List.rel_append ihLeft ihRight
  | binary _ _ _ _ _ ihLeft ihRight =>
      rw [calls, invocations_andQuiet rfl, invocations_append]
      exact List.rel_append ihLeft ihRight
  | not _ _ ih | newArray _ _ ih | length _ _ ih =>
      rw [calls, invocations_andQuiet rfl]
      exact ih
  | call receives hargs hpack hfinish ihReceiver ihArgs =>
      exact call_makes receives hargs hpack hfinish
        (receives_makes receives ihReceiver) ihArgs
  | arrayLiteral _ hpack ih =>
      rw [calls, invocations_append, invocations_packArray hpack,
        List.append_nil]
      exact ih
  | index _ _ hfinish ihArray ihPosition =>
      rw [calls, invocations_finishElement hfinish, invocations_append]
      exact List.rel_append ihArray ihPosition

end Tree.Expr

/-! ## Statements -/

namespace Lowering

variable {scope : Scope} {supply after : Supply} {code : List Fragment}

theorem calls_of_increment? {name : String} {ty : Ty} {value : Tree.Expr}
    {step : Instr} (h : increment? name ty value = some step) :
    value.calls false = [] ∧
      (Instr.store (.var name ty) step).invocation? = none := by
  have leaf {inner : Tree.Expr} (known : inner.literal?.isSome ∨
      inner.reads name = true) : inner.calls false = [] := by
    rw [Tree.Expr.literal?, Tree.Expr.reads] at known
    rw [← Tree.Expr.calls_skipParens]
    cases form : inner.skipParens with
    | int | var => rfl
    | _ => simp [form] at known
  obtain ⟨attr, op, left, right, literal, _, form, _, ⟨isRead, known, rfl⟩ |
    ⟨isRead, known, rfl⟩⟩ := increment?_eq_some h <;>
    rw [← Tree.Expr.calls_skipParens, form, Tree.Expr.calls,
      leaf (.inr isRead), leaf (.inl (by simp [known]))] <;>
    exact ⟨rfl, rfl⟩

theorem invocations_thenGoto (label : String) (code : List Fragment) :
    invocations (thenGoto label code) = invocations code := by
  rw [thenGoto]
  split
  · rw [invocations_andQuiet rfl]
  · rfl

end Lowering

namespace Tree.Stmt

variable {scope : Scope} {supply after : Supply} {code : List Fragment}

theorem lower_makes {stmt : Stmt}
    (h : stmt.lower scope supply = .ok code after) :
    List.Forall₂ (Makes scope) stmt.calls (invocations code) := by
  induction h using lower_induction with
  | nil => exact .nil
  | cons _ _ onFirst onRest =>
      simp only [calls, callsAll, invocations_append] at onRest ⊢
      exact List.rel_append onFirst onRest
  | increment form _ hstep =>
      obtain ⟨noCalls, quiet⟩ := calls_of_increment? hstep
      rw [calls, ← Expr.calls_skipParens, form, noCalls,
        invocations_quiet quiet]
      exact .nil
  | assignVar form _ hvalue | assignField form _ hvalue =>
      rw [calls, ← Expr.calls_skipParens, form, invocations_andQuiet rfl]
      exact Expr.lower_makes hvalue
  | assignElement form harray hposition hvalue =>
      rw [calls, ← Expr.calls_skipParens, form, Expr.calls]
      simp only [invocations_append, invocations_copy, invocations_nil,
        List.append_nil]
      exact List.rel_append (List.rel_append (Expr.lower_makes harray)
        (Expr.lower_makes hposition)) (Expr.lower_makes hvalue)
  | expr hvalue =>
      rw [calls]
      exact Expr.lower_makes hvalue
  | retVoid => exact .nil
  | ret hvalue =>
      rw [calls, invocations_andQuiet rfl]
      exact Expr.lower_makes hvalue
  | ifThen hcond _ _ _ ih =>
      simp only [calls, invocations_append, invocations_thenGoto,
        invocations_branch, invocations_label, invocations_nil,
        List.append_nil]
      exact List.rel_append (Expr.lower_makes hcond) ih
  | ifElse hcond _ _ _ _ ihFalse ihTrue =>
      simp only [calls, invocations_append, invocations_thenGoto,
        invocations_branch, invocations_label, invocations_nil,
        List.append_nil]
      exact List.rel_append (List.rel_append (Expr.lower_makes hcond)
        ihFalse) ihTrue
  | loop _ _ _ hcond _ ih =>
      simp only [calls, List.cons_append, invocations_append,
        invocations_thenGoto, invocations_branch, invocations_goto,
        invocations_label, invocations_nil, List.append_nil]
      exact List.rel_append (Expr.lower_makes hcond) ih

theorem lowerAll_makes {stmts : List Stmt}
    (h : lowerAll scope stmts supply = .ok code after) :
    List.Forall₂ (Makes scope) (callsAll stmts) (invocations code) := by
  rw [← calls]
  exact lower_makes (lower_of_lowerAll h)

end Tree.Stmt

/-! ## Receivers -/

def Tree.CallSite.isOwn (site : Tree.CallSite) (scope : Scope) : Bool :=
  !site.receiver.namesClass scope &&
    scope.typeOf site.receiver = .object scope.className

theorem Lowering.directReceiver?_virtual {scope : Scope}
    {receiver : Tree.Expr} {kind : Ir.CallKind} {target : Operand}
    (direct : directReceiver? scope receiver = some (kind, target))
    (hasValue : receiver.namesClass scope = false) :
    kind = .virtual ∧ target.ty = scope.typeOf receiver := by
  rw [← Tree.Expr.typeOf_skipParens]
  rw [directReceiver?] at direct
  rw [Tree.Expr.namesClass] at hasValue
  cases form : receiver.skipParens with
  | self attr =>
      rw [form] at direct
      cases direct
      exact ⟨rfl, rfl⟩
  | var attr name =>
      simp only [form] at direct hasValue
      unfold Scope.hasValue at hasValue
      rw [Scope.typeOf]
      cases origin : scope.resolve name with
      | localVar | param | enclosing =>
          rw [origin] at direct
          cases direct
          exact ⟨rfl, rfl⟩
      | field symbol =>
          rw [origin] at direct
          cases direct
      | imported path => simp [origin] at hasValue
      | unknown => simp [origin] at hasValue
  | _ =>
      rw [form] at direct
      cases direct

theorem Lowering.Makes.own {scope : Scope} {site : Tree.CallSite}
    {made : Call × Bool} (h : Makes scope site made)
    (own : site.isOwn scope = true) :
    made.1.kind = .virtual ∧ made.1.target.ty = .object scope.className := by
  simp only [Tree.CallSite.isOwn, Bool.and_eq_true, Bool.not_eq_true',
    decide_eq_true_eq] at own
  rcases h.receiver with direct | ⟨_, kind, sameTy⟩
  · obtain ⟨kind, sameTy⟩ := directReceiver?_virtual direct own.1
    exact ⟨kind, sameTy.trans own.2⟩
  · exact ⟨kind, sameTy.trans own.2⟩

theorem Tree.Expr.className?_of_namesClass {scope : Scope} {expr : Tree.Expr}
    (h : expr.namesClass scope = true) :
    (scope.typeOf expr).className? ≠ none := by
  rw [← Tree.Expr.typeOf_skipParens]
  rw [Tree.Expr.namesClass] at h
  cases form : expr.skipParens with
  | var attr name =>
      simp only [form] at h
      unfold Scope.hasValue at h
      rw [Scope.typeOf]
      cases origin : scope.resolve name with
      | imported | unknown => simp [Ty.className?]
      | localVar | param | field | enclosing => simp [origin] at h
  | _ => simp [form] at h

theorem Lowering.Makes.noObject {scope : Scope} {site : Tree.CallSite}
    {made : Call × Bool} (h : Makes scope site made)
    (noObject : (scope.typeOf site.receiver).className? = none) :
    made.1.kind = .virtual ∧ made.1.target.ty.className? = none := by
  rcases h.receiver with direct | ⟨_, kind, sameTy⟩
  · have hasValue : site.receiver.namesClass scope = false := by
      by_contra named
      exact Tree.Expr.className?_of_namesClass (by simpa using named) noObject
    obtain ⟨kind, sameTy⟩ := directReceiver?_virtual direct hasValue
    exact ⟨kind, sameTy ▸ noObject⟩
  · exact ⟨kind, sameTy ▸ noObject⟩

end JavaMinus
