import JavaMinus.Proofs.Emission.Typing
import JavaMinus.Proofs.Lowering.Sites
import JavaMinus.Proofs.Tree.Typing
import Mathlib

/-!
# Kinds of temporaries

Lowered code is typed if its temporaries stand for values of the kinds that
are computed into them.  No temporary is drawn twice, so that each has only
one kind.
-/

namespace JavaMinus

open Ir (Operand Instr Call CallKind Fragment)
open Lowering

/-! ## Names -/

def Scope.naming (scope : Scope) : Naming := fun name kind =>
  name = "this" ∧ kind = .reference ∧ scope.isStatic = false ∨
    ∃ symbol : Symbol, kind = symbol.ty.kind ∧
      (scope.resolve name = .localVar symbol ∨
        scope.resolve name = .param symbol)

structure Supply.Types (before after : Supply) (temps : Naming) : Prop
    extends Supply.Extends before after where
  isNew : ∀ name kind, temps name kind →
    ¬ before.Kept name ∧ after.Kept name
  unique : ∀ name kind kind', temps name kind → temps name kind' →
    kind = kind'

namespace Supply.Types

variable {first second third : Supply} {temps temps' : Naming}

theorem none (h : first.Extends second) : Types first second ⊥ where
  toExtends := h
  isNew _ _ isTemp := isTemp.elim
  unique _ _ _ isTemp := isTemp.elim

theorem single {name : String} (drawn : first.Drawn second name)
    (kind : Kind) :
    Types first second fun other kind' => other = name ∧ kind' = kind where
  toExtends := drawn.toExtends
  isNew := by
    rintro _ _ ⟨rfl, rfl⟩
    exact ⟨drawn.isNew, drawn.kept⟩
  unique := by
    rintro _ _ _ ⟨_, rfl⟩ ⟨_, rfl⟩
    rfl

theorem append (h : Types first second temps)
    (h' : Types second third temps') : Types first third (temps ⊔ temps') where
  toExtends := h.toExtends.trans h'.toExtends
  isNew := by
    rintro name kind (isTemp | isTemp)
    · obtain ⟨isNew, kept⟩ := h.isNew name kind isTemp
      exact ⟨isNew, h'.toExtends.kept kept⟩
    · obtain ⟨isNew, kept⟩ := h'.isNew name kind isTemp
      exact ⟨fun already => isNew (h.toExtends.kept already), kept⟩
  unique := by
    rintro name kind kind' (isTemp | isTemp) (isTemp' | isTemp')
    -- What the first drew is old when the second one draws.
    · exact h.unique name kind kind' isTemp isTemp'
    · exact absurd (h.isNew name kind isTemp).2 (h'.isNew name kind' isTemp').1
    · exact absurd (h.isNew name kind' isTemp').2 (h'.isNew name kind isTemp).1
    · exact h'.unique name kind kind' isTemp isTemp'

end Supply.Types

/-- The fact holds if the temporaries that are drawn have the right kinds. -/
def Scope.Supplies (scope : Scope) (before after : Supply)
    (fact : Naming → Prop) : Prop :=
  ∃ temps, before.Types after temps ∧
    ∀ has : Naming, scope.naming ≤ has → temps ≤ has → fact has

namespace Scope.Supplies

variable {scope : Scope} {first second third : Supply}
  {fact fact' : Naming → Prop}

theorem of_extends (h : first.Extends second)
    (holds : ∀ has, scope.naming ≤ has → fact has) :
    scope.Supplies first second fact :=
  ⟨⊥, .none h, fun has known _ => holds has known⟩

theorem drawn {name : String} (drawn : first.Drawn second name)
    (kind : Kind) : scope.Supplies first second fun has => has name kind :=
  ⟨_, .single drawn kind, fun _ _ more => more name kind ⟨rfl, rfl⟩⟩

theorem label {stem name : String}
    (h : Lower.label stem first = .ok name second)
    (isStem : stem ∈ labelStems) :
    scope.Supplies first second fun _ => True :=
  .of_extends (Lower.labelled_of_label h isStem).toExtends fun _ _ => trivial

theorem and (h : scope.Supplies first second fact)
    (h' : scope.Supplies second third fact') :
    scope.Supplies first third fun has => fact has ∧ fact' has := by
  obtain ⟨temps, types, holds⟩ := h
  obtain ⟨temps', types', holds'⟩ := h'
  refine ⟨_, types.append types', fun has known more => ⟨?_, ?_⟩⟩
  · exact holds has known (le_sup_left.trans more)
  · exact holds' has known (le_sup_right.trans more)

theorem imp (h : scope.Supplies first second fact)
    (weaker : ∀ has, scope.naming ≤ has → fact has → fact' has) :
    scope.Supplies first second fact' := by
  obtain ⟨temps, types, holds⟩ := h
  exact ⟨temps, types, fun has known more =>
    weaker has known (holds has known more)⟩

end Scope.Supplies

/-! ## Typed code -/

def TypedCode (has : Naming) (linkage : Jvm.Linkage) (returnTy : Ty)
    (code : List Fragment) : Prop :=
  ∀ instr, .instr instr ∈ code → Jvm.Typed has linkage returnTy instr

def TypedResult (has : Naming) (linkage : Jvm.Linkage) (returnTy : Ty)
    (lowered : Lowered) (kind : Kind) : Prop :=
  TypedCode has linkage returnTy lowered.code ∧
    ∀ operand, lowered.result = some operand → operand.HasKind has kind

section Code

variable {has : Naming} {linkage : Jvm.Linkage} {returnTy : Ty}
  {code code' : List Fragment}

@[simp] theorem typedCode_nil : TypedCode has linkage returnTy [] :=
  fun _ member => absurd member List.not_mem_nil

@[simp] theorem typedCode_append :
    TypedCode has linkage returnTy (code ++ code') ↔
      TypedCode has linkage returnTy code ∧
        TypedCode has linkage returnTy code' := by
  simp [TypedCode, or_imp, forall_and]

@[simp] theorem typedCode_instr {instr : Instr} :
    TypedCode has linkage returnTy (.instr instr :: code) ↔
      Jvm.Typed has linkage returnTy instr ∧
        TypedCode has linkage returnTy code := by
  simp [TypedCode, or_imp, forall_and]

@[simp] theorem typedCode_label {name : String} :
    TypedCode has linkage returnTy (.label name :: code) ↔
      TypedCode has linkage returnTy code := by
  simp [TypedCode]

@[simp] theorem typedResult_some {operand : Operand} {kind : Kind} :
    TypedResult has linkage returnTy ⟨some operand, code⟩ kind ↔
      TypedCode has linkage returnTy code ∧ operand.HasKind has kind := by
  simp [TypedResult]

end Code

/-! ## Destinations -/

theorem Ty.result?_of_isReference {ty : Ty} (h : ty.isReference = true) :
    ty.result? = some .reference := by
  cases ty <;> simp [isReference] at h <;> rfl

theorem Ty.result?_of_isArray {ty : Ty} (h : ty.isArray = true) :
    ty.result? = some .reference := by
  cases ty <;> simp [isArray] at h <;> rfl

theorem Ty.result?_eq_some {ty : Ty} {kind : Kind} :
    ty.result? = some kind ↔ ty.isVoid = false ∧ ty.kind = kind := by
  cases ty <;> simp [result?, isVoid]

theorem Ty.result?_of_agrees {ty other : Ty} (h : ty.agrees other = true) :
    ty.result? = other.result? := by
  simp only [agrees, Bool.or_eq_true, decide_eq_true_eq, Bool.and_eq_true]
    at h
  rcases h with rfl | ⟨isReference, isReference'⟩
  · rfl
  · rw [result?_of_isReference isReference,
      result?_of_isReference isReference']

@[simp] theorem Ty.result?_valueTy (ty : Ty) :
    ty.valueTy.result? = ty.result? := by
  cases ty <;> rfl

theorem Ty.isVoid_eq_of_result? {ty other : Ty}
    (h : ty.result? = other.result?) : ty.isVoid = other.isVoid := by
  cases ty <;> cases other <;> simp_all [result?, isVoid]

theorem Operator.ints_of_takes {op : Operator} {left right : Ty}
    (h : op.takes left right = true) :
    (left.isVoid = false ∧ left.kind = .int) ∧
      right.isVoid = false ∧ right.kind = .int := by
  cases op <;>
    simp only [takes, Bool.and_eq_true, Bool.or_eq_true,
      decide_eq_true_eq] at h
  case eq | ne =>
    obtain ⟨rfl, rfl | rfl⟩ := h <;> exact ⟨⟨rfl, rfl⟩, rfl, rfl⟩
  all_goals
    obtain ⟨rfl, rfl⟩ := h
    exact ⟨⟨rfl, rfl⟩, rfl, rfl⟩

theorem Operator.kind_resultTy (op : Operator) : op.resultTy.kind = .int := by
  cases op <;> rfl

def Destination.Takes (dest : Destination) (ty : Ty) : Prop :=
  match dest with
  | .discarded => True
  | .operand => ty.isVoid = false
  | .assigned wanted | .returned wanted =>
      ty.isVoid = false ∧ wanted.result? = ty.result?

namespace Lowering

variable {scope : Scope} {linkage : Jvm.Linkage} {supply mid after : Supply}
  {code : List Fragment} {fact : Naming → Prop}

/-! ## Operands -/

theorem store_supplies {name : String} {ty : Ty} {value : Instr}
    (drawn : mid.Drawn after name) (before : scope.Supplies supply mid fact)
    (computes : ∀ has, scope.naming ≤ has → fact has →
      TypedCode has linkage scope.returnTy code ∧
        Jvm.Pushes has linkage value ty.kind) :
    scope.Supplies supply after fun has =>
      TypedResult has linkage scope.returnTy
        ⟨some (.var name ty), code ++ [.instr (.store (.var name ty) value)]⟩
        ty.kind := by
  refine (before.and (.drawn drawn ty.kind)).imp ?_
  rintro has known ⟨holds, isNamed⟩
  obtain ⟨typed, pushes⟩ := computes has known holds
  simp only [typedResult_some, typedCode_append, typedCode_instr, typedCode_nil,
    and_true]
  exact ⟨⟨typed, .assign ty isNamed pushes⟩, .var isNamed⟩

theorem intoTemp_supplies {ty : Ty} {value : Instr} {lowered : Lowered}
    (h : intoTemp ty code value mid = .ok lowered after)
    (before : scope.Supplies supply mid fact)
    (computes : ∀ has, scope.naming ≤ has → fact has →
      TypedCode has linkage scope.returnTy code ∧
        Jvm.Pushes has linkage value ty.kind) :
    scope.Supplies supply after fun has =>
      TypedResult has linkage scope.returnTy lowered ty.kind := by
  obtain ⟨name, drawn, rfl⟩ := intoTemp_eq_ok h
  exact store_supplies drawn before computes

theorem finishElement_supplies {element : Operand} {dest : Destination}
    {lowered : Lowered}
    (h : finishElement element code dest mid = .ok lowered after)
    (before : scope.Supplies supply mid fact)
    (isInt : ∀ has, scope.naming ≤ has → fact has →
      TypedCode has linkage scope.returnTy code ∧ element.HasKind has .int) :
    scope.Supplies supply after fun has =>
      TypedResult has linkage scope.returnTy lowered .int := by
  cases dest with
  | assigned | returned =>
      obtain ⟨rfl, rfl⟩ := Action.pure_eq_ok.mp h
      exact before.imp fun has known holds =>
        typedResult_some.mpr (isInt has known holds)
  | operand | discarded =>
      refine intoTemp_supplies h before fun has known holds => ?_
      obtain ⟨typed, isOf⟩ := isInt has known holds
      exact ⟨typed, .single isOf⟩

theorem hasKind_self {has : Naming} (known : scope.naming ≤ has)
    (isInstance : scope.isStatic = false) (className : String) :
    (Operand.self className).HasKind has .reference :=
  .self className (known _ _ (.inl ⟨rfl, rfl, isInstance⟩))

theorem named_variable {has : Naming} (known : scope.naming ≤ has)
    {name : String} {symbol : Symbol}
    (origin : scope.resolve name = .localVar symbol ∨
      scope.resolve name = .param symbol) :
    has name symbol.ty.valueTy.kind :=
  known _ _ (.inr ⟨symbol, Ty.kind_valueTy _, origin⟩)

/-! ## Arrays -/

variable (linkage) in
theorem packArray_supplies {values : List Operand} {array : Operand}
    (h : packArray values supply = .ok (array, code) after) :
    scope.Supplies supply after fun has =>
      (∀ value ∈ values, value.HasKind has .int) →
        TypedCode has linkage scope.returnTy code ∧
          array.HasKind has .reference := by
  obtain ⟨name, drawn, _, rfl, rfl⟩ := packArray_eq_ok h
  refine (Scope.Supplies.drawn drawn .reference).imp ?_
  intro has known isNamed areInts
  refine ⟨typedCode_instr.mpr ⟨?_, ?_⟩, .var isNamed⟩
  · refine .assign .intArray isNamed (.new rfl fun size member => ?_)
    rw [List.mem_singleton.mp member]
    exact .literal _ _
  · intro instr member
    obtain ⟨index, value, isValue, isStore⟩ := mem_elementStores member
    cases isStore
    exact .assignElement .int isNamed (.literal _ _)
      (.single (areInts value isValue))

/-! ## Calls -/

theorem kinds_of_agree {types params : List Ty}
    (h : types.isEqv params Ty.agrees = true) :
    types.map Ty.kind = params.map Ty.kind := by
  induction types generalizing params with
  | nil =>
      cases params with
      | nil => rfl
      | cons => simp [List.isEqv] at h
  | cons ty types ih =>
      cases params with
      | nil => simp [List.isEqv] at h
      | cons param params =>
          rw [List.isEqv, Bool.and_eq_true] at h
          rw [List.map_cons, List.map_cons, ih h.2,
            Ty.kind_of_result? (Ty.result?_of_agrees h.1)]

theorem params_of_hasVararg {signature : Signature}
    (h : signature.hasVararg = true) :
    signature.params.map Symbol.ty =
      (signature.params.map Symbol.ty).take (signature.params.length - 1) ++
        [.vararg] := by
  rw [Signature.hasVararg] at h
  cases last : signature.params.getLast? with
  | none => simp [last] at h
  | some param =>
      obtain ⟨front, params⟩ := List.getLast?_eq_some_iff.mp last
      simp only [last, decide_eq_true_eq] at h
      simp [params, h]

theorem accepts_vararg {signature : Signature} {types : List Ty}
    (vararg : signature.hasVararg = true)
    (h : signature.accepts types = true) :
    (signature.params.map Symbol.ty).map Ty.kind =
        (types.take (signature.params.length - 1)).map Ty.kind ++
          [.reference] ∧
      ((∀ ty ∈ types.drop (signature.params.length - 1), ty = .int) ∨
        types.drop (signature.params.length - 1) = [.intArray]) := by
  simp only [Signature.accepts, if_pos vararg, List.length_map,
    Bool.and_eq_true, Bool.or_eq_true, List.all_eq_true,
    decide_eq_true_eq] at h
  refine ⟨?_, h.2⟩
  rw [kinds_of_agree h.1, params_of_hasVararg vararg]
  simp [Ty.kind, Ty.isReference]

theorem hasKinds {has : Naming} {operands : List Operand}
    (h : ∀ operand ∈ operands, operand.HasKind has operand.ty.kind) :
    List.Forall₂ (Operand.HasKind has) operands
      ((operands.map Operand.ty).map Ty.kind) := by
  rw [List.map_map, List.forall₂_map_right_iff]
  exact List.forall₂_same.mpr h

variable (linkage) in
theorem packVarargs_supplies {callee : Option Signature}
    {args passed : List Operand}
    (h : packVarargs callee args supply = .ok (passed, code) after)
    (accepts : ∀ signature, callee = some signature →
      signature.accepts (args.map Operand.ty) = true) :
    scope.Supplies supply after fun has =>
      (∀ arg ∈ args, arg.HasKind has arg.ty.kind) →
        TypedCode has linkage scope.returnTy code ∧
          (callee = none →
            ∀ arg ∈ passed, arg.HasKind has arg.ty.kind) ∧
          ∀ signature, callee = some signature →
            List.Forall₂ (Operand.HasKind has) passed
              ((signature.params.map Symbol.ty).map Ty.kind) := by
  rcases packVarargs_eq_ok h with ⟨passesAll, rfl, rfl, rfl⟩ |
    ⟨fixed, array, ⟨signature, rfl, vararg, rfl, enough, notArray⟩, hpack,
      rfl⟩
  · refine .of_extends (.refl _) fun has known areOf =>
      ⟨typedCode_nil, fun _ => areOf, fun signature isCallee => ?_⟩
    have accepted := accepts signature isCallee
    cases vararg : signature.hasVararg with
    | false =>
        simp only [Signature.accepts, vararg, Bool.false_eq_true, if_false]
          at accepted
        rw [← kinds_of_agree accepted]
        exact hasKinds areOf
    | true =>
        -- Nothing was packed, so the last argument is an array already.
        obtain ⟨kinds, ints | single⟩ := accepts_vararg vararg accepted
        · obtain ⟨_, isArray⟩ := passesAll signature isCallee vararg
          obtain ⟨arg, isLast, isArray⟩ := List.map_eq_singleton_iff.mp isArray
          have isInt := ints arg.ty (by simp [← List.map_drop, isLast])
          simp [isInt, Ty.isArray] at isArray
        · have whole := List.take_append_drop (signature.params.length - 1)
            (passed.map Operand.ty)
          rw [single] at whole
          have areOf := hasKinds areOf
          rw [← whole, List.map_append] at areOf
          rw [kinds]
          exact areOf
  · have accepted := accepts signature rfl
    obtain ⟨kinds, ints | single⟩ := accepts_vararg vararg accepted
    · refine (packArray_supplies linkage hpack).imp ?_
      intro has known packed areOf
      have areInts : ∀ value ∈ args.drop (signature.params.length - 1),
          value.HasKind has .int := by
        intro value member
        have isInt := ints value.ty (by
          rw [← List.map_drop]
          exact List.mem_map_of_mem member)
        have isOf := areOf value (List.mem_of_mem_drop member)
        rwa [isInt] at isOf
      obtain ⟨typed, isArray⟩ := packed areInts
      refine ⟨typed, by simp, ?_⟩
      rintro _ ⟨⟩
      rw [kinds, ← List.map_take]
      exact List.rel_append (hasKinds fun arg member =>
        areOf arg (List.mem_of_mem_take member)) (.cons isArray .nil)
    · -- One array alone is never packed.
      rw [← List.map_drop] at single
      obtain ⟨arg, isLast, isArray⟩ := List.map_eq_singleton_iff.mp single
      simp [isLast, isArray, Ty.isArray] at notArray

structure Serves (linkage : Jvm.Linkage) (scope : Scope) : Prop where
  table : linkage.table = scope.table
  className : linkage.className = scope.className

theorem own?_eq_callee? (serves : Serves linkage scope) {call : Call}
    {method : String} (named : call.method = some method) :
    linkage.own? call = callee? scope call.kind call.target method := by
  simp only [Jvm.Linkage.own?, named, Option.bind_some, callee?,
    serves.table, serves.className]

theorem callTy_declared {callee : Option Signature} {ty : Ty}
    {dest : Destination} {signature : Signature}
    (takes : dest.Takes ty.valueTy) (isCallee : callee = some signature)
    (agrees : ty.agrees signature.returnTy = true) :
    (callTy callee ty dest).result? = signature.returnTy.result? := by
  have same := Ty.result?_of_agrees agrees
  cases dest with
  | discarded => simp [callTy, isCallee]
  | operand => simpa [callTy] using same
  | assigned wanted | returned wanted =>
      rw [callTy, takes.2, Ty.result?_valueTy, same]

theorem callTy_wanted {callee : Option Signature} {ty : Ty}
    {dest : Destination} (takes : dest.Takes ty.valueTy)
    (isUsed : dest ≠ .discarded) :
    (callTy callee ty dest).result? = ty.valueTy.result? ∧
      ty.valueTy.isVoid = false := by
  cases dest with
  | discarded => exact absurd rfl isUsed
  | operand => exact ⟨rfl, takes⟩
  | assigned wanted | returned wanted => exact ⟨takes.2, takes.1⟩

theorem passes_of_callee {has : Naming} (serves : Serves linkage scope)
    {call : Call} {method : String} (named : call.method = some method)
    (invokes : call.kind = .special ∨ call.kind = .static ∨
      call.kind = .virtual)
    (receiver : call.kind ≠ .static → call.target.HasKind has .reference)
    (unknown : callee? scope call.kind call.target method = none →
      ∀ arg ∈ call.args, arg.HasKind has arg.ty.kind)
    (known : ∀ signature,
      callee? scope call.kind call.target method = some signature →
      List.Forall₂ (Operand.HasKind has) call.args
          ((signature.params.map Symbol.ty).map Ty.kind) ∧
        call.returnTy.result? = signature.returnTy.result?) :
    Jvm.Passes has linkage call ∧
      (linkage.shape call).2.result? = call.returnTy.result? := by
  have own := own?_eq_callee? serves named
  have result : (linkage.shape call).2.result? = call.returnTy.result? := by
    rw [Jvm.Linkage.shape, own]
    cases isCallee : callee? scope call.kind call.target method with
    | none => rfl
    | some signature => exact (known signature isCallee).2.symm
  refine ⟨⟨invokes, receiver, ?_, Ty.isVoid_eq_of_result? result⟩, result⟩
  rw [Jvm.Linkage.shape, own]
  cases isCallee : callee? scope call.kind call.target method with
  | none => exact hasKinds (unknown isCallee)
  | some signature => exact (known signature isCallee).1

theorem finishCall_supplies {call : Call} {dest : Destination} {ty : Ty}
    {lowered : Lowered} (h : finishCall call code dest mid = .ok lowered after)
    (before : scope.Supplies supply mid fact)
    (passes : ∀ has, scope.naming ≤ has → fact has →
      TypedCode has linkage scope.returnTy code ∧
        Jvm.Passes has linkage call ∧
        (linkage.shape call).2.result? = call.returnTy.result?)
    (wanted : dest ≠ .discarded →
      call.returnTy.result? = ty.result? ∧ ty.isVoid = false) :
    scope.Supplies supply after fun has =>
      TypedResult has linkage scope.returnTy lowered ty.kind := by
  have used (h : intoTemp call.returnTy code (.call call) mid =
        .ok lowered after) (isUsed : dest ≠ .discarded) :
      scope.Supplies supply after fun has =>
        TypedResult has linkage scope.returnTy lowered ty.kind := by
    obtain ⟨same, hasResult⟩ := wanted isUsed
    rw [← Ty.isVoid_eq_of_result? same] at hasResult
    rw [← Ty.kind_of_result? same]
    refine intoTemp_supplies h before fun has known holds => ?_
    obtain ⟨typed, passes, result⟩ := passes has known holds
    rw [← Ty.kind_of_result? result]
    exact ⟨typed, .invoke passes hasResult⟩
  cases dest with
  | discarded =>
      obtain ⟨rfl, rfl⟩ := Action.pure_eq_ok.mp h
      refine before.imp fun has known holds => ⟨?_, by simp⟩
      obtain ⟨typed, passes, _⟩ := passes has known holds
      exact typedCode_append.mpr
        ⟨typed, typedCode_instr.mpr ⟨.call passes, typedCode_nil⟩⟩
  | operand | assigned | returned => exact used h (by simp)

end Lowering

/-! ## Receivers -/

theorem Ty.kind_of_className? {ty : Ty} (h : ty.className?.isSome = true) :
    ty.kind = .reference := by
  cases ty <;> simp [className?] at h
  rfl

namespace Lowering

variable {scope : Scope} {receiver : Tree.Expr} {kind : CallKind}
  {target : Operand}

theorem directReceiver?_static (h : receiver.namesClass scope = true) :
    ∃ target, directReceiver? scope receiver = some (.static, target) := by
  rw [Tree.Expr.namesClass] at h
  rw [directReceiver?]
  cases form : receiver.skipParens with
  | var attr name =>
      simp only [form] at h ⊢
      unfold Scope.hasValue at h
      cases origin : scope.resolve name with
      | imported | unknown => exact ⟨_, rfl⟩
      | localVar | param | field | enclosing => simp [origin] at h
  | _ => simp [form] at h

theorem directReceiver?_hasKind {has : Naming} (known : scope.naming ≤ has)
    (direct : directReceiver? scope receiver = some (kind, target))
    (typed : receiver.isTyped scope = true)
    (isObject : (scope.typeOf receiver).className?.isSome = true) :
    target.HasKind has .reference := by
  rw [← Tree.Expr.isTyped_skipParens] at typed
  rw [← Tree.Expr.typeOf_skipParens] at isObject
  rw [directReceiver?] at direct
  cases form : receiver.skipParens with
  | self attr =>
      rw [form] at direct typed
      cases direct
      exact hasKind_self known (by simpa [Tree.Expr.isTyped] using typed) _
  | var attr name =>
      simp only [form] at direct typed isObject
      rw [Tree.Expr.isTyped, Scope.isReadable] at typed
      unfold Scope.typeOf at isObject
      cases origin : scope.resolve name with
      | localVar symbol =>
          simp only [origin] at direct isObject
          cases direct
          rw [← Ty.kind_of_className? isObject]
          exact .var (named_variable known (.inl origin))
      | param symbol =>
          simp only [origin] at direct isObject
          cases direct
          rw [← Ty.kind_of_className? isObject]
          exact .var (named_variable known (.inr origin))
      | enclosing =>
          simp only [origin, Bool.not_eq_true'] at direct typed
          cases direct
          exact hasKind_self known typed _
      | field symbol => simp [origin] at direct
      | imported path => simp [origin] at typed
      | unknown => simp [origin] at typed
  | _ => simp [form] at direct

theorem receives_callee? {code : List Fragment} {supply after : Supply}
    (h : Receives scope receiver kind target code supply after)
    (method : String) :
    (kind = .special ∨ kind = .static ∨ kind = .virtual) ∧
      callee? scope kind target method =
        scope.ownMethod? receiver method := by
  have onValue (notClass : receiver.namesClass scope = false)
      (sameTy : target.ty = scope.typeOf receiver) :
      callee? scope .virtual target method =
        scope.ownMethod? receiver method := by
    have sameClass : (scope.typeOf receiver).className? =
        some scope.className ↔
          scope.typeOf receiver = .object scope.className := by
      cases scope.typeOf receiver <;> simp [Ty.className?]
    simp [callee?, Scope.ownMethod?, notClass, sameTy, sameClass]
  cases named : receiver.namesClass scope with
  | true =>
      obtain ⟨other, isStatic⟩ := directReceiver?_static named
      rcases h with ⟨direct, _⟩ | ⟨notDirect, _⟩
      · rw [isStatic] at direct
        cases direct
        simp [callee?, Scope.ownMethod?, named]
      · simp [isStatic] at notDirect
  | false =>
      rcases h with ⟨direct, _⟩ | ⟨_, rfl, hreceiver⟩
      · obtain ⟨rfl, sameTy⟩ := directReceiver?_virtual direct named
        exact ⟨.inr (.inr rfl), onValue named sameTy⟩
      · exact ⟨.inr (.inr rfl),
          onValue named (Tree.Expr.lower_typeOf hreceiver)⟩

end Lowering

end JavaMinus
