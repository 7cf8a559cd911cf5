import JavaMinus.Proofs.Emission.Linking
import JavaMinus.Proofs.Lowering.Breaches

/-!
# Types in lowered code

Types get into instructions from the attributes of expressions, from symbols,
from signatures and from the place that a value goes to.  A vararg stands for a
row of parameters and not for a value, so wherever one is met it is taken as
the array that it is packed into, or lowering fails.  No instruction of lowered
code mentions a vararg.
-/

namespace JavaMinus

open Ir (Operand Instr Call CallKind Fragment)
open Lowering

/-! ## Types that are mentioned -/

namespace Ir

@[simp] def Operand.types : Operand → List Ty
  | .literal _ ty | .var _ ty => [ty]
  | .element _ position => .int :: position.types
  | .self className => [.object className]
  | .field ref => [ref.ty]

@[simp] def Call.types (call : Call) : List Ty :=
  call.target.types ++ call.args.flatMap Operand.types ++ [call.returnTy]

/-- All types in an instruction, those of its operands among them. -/
@[simp] def Instr.types : Instr → List Ty
  | .assign dest ty value => dest.types ++ ty :: value.types
  | .single operand | .branch operand _ => operand.types
  | .binary _ left right ty => left.types ++ right.types ++ [ty]
  | .not operand ty => operand.types ++ [ty]
  | .call invocation => invocation.types
  | .getField object field => object.types ++ [field.ty]
  | .putField object field value => object.types ++ field.ty :: value.types
  | .goto _ => []
  | .ret ty operand => ty :: operand.toList.flatMap Operand.types

end Ir

@[simp] theorem Ty.vararg_ne_valueTy (ty : Ty) : Ty.vararg ≠ ty.valueTy :=
  ty.valueTy_ne_vararg.symm

namespace Lowering

def OnValues (code : List Fragment) : Prop :=
  ∀ instr ∈ instrs code, Ty.vararg ∉ instr.types

@[simp] theorem onValues_nil : OnValues [] := by simp [OnValues]

@[simp] theorem onValues_append {first second : List Fragment} :
    OnValues (first ++ second) ↔ OnValues first ∧ OnValues second := by
  simp [OnValues, or_imp, forall_and]

@[simp] theorem onValues_instr {instr : Instr} {rest : List Fragment} :
    OnValues (.instr instr :: rest) ↔
      Ty.vararg ∉ instr.types ∧ OnValues rest := by
  simp [OnValues]

@[simp] theorem onValues_label {name : String} {rest : List Fragment} :
    OnValues (.label name :: rest) ↔ OnValues rest := Iff.rfl

@[simp] theorem onValues_thenGoto {label : String} {code : List Fragment} :
    OnValues (thenGoto label code) ↔ OnValues code := by
  rw [thenGoto]
  split
  · simp
  · rfl

structure YieldsValue (lowered : Lowered) : Prop where
  code : OnValues lowered.code
  result : ∀ operand, lowered.result = some operand →
    Ty.vararg ∉ operand.types

variable {scope : Scope} {supply after : Supply} {lowered : Lowered}
  {code : List Fragment}

theorem yieldsValue_some {operand : Operand} :
    YieldsValue ⟨some operand, code⟩ ↔
      OnValues code ∧ Ty.vararg ∉ operand.types := by
  constructor
  · exact fun h => ⟨h.code, h.result operand rfl⟩
  · rintro ⟨onValues, isValue⟩
    refine ⟨onValues, ?_⟩
    rintro _ ⟨⟩
    exact isValue

theorem intoTemp_yieldsValue {ty : Ty} {value : Instr}
    (h : intoTemp ty code value supply = .ok lowered after)
    (onValues : OnValues code)
    (isValue : ty ≠ .vararg → Ty.vararg ∉ value.types) :
    YieldsValue lowered := by
  have notVararg : ty ≠ .vararg := intoTemp_succeeds_iff.mp ⟨_, _, h⟩
  obtain ⟨name, _, rfl⟩ := intoTemp_eq_ok h
  simp [yieldsValue_some, onValues, isValue notVararg, notVararg.symm,
    Instr.store, Operand.ty]

theorem packArray_onValues {values : List Operand} {array : Operand}
    (areValues : ∀ value ∈ values, Ty.vararg ∉ value.types)
    (h : packArray values supply = .ok (array, code) after) :
    OnValues code ∧ Ty.vararg ∉ array.types := by
  obtain ⟨name, _, _, rfl, rfl⟩ := packArray_eq_ok h
  refine ⟨onValues_instr.mpr ⟨?_, fun instr member => ?_⟩, ?_⟩
  · simp [Instr.store, Operand.ty, Operand.int, Lowering.newArray]
  · obtain ⟨index, value, isValue, isStore⟩ :=
      mem_elementStores (mem_instrs.mp member)
    cases isStore
    simp [Instr.store, Operand.ty, Operand.int, areValues value isValue]
  · simp

theorem packVarargs_onValues {callee : Option Signature}
    {args passed : List Operand}
    (areValues : ∀ arg ∈ args, Ty.vararg ∉ arg.types)
    (h : packVarargs callee args supply = .ok (passed, code) after) :
    OnValues code ∧ ∀ arg ∈ passed, Ty.vararg ∉ arg.types := by
  rcases packVarargs_eq_ok h with
    ⟨_, rfl, rfl, rfl⟩ | ⟨fixed, array, _, hpack, rfl⟩
  · exact ⟨onValues_nil, areValues⟩
  · obtain ⟨onValues, isArray⟩ := packArray_onValues
      (fun value member => areValues value (List.mem_of_mem_drop member)) hpack
    refine ⟨onValues, fun arg member => ?_⟩
    rcases List.mem_append.mp member with member | member
    · exact areValues arg (List.mem_of_mem_take member)
    · rwa [List.mem_singleton.mp member]

/--
A call returns a value.  If the type that it is to return is asked for from
outside, there is a temporary of this type.
-/
theorem finishCall_yieldsValue {dest : Destination} {call : Call} {ty : Ty}
    {callee : Option Signature}
    (h : finishCall call code dest supply = .ok lowered after)
    (returns : call.returnTy = callTy callee ty dest)
    (onValues : OnValues code) (isTarget : Ty.vararg ∉ call.target.types)
    (areValues : ∀ arg ∈ call.args, Ty.vararg ∉ arg.types) :
    YieldsValue lowered := by
  have mentions (notVararg : call.returnTy ≠ .vararg) :
      Ty.vararg ∉ (Instr.call call).types := by
    simpa [isTarget, notVararg.symm] using areValues
  cases dest with
  | discarded =>
      obtain ⟨rfl, rfl⟩ := Action.pure_eq_ok.mp h
      have notVararg : call.returnTy ≠ .vararg := by
        rw [returns]
        cases callee with
        | none => exact ty.valueTy_ne_vararg
        | some signature => exact signature.returnTy.valueTy_ne_vararg
      refine ⟨?_, nofun⟩
      simpa [onValues] using mentions notVararg
  | assigned _ | returned _ | operand =>
      exact intoTemp_yieldsValue h onValues mentions

theorem finishElement_yieldsValue {dest : Destination} {array : String}
    {position : Operand}
    (h : finishElement (.element array position) code dest supply =
      .ok lowered after)
    (onValues : OnValues code) (isValue : Ty.vararg ∉ position.types) :
    YieldsValue lowered := by
  have mentions : Ty.vararg ∉ (Operand.element array position).types := by
    simpa using isValue
  cases dest with
  | discarded | operand =>
      exact intoTemp_yieldsValue h onValues fun _ => mentions
  | assigned ty | returned ty =>
      obtain ⟨rfl, rfl⟩ := Action.pure_eq_ok.mp h
      exact yieldsValue_some.mpr ⟨onValues, mentions⟩

theorem directReceiver?_isValue {receiver : Tree.Expr} {kind : CallKind}
    {target : Operand}
    (h : directReceiver? scope receiver = some (kind, target)) :
    Ty.vararg ∉ target.types := by
  rw [directReceiver?] at h
  split at h
  · cases h
    simp
  · split at h <;> cases h <;> simp
  · cases h

end Lowering

/-! ## Expressions -/

namespace Tree.Expr

variable {scope : Scope} {dest : Destination} {supply after : Supply}

theorem lower_yieldsValue {expr : Expr} {lowered : Lowered}
    (h : expr.lower scope dest supply = .ok lowered after) :
    YieldsValue lowered := by
  induction h using lower_induction (fun _ _ operands code _ =>
    OnValues code ∧ ∀ operand ∈ operands, Ty.vararg ∉ operand.types) with
  | nil => simp
  | cons _ _ onFirst onRest =>
      rw [yieldsValue_some] at onFirst
      exact ⟨onValues_append.mpr ⟨onFirst.1, onRest.1⟩,
        by simpa [onFirst.2] using onRest.2⟩
  | int | bool | self | readVar | readEnclosing | readClass =>
      simp [Lowered.ofOperand, yieldsValue_some, Operand.int, Operand.bool]
  | readField | newObject =>
      simp [yieldsValue_some, Instr.store, Operand.ty, fieldRef]
  | paren _ ih => exact ih
  | and _ _ _ _ _ ihLeft ihRight =>
      rw [yieldsValue_some] at ihLeft ihRight
      simp [yieldsValue_some, ihLeft, ihRight, Instr.store, Operand.ty,
        Operand.bool]
  | binary _ notVararg _ _ _ ihLeft ihRight =>
      rw [yieldsValue_some] at ihLeft ihRight
      simp [yieldsValue_some, ihLeft, ihRight, notVararg.symm, Instr.store,
        Operand.ty]
  | not _ _ ih | newArray _ _ ih | length _ _ ih =>
      rw [yieldsValue_some] at ih
      simp [yieldsValue_some, ih, Instr.store, Operand.ty,
        Lowering.newArray]
  | call receives _ hpack hfinish ihReceiver ihArgs =>
      obtain ⟨fromPack, arePassed⟩ := packVarargs_onValues ihArgs.2 hpack
      rcases receives with ⟨direct, rfl, rfl⟩ | ⟨_, _, hreceiver⟩
      · exact finishCall_yieldsValue hfinish rfl
          (by simp [ihArgs.1, fromPack]) (directReceiver?_isValue direct)
          arePassed
      · obtain ⟨fromTarget, isTarget⟩ :=
          yieldsValue_some.mp (ihReceiver hreceiver)
        exact finishCall_yieldsValue hfinish rfl
          (by simp [fromTarget, ihArgs.1, fromPack]) isTarget arePassed
  | arrayLiteral _ hpack ih =>
      obtain ⟨fromPack, isArray⟩ := packArray_onValues ih.2 hpack
      simp [yieldsValue_some, ih.1, fromPack, isArray]
  | index _ _ hfinish ihArray ihPosition =>
      rw [yieldsValue_some] at ihArray ihPosition
      exact finishElement_yieldsValue hfinish
        (by simp [ihArray, ihPosition]) ihPosition.2

theorem lower_onValues {expr : Expr} {operand : Operand}
    {code : List Fragment}
    (h : expr.lower scope dest supply = .ok ⟨some operand, code⟩ after) :
    OnValues code ∧ Ty.vararg ∉ operand.types :=
  yieldsValue_some.mp (lower_yieldsValue h)

end Tree.Expr

/-! ## Statements -/

namespace Lowering

variable {scope : Scope} {supply after : Supply} {code : List Fragment}

theorem increment?_isValue {name : String} {ty : Ty} {value : Tree.Expr}
    {step : Instr} (h : increment? name ty value = some step) :
    Ty.vararg ∉ step.types := by
  obtain ⟨_, _, _, _, _, _, _, _, ⟨_, _, rfl⟩ | ⟨_, _, rfl⟩⟩ :=
    increment?_eq_some h <;>
    simp [Operand.int]

end Lowering

namespace Tree.Stmt

variable {scope : Scope} {supply after : Supply} {code : List Fragment}

theorem lower_onValues {stmt : Stmt}
    (h : stmt.lower scope supply = .ok code after) : OnValues code := by
  induction h using lower_induction with
  | nil => exact onValues_nil
  | cons _ _ onFirst onRest => exact onValues_append.mpr ⟨onFirst, onRest⟩
  | increment _ _ hstep =>
      simp [Instr.store, Operand.ty, increment?_isValue hstep]
  | assignVar _ _ hvalue | assignField _ _ hvalue | ret hvalue =>
      simp [Instr.store, Operand.ty, fieldRef, Expr.lower_onValues hvalue]
  | assignElement _ harray hposition hvalue =>
      simp [Instr.store, Operand.ty, Expr.lower_onValues harray,
        Expr.lower_onValues hposition, Expr.lower_onValues hvalue]
  | expr hvalue => exact (Expr.lower_yieldsValue hvalue).code
  | retVoid => simp
  | ifThen hcond _ _ _ ih => simp [Expr.lower_onValues hcond, ih]
  | ifElse hcond _ _ _ _ ihFalse ihTrue =>
      simp [Expr.lower_onValues hcond, ihFalse, ihTrue]
  | loop _ _ _ hcond _ ih => simp [Expr.lower_onValues hcond, ih]

theorem lowerAll_onValues {stmts : List Stmt}
    (h : lowerAll scope stmts supply = .ok code after) : OnValues code :=
  lower_onValues (lower_of_lowerAll h)

end Tree.Stmt

/-! ## Programs -/

namespace Tree

variable {table : SymbolTable} {supply after : Supply}

theorem Method.lower_onValues {method : Method} {lowered : Ir.Method}
    (h : method.lower table supply = .ok lowered after) :
    ∀ instr ∈ lowered.instrs, Ty.vararg ∉ instr.types := by
  obtain ⟨code, hcode, _, closed⟩ := lower_eq_ok h
  intro instr member
  rw [closed] at member
  rcases mem_close member with inCode | rfl
  · exact Stmt.lowerAll_onValues hcode instr inCode
  · simp

/-- The instructions of a lowered program mention no vararg. -/
theorem Program.lower_mentions_no_vararg {program : Program} {cls : Ir.Class}
    (h : program.lower table supply = .ok cls after) :
    ∀ method ∈ cls.methods, ∀ instr ∈ method.instrs,
      Ty.vararg ∉ instr.types := by
  obtain ⟨lowered, mid, hlowered, h⟩ := Action.bind_eq_ok.mp h
  obtain ⟨rfl, rfl⟩ := Action.pure_eq_ok.mp h
  intro method member
  rcases List.mem_append.mp member with fromTree | isConstructor
  · obtain ⟨source, _, before, behind, hmethod⟩ :=
      exists_of_forall₂ (Method.lowerAll_eq_ok hlowered) fromTree
    exact source.lower_onValues hmethod
  · rw [List.mem_singleton.mp isConstructor]
    simp [defaultConstructor]

def Program.allVarargs : Program where
  declared := {
    name := "Bag"
    fields := [{ name := "items", ty := .vararg }]
    methods := [{
      name := "keep"
      returnTy := .vararg
      params := [{ name := "given", ty := .vararg }]
      locals := [{ name := "copy", ty := .vararg }]
      body := [
        .assign {} (.var ⟨.vararg, {}⟩ "copy") (.var ⟨.vararg, {}⟩ "given"),
        .expr {} (.call ⟨.vararg, {}⟩ (.self ⟨.vararg, {}⟩) "keep"
          [.int ⟨.vararg, {}⟩ 1, .int ⟨.vararg, {}⟩ 2]),
        .assign {} (.var ⟨.vararg, {}⟩ "items")
          (.call ⟨.vararg, {}⟩ (.self ⟨.vararg, {}⟩) "keep"
            [.var ⟨.vararg, {}⟩ "copy"]),
        .ret {} (some (.var ⟨.vararg, {}⟩ "items"))] }] }

theorem Program.lower_mentions_no_vararg_allVarargs :
    ∃ cls after,
      allVarargs.lower (.ofProgram allVarargs) {} = .ok cls after ∧
      cls.methods.map (·.instrs.length) = [9, 2] ∧
      ∀ method ∈ cls.methods, ∀ instr ∈ method.instrs,
        Ty.vararg ∉ instr.types := by
  obtain ⟨cls, after, h, length⟩ : ∃ cls after,
      allVarargs.lower (.ofProgram allVarargs) {} = .ok cls after ∧
        cls.methods.map (·.instrs.length) = [9, 2] := ⟨_, _, rfl, by decide⟩
  exact ⟨cls, after, h, length, lower_mentions_no_vararg h⟩

end Tree

end JavaMinus
