import JavaMinus.Lowering.Statement
import JavaMinus.Proofs.Lowering.Names

/-!
# The forms of lowered code

For each form of expressions and statements, all that is to be known about
its lowered code if lowering succeeds.  No later proof has to look into the
lowering functions themselves.
-/

namespace JavaMinus

open Ir (Operand Instr Call CallKind Fragment)

namespace Lowering

variable {scope : Scope} {supply after : Supply} {lowered : Lowered}

/-! ## Parts -/

theorem parts_eq_ok {operand : Operand} {code : List Fragment} :
    lowered.parts supply = .ok (operand, code) after ↔
      lowered = ⟨some operand, code⟩ ∧ supply = after := by
  obtain ⟨result, code'⟩ := lowered
  cases result with
  | none => simp [Lowered.parts, Action.throw_ne_ok]
  | some operand' => simp [Lowered.parts, Action.pure_eq_ok, and_assoc]

theorem operand_bind_eq_ok {β : Type} {expr : Tree.Expr}
    {dest : Destination} {result : β}
    {next : Operand × List Fragment → Lower β} :
    (do next (← (← expr.lower scope dest).parts)) supply =
        .ok result after ↔
      ∃ operand code mid,
        expr.lower scope dest supply = .ok ⟨some operand, code⟩ mid ∧
        next (operand, code) mid = .ok result after := by
  simp only [Action.bind_eq_ok]
  constructor
  · rintro ⟨lowered, mid, hlower, ⟨operand, code⟩, mid', hparts, hnext⟩
    obtain ⟨rfl, rfl⟩ := parts_eq_ok.mp hparts
    exact ⟨operand, code, mid, hlower, hnext⟩
  · rintro ⟨operand, code, mid, hlower, hnext⟩
    exact ⟨_, mid, hlower, (operand, code), mid,
      parts_eq_ok.mpr ⟨rfl, rfl⟩, hnext⟩

theorem intoTemp_eq_ok {ty : Ty} {code : List Fragment} {value : Instr}
    (h : intoTemp ty code value supply = .ok lowered after) :
    ∃ name, supply.Drawn after name ∧
      lowered = ⟨some (.var name ty),
        code ++ [.instr (.store (.var name ty) value)]⟩ := by
  obtain ⟨operand, mid, htemp, hpure⟩ := Action.bind_eq_ok.mp h
  obtain ⟨rfl, rfl⟩ := Action.pure_eq_ok.mp hpure
  obtain ⟨name, rfl, drawn⟩ := Lower.drawn_of_temp htemp
  exact ⟨name, drawn, rfl⟩

theorem intoTemp_succeeds_iff {ty : Ty} {code : List Fragment}
    {value : Instr} :
    (∃ lowered after, intoTemp ty code value supply = .ok lowered after) ↔
      ty ≠ .vararg := by
  cases ty with
  | vararg =>
      have fails : intoTemp .vararg code value supply =
          .error .escapedVararg supply := rfl
      simp [fails]
  | _ => exact ⟨fun _ => nofun, fun _ => ⟨_, _, rfl⟩⟩

theorem finishElement_code {dest : Destination} {element : Operand}
    {code : List Fragment}
    (h : finishElement element code dest supply = .ok lowered after) :
    ∃ last, lowered.code = code ++ last := by
  cases dest with
  | assigned ty | returned ty =>
      obtain ⟨rfl, rfl⟩ := Action.pure_eq_ok.mp h
      exact ⟨[], by simp⟩
  | operand | discarded =>
      obtain ⟨name, _, rfl⟩ := intoTemp_eq_ok h
      exact ⟨_, rfl⟩

theorem finishCall_code {dest : Destination} {call : Call}
    {code : List Fragment}
    (h : finishCall call code dest supply = .ok lowered after) :
    ∃ last, lowered.code = code ++ last := by
  cases dest with
  | discarded =>
      obtain ⟨rfl, rfl⟩ := Action.pure_eq_ok.mp h
      exact ⟨_, rfl⟩
  | assigned ty | returned ty | operand =>
      obtain ⟨name, _, rfl⟩ := intoTemp_eq_ok h
      exact ⟨_, rfl⟩

/-! ## Arrays and calls -/

theorem packArray_eq_ok {values : List Operand} {array : Operand}
    {code : List Fragment}
    (h : packArray values supply = .ok (array, code) after) :
    ∃ name, supply.Drawn after name ∧ values.length ≤ 2147483647 ∧
      array = .var name .intArray ∧
      code = .instr (.store array
          (newArray (.int (Int32.ofNat values.length)))) ::
        elementStores name values := by
  obtain ⟨temp, mid, htemp, hrest⟩ := Action.bind_eq_ok.mp h
  obtain ⟨name, rfl, drawn⟩ := Lower.drawn_of_temp htemp
  simp only [Operand.varName?] at hrest
  split at hrest
  · exact absurd hrest Action.throw_ne_ok
  next short =>
    obtain ⟨hpair, rfl⟩ := Action.pure_eq_ok.mp hrest
    cases hpair
    exact ⟨name, drawn, Nat.le_of_not_lt short, rfl, rfl⟩

theorem mem_elementStores {array : String} {values : List Operand}
    {fragment : Fragment} (member : fragment ∈ elementStores array values) :
    ∃ index value, value ∈ values ∧
      fragment = .instr (.store
        (.element array (.int (Int32.ofNat index))) (.single value)) := by
  obtain ⟨⟨value, index⟩, isEntry, rfl⟩ := List.mem_map.mp member
  exact ⟨index, value, List.fst_mem_of_mem_zipIdx isEntry, rfl⟩

theorem arrayName_eq_ok {operand : Operand} {name : String}
    (h : arrayName operand supply = .ok name after) :
    (∃ ty, operand = .var name ty) ∧ supply = after := by
  cases operand with
  | var name' ty =>
      obtain ⟨rfl, rfl⟩ := Action.pure_eq_ok.mp h
      exact ⟨⟨ty, rfl⟩, rfl⟩
  | literal value ty => exact absurd h Action.throw_ne_ok
  | element array position => exact absurd h Action.throw_ne_ok
  | self className => exact absurd h Action.throw_ne_ok
  | field ref => exact absurd h Action.throw_ne_ok

def Packs (callee : Option Signature) (args : List Operand)
    (fixed : Nat) : Prop :=
  ∃ signature, callee = some signature ∧ signature.hasVararg = true ∧
    fixed = signature.params.length - 1 ∧ fixed ≤ args.length ∧
    (args.drop fixed).map (·.ty.isArray) ≠ [true]

def PassesAll (callee : Option Signature) (args : List Operand) : Prop :=
  ∀ signature, callee = some signature → signature.hasVararg = true →
    signature.params.length - 1 ≤ args.length ∧
    (args.drop (signature.params.length - 1)).map (·.ty.isArray) = [true]

theorem packVarargs_eq_ok {callee : Option Signature}
    {args passed : List Operand} {code : List Fragment}
    (h : packVarargs callee args supply = .ok (passed, code) after) :
    (PassesAll callee args ∧ passed = args ∧ code = [] ∧ after = supply) ∨
    (∃ fixed array, Packs callee args fixed ∧
      packArray (args.drop fixed) supply = .ok (array, code) after ∧
      passed = args.take fixed ++ [array]) := by
  cases callee with
  | none =>
      obtain ⟨hpair, rfl⟩ := Action.pure_eq_ok.mp h
      cases hpair
      exact .inl ⟨by simp [PassesAll], rfl, rfl, rfl⟩
  | some signature =>
      rw [packVarargs] at h
      split at h
      next plain =>
        obtain ⟨hpair, rfl⟩ := Action.pure_eq_ok.mp h
        cases hpair
        refine .inl ⟨?_, rfl, rfl, rfl⟩
        rintro other ⟨⟩ vararg
        simp [vararg] at plain
      next vararg =>
        have vararg : signature.hasVararg = true := by simpa using vararg
        dsimp only at h
        split at h
        · exact absurd h Action.throw_ne_ok
        next enough =>
          have enough := Nat.le_of_not_lt enough
          have packs (differs : (args.drop (signature.params.length - 1)).map
                (·.ty.isArray) ≠ [true])
              (h : packVarargs.pack args (signature.params.length - 1)
                (args.drop (signature.params.length - 1)) supply =
                  .ok (passed, code) after) :
              ∃ fixed array, Packs (some signature) args fixed ∧
                packArray (args.drop fixed) supply = .ok (array, code) after ∧
                passed = args.take fixed ++ [array] := by
            obtain ⟨⟨array, code'⟩, mid, hpack, hpure⟩ :=
              Action.bind_eq_ok.mp h
            obtain ⟨hpair, rfl⟩ := Action.pure_eq_ok.mp hpure
            cases hpair
            exact ⟨_, array, ⟨signature, rfl, vararg, rfl, enough, differs⟩,
              hpack, rfl⟩
          rcases extra : args.drop (signature.params.length - 1) with
            _ | ⟨single, _ | ⟨second, rest⟩⟩
          · exact .inr (packs (by simp [extra]) (by simpa [extra] using h))
          · rw [extra] at h
            dsimp only at h
            split at h
            next isArray =>
              obtain ⟨hpair, rfl⟩ := Action.pure_eq_ok.mp h
              cases hpair
              refine .inl ⟨?_, rfl, rfl, rfl⟩
              rintro other ⟨⟩ _
              exact ⟨enough, by simp [extra, isArray]⟩
            next notArray =>
              exact .inr (packs (by simpa [extra] using notArray)
                (by simpa [extra] using h))
          · exact .inr (packs (by simp [extra]) (by simpa [extra] using h))

/-- How the receiver of a call is addressed, and the code for it. -/
def Receives (scope : Scope) (receiver : Tree.Expr) (kind : CallKind)
    (target : Operand) (code : List Fragment) (before after : Supply) :
    Prop :=
  (directReceiver? scope receiver = some (kind, target) ∧ code = [] ∧
      after = before) ∨
    (directReceiver? scope receiver = none ∧ kind = .virtual ∧
      receiver.lower scope .operand before = .ok ⟨some target, code⟩ after)

end Lowering

namespace Tree.Expr

open Lowering

variable {scope : Scope} {dest : Destination} {supply after : Supply}
  {lowered : Lowered} {attr : Attr}

/-! ## Expressions -/

theorem lower_and_eq_ok {left right : Expr}
    (h : (Expr.binary attr .and left right).lower scope dest supply =
      .ok lowered after) :
    ∃ leftOp leftCode first name second rightLabel third endLabel fourth
        rightOp rightCode,
      left.lower scope .operand supply =
        .ok ⟨some leftOp, leftCode⟩ first ∧
      first.Drawn second name ∧
      Lower.label "andRight" second = .ok rightLabel third ∧
      Lower.label "andEnd" third = .ok endLabel fourth ∧
      right.lower scope .operand fourth =
        .ok ⟨some rightOp, rightCode⟩ after ∧
      lowered = ⟨some (.var name .boolean),
        leftCode ++
          [.instr (.branch leftOp rightLabel),
            .instr (.store (.var name .boolean) (.single (.bool false))),
            .instr (.goto endLabel),
            .label rightLabel] ++
          rightCode ++
          [.instr (.store (.var name .boolean) (.single rightOp)),
            .label endLabel]⟩ := by
  rw [Expr.lower] at h
  obtain ⟨leftOp, leftCode, first, hleft, h⟩ := operand_bind_eq_ok.mp h
  obtain ⟨operand, second, htemp, h⟩ := Action.bind_eq_ok.mp h
  obtain ⟨rightLabel, third, hright, h⟩ := Action.bind_eq_ok.mp h
  obtain ⟨endLabel, fourth, hend, h⟩ := Action.bind_eq_ok.mp h
  obtain ⟨rightOp, rightCode, last, hlower, h⟩ := operand_bind_eq_ok.mp h
  obtain ⟨rfl, rfl⟩ := Action.pure_eq_ok.mp h
  obtain ⟨name, rfl, drawn⟩ := Lower.drawn_of_temp htemp
  exact ⟨leftOp, leftCode, first, name, second, rightLabel, third, endLabel,
    fourth, rightOp, rightCode, hleft, drawn, hright, hend, hlower, rfl⟩

theorem lower_binary_eq_ok {op : Operator} {left right : Expr}
    (strict : op ≠ .and)
    (h : (Expr.binary attr op left right).lower scope dest supply =
      .ok lowered after) :
    ∃ leftOp leftCode first rightOp rightCode second name,
      left.lower scope .operand supply =
        .ok ⟨some leftOp, leftCode⟩ first ∧
      right.lower scope .operand first =
        .ok ⟨some rightOp, rightCode⟩ second ∧
      second.Drawn after name ∧ attr.ty ≠ .vararg ∧
      lowered = ⟨some (.var name attr.ty),
        leftCode ++ rightCode ++
          [.instr (.store (.var name attr.ty)
            (.binary op leftOp rightOp attr.ty))]⟩ := by
  rw [Expr.lower] at h
  · obtain ⟨leftOp, leftCode, first, hleft, h⟩ := operand_bind_eq_ok.mp h
    obtain ⟨rightOp, rightCode, second, hright, h⟩ := operand_bind_eq_ok.mp h
    have notVararg := intoTemp_succeeds_iff.mp ⟨_, _, h⟩
    obtain ⟨name, drawn, rfl⟩ := intoTemp_eq_ok h
    exact ⟨leftOp, leftCode, first, rightOp, rightCode, second, name, hleft,
      hright, drawn, notVararg, rfl⟩
  · exact strict

theorem lower_not_eq_ok {operand : Expr}
    (h : (Expr.not attr operand).lower scope dest supply =
      .ok lowered after) :
    ∃ op code mid name,
      operand.lower scope .operand supply = .ok ⟨some op, code⟩ mid ∧
      mid.Drawn after name ∧
      lowered = ⟨some (.var name .boolean),
        code ++ [.instr (.store (.var name .boolean)
          (.not op .boolean))]⟩ := by
  rw [Expr.lower] at h
  obtain ⟨op, code, mid, hoperand, h⟩ := operand_bind_eq_ok.mp h
  obtain ⟨name, drawn, rfl⟩ := intoTemp_eq_ok h
  exact ⟨op, code, mid, name, hoperand, drawn, rfl⟩

theorem lower_call_eq_ok {receiver : Expr} {method : String}
    {args : List Expr}
    (h : (Expr.call attr receiver method args).lower scope dest supply =
      .ok lowered after) :
    ∃ kind target targetCode first operands argCode second passed packCode
        third,
      Receives scope receiver kind target targetCode supply first ∧
      lowerAll scope args first = .ok (operands, argCode) second ∧
      packVarargs (callee? scope kind target method) operands second =
        .ok (passed, packCode) third ∧
      finishCall
        { kind, target, method := some method, args := passed
          returnTy := callTy (callee? scope kind target method) attr.ty dest }
        (targetCode ++ argCode ++ packCode) dest third =
          .ok lowered after := by
  rw [Expr.lower] at h
  rcases direct : directReceiver? scope receiver with _ | ⟨kind, target⟩
  · rw [direct] at h
    obtain ⟨target, code, first, hlower, h⟩ := operand_bind_eq_ok.mp h
    obtain ⟨triple, mid, hpure, h⟩ := Action.bind_eq_ok.mp h
    obtain ⟨rfl, rfl⟩ := Action.pure_eq_ok.mp hpure
    obtain ⟨⟨operands, argCode⟩, second, hargs, h⟩ := Action.bind_eq_ok.mp h
    obtain ⟨⟨passed, packCode⟩, third, hpack, h⟩ := Action.bind_eq_ok.mp h
    exact ⟨.virtual, target, code, first, operands, argCode, second, passed,
      packCode, third, .inr ⟨direct, rfl, hlower⟩, hargs, hpack, h⟩
  · rw [direct] at h
    obtain ⟨triple, first, hpure, h⟩ := Action.bind_eq_ok.mp h
    obtain ⟨rfl, rfl⟩ := Action.pure_eq_ok.mp hpure
    obtain ⟨⟨operands, argCode⟩, second, hargs, h⟩ := Action.bind_eq_ok.mp h
    obtain ⟨⟨passed, packCode⟩, third, hpack, h⟩ := Action.bind_eq_ok.mp h
    exact ⟨kind, target, [], supply, operands, argCode, second, passed,
      packCode, third, .inl ⟨direct, rfl, rfl⟩, hargs, hpack, h⟩

theorem lower_newObject_eq_ok {className : String}
    (h : (Expr.newObject attr className).lower scope dest supply =
      .ok lowered after) :
    ∃ name, supply.Drawn after name ∧
      lowered = ⟨some (.var name (.object className)),
        [.instr (.store (.var name (.object className))
            (.call {
              kind := .new
              target := .var className (.object className)
              returnTy := .object className })),
          .instr (.call {
            kind := .special
            target := .var name (.object className)
            method := some "<init>"
            returnTy := .void })]⟩ := by
  rw [Expr.lower] at h
  obtain ⟨operand, mid, htemp, h⟩ := Action.bind_eq_ok.mp h
  obtain ⟨rfl, rfl⟩ := Action.pure_eq_ok.mp h
  obtain ⟨name, rfl, drawn⟩ := Lower.drawn_of_temp htemp
  exact ⟨name, drawn, rfl⟩

theorem lower_newArray_eq_ok {size : Expr}
    (h : (Expr.newArray attr size).lower scope dest supply =
      .ok lowered after) :
    ∃ op code mid name,
      size.lower scope .operand supply = .ok ⟨some op, code⟩ mid ∧
      mid.Drawn after name ∧
      lowered = ⟨some (.var name .intArray),
        code ++ [.instr (.store (.var name .intArray)
          (Lowering.newArray op))]⟩ := by
  rw [Expr.lower] at h
  obtain ⟨op, code, mid, hsize, h⟩ := operand_bind_eq_ok.mp h
  obtain ⟨name, drawn, rfl⟩ := intoTemp_eq_ok h
  exact ⟨op, code, mid, name, hsize, drawn, rfl⟩

theorem lower_arrayLiteral_eq_ok {elements : List Expr}
    (h : (Expr.arrayLiteral attr elements).lower scope dest supply =
      .ok lowered after) :
    ∃ operands code mid array packCode,
      lowerAll scope elements supply = .ok (operands, code) mid ∧
      packArray operands mid = .ok (array, packCode) after ∧
      lowered = ⟨some array, code ++ packCode⟩ := by
  rw [Expr.lower] at h
  obtain ⟨⟨operands, code⟩, mid, helements, h⟩ := Action.bind_eq_ok.mp h
  obtain ⟨⟨array, packCode⟩, last, hpack, h⟩ := Action.bind_eq_ok.mp h
  obtain ⟨rfl, rfl⟩ := Action.pure_eq_ok.mp h
  exact ⟨operands, code, mid, array, packCode, helements, hpack, rfl⟩

theorem lower_index_eq_ok {array position : Expr}
    (h : (Expr.index attr array position).lower scope dest supply =
      .ok lowered after) :
    ∃ name ty arrayCode first op code second,
      array.lower scope .operand supply =
        .ok ⟨some (.var name ty), arrayCode⟩ first ∧
      position.lower scope .operand first = .ok ⟨some op, code⟩ second ∧
      finishElement (.element name op) (arrayCode ++ code) dest second =
        .ok lowered after := by
  rw [Expr.lower] at h
  obtain ⟨operand, arrayCode, first, harray, h⟩ := operand_bind_eq_ok.mp h
  obtain ⟨name, mid, hname, h⟩ := Action.bind_eq_ok.mp h
  obtain ⟨⟨ty, rfl⟩, rfl⟩ := arrayName_eq_ok hname
  obtain ⟨op, code, second, hposition, h⟩ := operand_bind_eq_ok.mp h
  exact ⟨name, ty, arrayCode, first, op, code, second, harray, hposition, h⟩

theorem lower_length_eq_ok {array : Expr}
    (h : (Expr.length attr array).lower scope dest supply =
      .ok lowered after) :
    ∃ op code mid name,
      array.lower scope .operand supply = .ok ⟨some op, code⟩ mid ∧
      mid.Drawn after name ∧
      lowered = ⟨some (.var name .int),
        code ++ [.instr (.store (.var name .int)
          (.call {
            kind := .arrayLength, target := op, returnTy := .int }))]⟩ := by
  rw [Expr.lower] at h
  obtain ⟨op, code, mid, harray, h⟩ := operand_bind_eq_ok.mp h
  obtain ⟨name, drawn, rfl⟩ := intoTemp_eq_ok h
  exact ⟨op, code, mid, name, harray, drawn, rfl⟩

theorem lowerAll_cons_eq_ok {expr : Expr} {rest : List Expr}
    {operands : List Operand} {code : List Fragment}
    (h : lowerAll scope (expr :: rest) supply = .ok (operands, code) after) :
    ∃ op opCode mid ops opsCode,
      expr.lower scope .operand supply = .ok ⟨some op, opCode⟩ mid ∧
      lowerAll scope rest mid = .ok (ops, opsCode) after ∧
      operands = op :: ops ∧ code = opCode ++ opsCode := by
  rw [lowerAll] at h
  obtain ⟨op, opCode, mid, hexpr, h⟩ := operand_bind_eq_ok.mp h
  obtain ⟨⟨ops, opsCode⟩, last, hrest, h⟩ := Action.bind_eq_ok.mp h
  obtain ⟨hpair, rfl⟩ := Action.pure_eq_ok.mp h
  cases hpair
  exact ⟨op, opCode, mid, ops, opsCode, hexpr, hrest, rfl, rfl⟩

theorem lowerOperand_eq_ok {expr : Expr} {operand : Operand}
    {code : List Fragment}
    (h : expr.lowerOperand scope supply = .ok (operand, code) after) :
    expr.lower scope .operand supply = .ok ⟨some operand, code⟩ after := by
  obtain ⟨lowered, mid, hlower, hparts⟩ := Action.bind_eq_ok.mp h
  obtain ⟨rfl, rfl⟩ := parts_eq_ok.mp hparts
  exact hlower

end Tree.Expr

/-! ## Simple statements -/

namespace Lowering

variable {scope : Scope} {supply after : Supply} {code : List Fragment}

theorem increment?_eq_some {name : String} {ty : Ty} {value : Tree.Expr}
    {step : Instr} (h : increment? name ty value = some step) :
    ∃ attr op left right literal, ty = .int ∧
      value.skipParens = .binary attr op left right ∧
      (op = .add ∨ op = .sub) ∧
      (left.reads name = true ∧ right.literal? = some literal ∧
          step = .binary op (.var name .int) (.int literal) .int ∨
        right.reads name = true ∧ left.literal? = some literal ∧
          step = .binary op (.int literal) (.var name .int) .int) := by
  rw [increment?] at h
  split at h
  · contradiction
  next isInt =>
    have isInt : ty = .int := by simpa using isInt
    split at h
    next attr op left right form =>
      split at h
      · contradiction
      next additive =>
        have additive : op = .add ∨ op = .sub :=
          Decidable.byContradiction fun other => additive (not_or.mp other)
        split at h
        next isRead =>
          obtain ⟨literal, known, rfl⟩ := Option.map_eq_some_iff.mp h
          exact ⟨attr, op, left, right, literal, isInt, form, additive,
            .inl ⟨isRead, known, rfl⟩⟩
        next =>
          split at h
          next isRead =>
            obtain ⟨literal, known, rfl⟩ := Option.map_eq_some_iff.mp h
            exact ⟨attr, op, left, right, literal, isInt, form, additive,
              .inr ⟨isRead.2, known, rfl⟩⟩
          next => contradiction
    next => contradiction

theorem assignVar_eq_ok {name : String} {ty : Ty} {value : Tree.Expr}
    (h : assignVar scope name ty value supply = .ok code after) :
    (∃ step, increment? name ty value = some step ∧
      code = [.instr (.store (.var name ty) step)] ∧ after = supply) ∨
    (∃ op valueCode,
      value.lower scope (.assigned ty) supply =
        .ok ⟨some op, valueCode⟩ after ∧
      code = valueCode ++ [.instr (.store (.var name ty) (.single op))]) := by
  rw [assignVar] at h
  cases hstep : increment? name ty value with
  | some step =>
      rw [hstep] at h
      obtain ⟨rfl, rfl⟩ := Action.pure_eq_ok.mp h
      exact .inl ⟨step, rfl, rfl, rfl⟩
  | none =>
      rw [hstep] at h
      obtain ⟨op, valueCode, mid, hvalue, h⟩ := operand_bind_eq_ok.mp h
      obtain ⟨rfl, rfl⟩ := Action.pure_eq_ok.mp h
      exact .inr ⟨op, valueCode, hvalue, rfl⟩

theorem assignField_eq_ok {symbol : Symbol} {value : Tree.Expr}
    (h : assignField scope symbol value supply = .ok code after) :
    ∃ op valueCode,
      value.lower scope (.assigned symbol.ty.valueTy) supply =
        .ok ⟨some op, valueCode⟩ after ∧
      code = valueCode ++ [.instr (.putField (.self scope.className)
        (fieldRef scope symbol) op)] := by
  obtain ⟨op, valueCode, mid, hvalue, h⟩ := operand_bind_eq_ok.mp h
  obtain ⟨rfl, rfl⟩ := Action.pure_eq_ok.mp h
  exact ⟨op, valueCode, hvalue, rfl⟩

theorem assignElement_eq_ok {array position value : Tree.Expr}
    (h : assignElement scope array position value supply = .ok code after) :
    ∃ name ty arrayCode first place placeCode second op valueCode,
      array.lower scope .operand supply =
        .ok ⟨some (.var name ty), arrayCode⟩ first ∧
      position.lower scope .operand first =
        .ok ⟨some place, placeCode⟩ second ∧
      value.lower scope (.assigned .int) second =
        .ok ⟨some op, valueCode⟩ after ∧
      code = arrayCode ++ placeCode ++ valueCode ++
        [.instr (.store (.element name place) (.single op))] := by
  obtain ⟨⟨operand, arrayCode⟩, first, harray, h⟩ := Action.bind_eq_ok.mp h
  obtain ⟨name, mid, hname, h⟩ := Action.bind_eq_ok.mp h
  obtain ⟨⟨ty, rfl⟩, rfl⟩ := arrayName_eq_ok hname
  obtain ⟨⟨place, placeCode⟩, second, hposition, h⟩ :=
    Action.bind_eq_ok.mp h
  obtain ⟨op, valueCode, third, hvalue, h⟩ := operand_bind_eq_ok.mp h
  obtain ⟨rfl, rfl⟩ := Action.pure_eq_ok.mp h
  exact ⟨name, ty, arrayCode, first, place, placeCode, second, op, valueCode,
    Tree.Expr.lowerOperand_eq_ok harray,
    Tree.Expr.lowerOperand_eq_ok hposition, hvalue, rfl⟩

theorem assign_eq_ok {target value : Tree.Expr}
    (h : assign scope target value supply = .ok code after) :
    (∃ attr name symbol, target.skipParens = .var attr name ∧
      (scope.resolve name = .localVar symbol ∨
        scope.resolve name = .param symbol) ∧
      assignVar scope name symbol.ty.valueTy value supply =
        .ok code after) ∨
    (∃ attr name symbol, target.skipParens = .var attr name ∧
      scope.resolve name = .field symbol ∧
      assignField scope symbol value supply = .ok code after) ∨
    (∃ attr array position, target.skipParens = .index attr array position ∧
      assignElement scope array position value supply = .ok code after) := by
  rw [assign] at h
  cases hform : target.skipParens with
  | var attr name =>
      rw [hform] at h
      cases origin : scope.resolve name with
      | localVar symbol =>
          simp only [origin] at h
          exact .inl ⟨attr, name, symbol, rfl, .inl origin, h⟩
      | param symbol =>
          simp only [origin] at h
          exact .inl ⟨attr, name, symbol, rfl, .inr origin, h⟩
      | field symbol =>
          simp only [origin] at h
          exact .inr (.inl ⟨attr, name, symbol, rfl, origin, h⟩)
      | _ =>
          simp only [origin] at h
          exact absurd h Action.throw_ne_ok
  | index attr array position =>
      rw [hform] at h
      exact .inr (.inr ⟨attr, array, position, rfl, h⟩)
  | _ =>
      rw [hform] at h
      exact absurd h Action.throw_ne_ok

theorem ret_some_eq_ok {value : Tree.Expr}
    (h : ret scope (some value) supply = .ok code after) :
    ∃ op valueCode,
      value.lower scope (.returned scope.returnTy.valueTy) supply =
        .ok ⟨some op, valueCode⟩ after ∧
      code = valueCode ++
        [.instr (.ret scope.returnTy.valueTy (some op))] := by
  obtain ⟨op, valueCode, mid, hvalue, h⟩ := operand_bind_eq_ok.mp h
  obtain ⟨rfl, rfl⟩ := Action.pure_eq_ok.mp h
  exact ⟨op, valueCode, hvalue, rfl⟩

theorem ret_none_eq_ok (h : ret scope none supply = .ok code after) :
    code = [.instr (.ret .void none)] ∧ after = supply := by
  obtain ⟨rfl, rfl⟩ := Action.pure_eq_ok.mp h
  exact ⟨rfl, rfl⟩

end Lowering

/-! ## Compound statements -/

namespace Tree.Stmt

open Lowering

variable {scope : Scope} {supply after : Supply} {code : List Fragment}
  {span : Span}

theorem lower_expr_eq_ok {value : Expr}
    (h : (Stmt.expr span value).lower scope supply = .ok code after) :
    ∃ lowered, value.lower scope .discarded supply = .ok lowered after ∧
      code = lowered.code := by
  rw [Stmt.lower] at h
  obtain ⟨lowered, mid, hvalue, h⟩ := Action.bind_eq_ok.mp h
  obtain ⟨rfl, rfl⟩ := Action.pure_eq_ok.mp h
  exact ⟨lowered, hvalue, rfl⟩

theorem lower_ifThen_eq_ok {cond : Expr} {onTrue : Stmt}
    (h : (Stmt.ifThen span cond onTrue).lower scope supply =
      .ok code after) :
    ∃ op condCode first thenLabel second endLabel third trueCode,
      cond.lower scope .operand supply = .ok ⟨some op, condCode⟩ first ∧
      Lower.label "then" first = .ok thenLabel second ∧
      Lower.label "endif" second = .ok endLabel third ∧
      onTrue.lower scope third = .ok trueCode after ∧
      code = thenGoto endLabel (condCode ++ [.instr (.branch op thenLabel)])
        ++ .label thenLabel :: trueCode ++ [.label endLabel] := by
  rw [Stmt.lower] at h
  obtain ⟨⟨op, condCode⟩, first, hcond, h⟩ := Action.bind_eq_ok.mp h
  obtain ⟨thenLabel, second, hthen, h⟩ := Action.bind_eq_ok.mp h
  obtain ⟨endLabel, third, hend, h⟩ := Action.bind_eq_ok.mp h
  obtain ⟨trueCode, fourth, htrue, h⟩ := Action.bind_eq_ok.mp h
  obtain ⟨rfl, rfl⟩ := Action.pure_eq_ok.mp h
  exact ⟨op, condCode, first, thenLabel, second, endLabel, third, trueCode,
    Expr.lowerOperand_eq_ok hcond, hthen, hend, htrue, rfl⟩

theorem lower_ifElse_eq_ok {cond : Expr} {onTrue onFalse : Stmt}
    (h : (Stmt.ifElse span cond onTrue onFalse).lower scope supply =
      .ok code after) :
    ∃ op condCode first thenLabel second endLabel third falseCode fourth
        trueCode,
      cond.lower scope .operand supply = .ok ⟨some op, condCode⟩ first ∧
      Lower.label "then" first = .ok thenLabel second ∧
      Lower.label "endif" second = .ok endLabel third ∧
      onFalse.lower scope third = .ok falseCode fourth ∧
      onTrue.lower scope fourth = .ok trueCode after ∧
      code = thenGoto endLabel
          (condCode ++ .instr (.branch op thenLabel) :: falseCode)
        ++ .label thenLabel :: trueCode ++ [.label endLabel] := by
  rw [Stmt.lower] at h
  obtain ⟨⟨op, condCode⟩, first, hcond, h⟩ := Action.bind_eq_ok.mp h
  obtain ⟨thenLabel, second, hthen, h⟩ := Action.bind_eq_ok.mp h
  obtain ⟨endLabel, third, hend, h⟩ := Action.bind_eq_ok.mp h
  obtain ⟨falseCode, fourth, hfalse, h⟩ := Action.bind_eq_ok.mp h
  obtain ⟨trueCode, fifth, htrue, h⟩ := Action.bind_eq_ok.mp h
  obtain ⟨rfl, rfl⟩ := Action.pure_eq_ok.mp h
  exact ⟨op, condCode, first, thenLabel, second, endLabel, third, falseCode,
    fourth, trueCode, Expr.lowerOperand_eq_ok hcond, hthen, hend, hfalse,
    htrue, rfl⟩

theorem lower_loop_eq_ok {cond : Expr} {body : Stmt}
    (h : (Stmt.loop span cond body).lower scope supply = .ok code after) :
    ∃ condLabel first bodyLabel second endLabel third op condCode fourth
        bodyCode,
      Lower.label "whileCond" supply = .ok condLabel first ∧
      Lower.label "whileBody" first = .ok bodyLabel second ∧
      Lower.label "whileEnd" second = .ok endLabel third ∧
      cond.lower scope .operand third = .ok ⟨some op, condCode⟩ fourth ∧
      body.lower scope fourth = .ok bodyCode after ∧
      code = thenGoto condLabel
          (.label condLabel :: condCode ++
            [.instr (.branch op bodyLabel), .instr (.goto endLabel),
              .label bodyLabel] ++ bodyCode)
        ++ [.label endLabel] := by
  rw [Stmt.lower] at h
  obtain ⟨condLabel, first, hcondLabel, h⟩ := Action.bind_eq_ok.mp h
  obtain ⟨bodyLabel, second, hbodyLabel, h⟩ := Action.bind_eq_ok.mp h
  obtain ⟨endLabel, third, hendLabel, h⟩ := Action.bind_eq_ok.mp h
  obtain ⟨⟨op, condCode⟩, fourth, hcond, h⟩ := Action.bind_eq_ok.mp h
  obtain ⟨bodyCode, fifth, hbody, h⟩ := Action.bind_eq_ok.mp h
  obtain ⟨rfl, rfl⟩ := Action.pure_eq_ok.mp h
  exact ⟨condLabel, first, bodyLabel, second, endLabel, third, op, condCode,
    fourth, bodyCode, hcondLabel, hbodyLabel, hendLabel,
    Expr.lowerOperand_eq_ok hcond, hbody, rfl⟩

theorem lowerAll_cons_eq_ok {stmt : Stmt} {rest : List Stmt}
    (h : lowerAll scope (stmt :: rest) supply = .ok code after) :
    ∃ stmtCode mid restCode,
      stmt.lower scope supply = .ok stmtCode mid ∧
      lowerAll scope rest mid = .ok restCode after ∧
      code = stmtCode ++ restCode := by
  rw [lowerAll] at h
  obtain ⟨stmtCode, mid, hstmt, h⟩ := Action.bind_eq_ok.mp h
  obtain ⟨restCode, last, hrest, h⟩ := Action.bind_eq_ok.mp h
  obtain ⟨rfl, rfl⟩ := Action.pure_eq_ok.mp h
  exact ⟨stmtCode, mid, restCode, hstmt, hrest, rfl⟩

end Tree.Stmt

end JavaMinus
