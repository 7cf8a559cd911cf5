import JavaMinus.Proofs.Lowering.Induction
import JavaMinus.Proofs.Lowering.Labels

/-!
# Names drawn for lowered code

All labels of lowered code were drawn while it was lowered, each of them once.
The order in which they are drawn is not always that in which they stand.
-/

namespace JavaMinus

open Ir (Operand Instr Fragment)

namespace Lowering

variable {scope : Scope} {supply after : Supply} {lowered : Lowered}
  {code : List Fragment}

theorem labelNames_elementStores (array : String) (values : List Operand) :
    labelNames (elementStores array values) = [] := by
  simp [labelNames, elementStores, List.filterMap_map]

theorem targets_elementStores (array : String) (values : List Operand) :
    targets (elementStores array values) = [] := by
  rw [List.eq_nil_iff_forall_not_mem]
  intro name member
  obtain ⟨instr, member, target⟩ := mem_targets.mp member
  obtain ⟨_, _, isStore⟩ := List.mem_map.mp member
  cases isStore
  cases target

theorem packArray_draws {values : List Operand} {array : Operand}
    (h : packArray values supply = .ok (array, code) after) :
    Draws supply after code := by
  obtain ⟨name, drawn, _, rfl, rfl⟩ := packArray_eq_ok h
  exact .of_straight drawn.toExtends (labelNames_elementStores name values)
    (targets_elementStores name values)

theorem packVarargs_draws {callee : Option Signature}
    {args passed : List Operand}
    (h : packVarargs callee args supply = .ok (passed, code) after) :
    Draws supply after code := by
  rcases packVarargs_eq_ok h with
    ⟨_, rfl, rfl, rfl⟩ | ⟨fixed, array, _, hpack, rfl⟩
  · exact .nil _
  · exact packArray_draws hpack

theorem intoTemp_draws {before : Supply} {ty : Ty} {value : Instr}
    (h : intoTemp ty code value supply = .ok lowered after)
    (draws : Draws before supply code) :
    Draws before after lowered.code := by
  obtain ⟨name, drawn, rfl⟩ := intoTemp_eq_ok h
  exact draws.andStraight drawn.toExtends rfl rfl

theorem finishCall_draws {before : Supply} {dest : Destination}
    {call : Ir.Call}
    (h : finishCall call code dest supply = .ok lowered after)
    (draws : Draws before supply code) :
    Draws before after lowered.code := by
  cases dest with
  | discarded =>
      obtain ⟨rfl, rfl⟩ := Action.pure_eq_ok.mp h
      exact draws.andStraight (.refl supply) rfl rfl
  | assigned ty => exact intoTemp_draws h draws
  | returned ty => exact intoTemp_draws h draws
  | operand => exact intoTemp_draws h draws

theorem finishElement_draws {before : Supply} {dest : Destination}
    {element : Operand}
    (h : finishElement element code dest supply = .ok lowered after)
    (draws : Draws before supply code) :
    Draws before after lowered.code := by
  cases dest with
  | discarded => exact intoTemp_draws h draws
  | operand => exact intoTemp_draws h draws
  | assigned ty =>
      obtain ⟨rfl, rfl⟩ := Action.pure_eq_ok.mp h
      exact draws
  | returned ty =>
      obtain ⟨rfl, rfl⟩ := Action.pure_eq_ok.mp h
      exact draws

theorem and_draws {before first second third fourth : Supply}
    (leftOp rightOp : Operand) {leftCode rightCode : List Fragment}
    {name rightLabel endLabel : String}
    (onLeft : Draws before first leftCode) (drawn : first.Drawn second name)
    (hright : Lower.label "andRight" second = .ok rightLabel third)
    (hend : Lower.label "andEnd" third = .ok endLabel fourth)
    (onRight : Draws fourth after rightCode) :
    Draws before after
      (leftCode ++
        [.instr (.branch leftOp rightLabel),
          .instr (.store (.var name .boolean) (.single (.bool false))),
          .instr (.goto endLabel),
          .label rightLabel] ++
        rightCode ++
        [.instr (.store (.var name .boolean) (.single rightOp)),
          .label endLabel]) := by
  have inOrder := (((onLeft.extend drawn.toExtends).append
    (Lower.labelled_of_label hright (by decide))).append
    (Lower.labelled_of_label hend (by decide))).append onRight
  refine inOrder.of_perm (List.perm_iff_count.mpr fun name => ?_)
    fun name target => ?_
  · simp only [labelNames_append, labelNames_instr, labelNames_label,
      labelNames_nil, List.count_append, List.count_cons, List.count_nil]
    omega
  · simp only [targets_append, targets_instr, targets_label, targets_nil,
      labelNames_append, labelNames_label, labelNames_nil, List.mem_append,
      Instr.target?, Instr.store, Option.mem_toList] at target ⊢
    grind

theorem conditional_draws {before first second third fourth : Supply}
    (op : Operand) {condCode falseCode trueCode : List Fragment}
    {thenLabel endLabel : String} (onCond : Draws before first condCode)
    (hthen : Lower.label "then" first = .ok thenLabel second)
    (hend : Lower.label "endif" second = .ok endLabel third)
    (onFalse : Draws third fourth falseCode)
    (onTrue : Draws fourth after trueCode) :
    Draws before after
      (thenGoto endLabel
        (condCode ++ .instr (.branch op thenLabel) :: falseCode) ++
        .label thenLabel :: trueCode ++ [.label endLabel]) := by
  have inOrder := (((onCond.append
    (Lower.labelled_of_label hthen (by decide))).append
    (Lower.labelled_of_label hend (by decide))).append onFalse).append onTrue
  refine inOrder.of_perm (List.perm_iff_count.mpr fun name => ?_)
    fun name target => ?_
  · simp only [labelNames_append, labelNames_thenGoto, labelNames_instr,
      labelNames_label, labelNames_nil, List.count_append, List.count_cons,
      List.count_nil]
    omega
  · simp only [targets_append, mem_targets_thenGoto, targets_instr,
      targets_label, targets_nil, labelNames_append, labelNames_label,
      labelNames_nil, List.mem_append, Instr.target?,
      Option.mem_toList] at target ⊢
    grind

theorem loop_draws {before first second third fourth : Supply}
    (op : Operand) {condCode bodyCode : List Fragment}
    {condLabel bodyLabel endLabel : String}
    (hcond : Lower.label "whileCond" before = .ok condLabel first)
    (hbody : Lower.label "whileBody" first = .ok bodyLabel second)
    (hend : Lower.label "whileEnd" second = .ok endLabel third)
    (onCond : Draws third fourth condCode)
    (onBody : Draws fourth after bodyCode) :
    Draws before after
      (thenGoto condLabel
        (.label condLabel :: condCode ++
          [.instr (.branch op bodyLabel), .instr (.goto endLabel),
            .label bodyLabel] ++ bodyCode) ++ [.label endLabel]) := by
  have inOrder := ((((Lower.labelled_of_label hcond (by decide)).append
    (Lower.labelled_of_label hbody (by decide))).append
    (Lower.labelled_of_label hend (by decide))).append onCond).append onBody
  refine inOrder.of_perm (List.perm_iff_count.mpr fun name => ?_)
    fun name target => ?_
  · simp only [labelNames_append, labelNames_thenGoto, labelNames_instr,
      labelNames_label, labelNames_nil, List.count_append, List.count_cons,
      List.count_nil]
    omega
  · simp only [targets_append, mem_targets_thenGoto, targets_instr,
      targets_label, targets_nil, labelNames_append, labelNames_label,
      labelNames_nil, List.mem_append, Instr.target?,
      Option.mem_toList] at target ⊢
    grind

end Lowering

open Lowering

/-! ## Expressions -/

namespace Tree.Expr

variable {scope : Scope} {supply after : Supply} {code : List Fragment}

theorem lower_draws {expr : Expr} {dest : Destination} {lowered : Lowered}
    (h : expr.lower scope dest supply = .ok lowered after) :
    Draws supply after lowered.code := by
  induction h using lower_induction
    (fun _ supply _ code after => Draws supply after code) with
  | nil => exact .nil _
  | cons _ _ onFirst onRest => exact onFirst.append onRest
  | int | bool | self | readVar | readEnclosing | readClass => exact .nil _
  | readField _ drawn | newObject drawn =>
      exact .of_straight drawn.toExtends rfl rfl
  | paren _ ih => exact ih
  | and _ drawn hright hend _ ihLeft ihRight =>
      exact and_draws _ _ ihLeft drawn hright hend ihRight
  | binary _ _ _ _ drawn ihLeft ihRight =>
      exact (ihLeft.append ihRight).andStraight drawn.toExtends rfl rfl
  | not _ drawn ih | newArray _ drawn ih | length _ drawn ih =>
      exact ih.andStraight drawn.toExtends rfl rfl
  | call receives _ hpack hfinish ihReceiver ihArgs =>
      refine finishCall_draws hfinish
        (.append (.append ?_ ihArgs) (packVarargs_draws hpack))
      rcases receives with ⟨_, rfl, rfl⟩ | ⟨_, _, hreceiver⟩
      · exact .nil _
      · exact ihReceiver hreceiver
  | arrayLiteral _ hpack ih => exact ih.append (packArray_draws hpack)
  | index _ _ hfinish ihArray ihPosition =>
      exact finishElement_draws hfinish (ihArray.append ihPosition)

theorem receives_draws {receiver : Expr} {kind : Ir.CallKind}
    {target : Operand}
    (h : Receives scope receiver kind target code supply after) :
    Draws supply after code := by
  rcases h with ⟨_, rfl, rfl⟩ | ⟨_, _, hreceiver⟩
  · exact .nil _
  · exact lower_draws hreceiver

theorem lowerAll_draws {exprs : List Expr} {operands : List Operand}
    (h : lowerAll scope exprs supply = .ok (operands, code) after) :
    Draws supply after code := by
  induction h using lowerAll_induction with
  | nil => exact .nil _
  | cons hfirst _ ih => exact (lower_draws hfirst).append ih

end Tree.Expr

/-! ## Statements -/

namespace Tree.Stmt

variable {scope : Scope} {supply after : Supply} {code : List Fragment}

theorem lower_draws {stmt : Stmt}
    (h : stmt.lower scope supply = .ok code after) :
    Draws supply after code := by
  induction h using lower_induction with
  | nil => exact .nil _
  | cons _ _ onFirst onRest => exact onFirst.append onRest
  | increment | retVoid => exact .of_straight (.refl _) rfl rfl
  | assignVar _ _ hvalue | assignField _ _ hvalue | ret hvalue =>
      exact (Expr.lower_draws hvalue).andStraight (.refl _) rfl rfl
  | assignElement _ harray hposition hvalue =>
      exact (((Expr.lower_draws harray).append
        (Expr.lower_draws hposition)).append
        (Expr.lower_draws hvalue)).andStraight (.refl _) rfl rfl
  | expr hvalue => exact Expr.lower_draws hvalue
  | ifThen hcond hthen hend _ ih =>
      exact conditional_draws _ (Expr.lower_draws hcond) hthen hend (.nil _)
        ih
  | ifElse hcond hthen hend _ _ ihFalse ihTrue =>
      exact conditional_draws _ (Expr.lower_draws hcond) hthen hend ihFalse
        ihTrue
  | loop hcondLabel hbodyLabel hendLabel hcond _ ih =>
      exact loop_draws _ hcondLabel hbodyLabel hendLabel
        (Expr.lower_draws hcond) ih

theorem lowerAll_draws {stmts : List Stmt}
    (h : lowerAll scope stmts supply = .ok code after) :
    Draws supply after code :=
  lower_draws (lower_of_lowerAll h)

end Tree.Stmt

end JavaMinus
