import JavaMinus.Proofs.Lowering.Kinds

/-!
# Lowering well-typed programs

The code of well-typed expressions and statements is typed.  What type lowering
gives to a temporary depends on where a value comes from and on where it goes,
and in a well-typed program both are of one kind.
-/

namespace JavaMinus

open Ir (Operand Instr CallKind Fragment)
open Lowering

/-! ## Expressions -/

namespace Tree.Expr

variable {scope : Scope} {linkage : Jvm.Linkage} {supply after : Supply}

theorem readField_supplies {symbol : Symbol} {temp : String}
    (isInstance : scope.isStatic = false) (drawn : supply.Drawn after temp) :
    scope.Supplies supply after fun has =>
      TypedResult has linkage scope.returnTy
        ⟨some (.var temp symbol.ty.valueTy),
          [.instr (.store (.var temp symbol.ty.valueTy)
            (.getField (.self scope.className) (fieldRef scope symbol)))]⟩
        symbol.ty.valueTy.kind := by
  refine (Scope.Supplies.drawn drawn symbol.ty.valueTy.kind).imp
    fun has known isNamed => ?_
  simp only [typedResult_some, typedCode_instr, typedCode_nil, and_true]
  exact ⟨.assign _ isNamed (.getField _ (hasKind_self known isInstance _)),
    .var isNamed⟩

theorem receives_supplies {receiver : Expr} {kind : CallKind}
    {target : Operand} {code : List Fragment}
    (h : Receives scope receiver kind target code supply after)
    (typed : (receiver.namesClass scope || receiver.isTyped scope &&
      (scope.typeOf receiver).className?.isSome) = true)
    (onValue : receiver.lower scope .operand supply =
        .ok ⟨some target, code⟩ after → receiver.isTyped scope = true →
      (scope.typeOf receiver).isVoid = false →
      scope.Supplies supply after fun has =>
        TypedResult has linkage scope.returnTy ⟨some target, code⟩
          (scope.typeOf receiver).kind) :
    scope.Supplies supply after fun has =>
      TypedCode has linkage scope.returnTy code ∧
        (kind ≠ .static → target.HasKind has .reference) := by
  cases named : receiver.namesClass scope with
  | true =>
      obtain ⟨other, isStatic⟩ := directReceiver?_static named
      rcases h with ⟨direct, rfl, rfl⟩ | ⟨notDirect, _⟩
      · rw [isStatic] at direct
        cases direct
        exact .of_extends (.refl _) fun has known => by simp
      · simp [isStatic] at notDirect
  | false =>
      rw [named, Bool.false_or, Bool.and_eq_true] at typed
      rcases h with ⟨direct, rfl, rfl⟩ | ⟨_, rfl, hreceiver⟩
      · exact .of_extends (.refl _) fun has known => ⟨typedCode_nil, fun _ =>
          directReceiver?_hasKind known direct typed.1 typed.2⟩
      · have isReference := Ty.kind_of_className? typed.2
        have hasValue : (scope.typeOf receiver).isVoid = false := by
          cases ty : scope.typeOf receiver <;>
            simp [ty, Ty.className?, Ty.isVoid] at typed ⊢
        refine (onValue hreceiver typed.1 hasValue).imp
          fun has known result => ?_
        rw [typedResult_some, isReference] at result
        exact ⟨result.1, fun _ => result.2⟩

theorem call_supplies (serves : Serves linkage scope) {attr : Attr}
    {receiver : Expr} {method : String} {args : List Expr}
    {dest : Destination} {kind : CallKind} {target : Operand}
    {targetCode argCode packCode : List Fragment}
    {first second third : Supply} {operands passed : List Operand}
    {lowered : Lowered}
    (receives : Receives scope receiver kind target targetCode supply first)
    (hargs : lowerAll scope args first = .ok (operands, argCode) second)
    (hpack : packVarargs (callee? scope kind target method) operands second =
      .ok (passed, packCode) third)
    (hfinish : finishCall
      { kind, target, method := some method, args := passed
        returnTy := callTy (callee? scope kind target method) attr.ty dest }
      (targetCode ++ argCode ++ packCode) dest third = .ok lowered after)
    (permitted : scope.permits receiver method attr.ty
      (args.map scope.typeOf) = true)
    (takes : dest.Takes attr.ty.valueTy)
    (onReceiver : scope.Supplies supply first fun has =>
      TypedCode has linkage scope.returnTy targetCode ∧
        (kind ≠ .static → target.HasKind has .reference))
    (onArgs : scope.Supplies first second fun has =>
      TypedCode has linkage scope.returnTy argCode ∧
        ∀ operand ∈ operands, operand.HasKind has operand.ty.kind) :
    scope.Supplies supply after fun has =>
      TypedResult has linkage scope.returnTy lowered
        attr.ty.valueTy.kind := by
  -- Lowering looks up the same method that the types were checked against.
  obtain ⟨invokes, callee⟩ := receives_callee? receives method
  rw [Scope.permits, ← callee] at permitted
  have declared : ∀ signature, callee? scope kind target method =
      some signature → attr.ty.agrees signature.returnTy = true ∧
        signature.accepts (operands.map Operand.ty) = true := by
    intro signature isCallee
    rw [lowerAll_typeOf hargs]
    simpa [isCallee] using permitted
  have parts := (onReceiver.and onArgs).and
    (packVarargs_supplies linkage hpack fun signature isCallee =>
      (declared signature isCallee).2)
  refine finishCall_supplies hfinish parts ?_ (callTy_wanted takes)
  rintro has known ⟨⟨⟨onTarget, isReceiver⟩, onArgs, areOf⟩, packs⟩
  obtain ⟨onPacked, unknown, passes⟩ := packs areOf
  refine ⟨?_, ?_⟩
  · simp [onTarget, onArgs, onPacked]
  · refine passes_of_callee serves rfl invokes isReceiver unknown
      fun signature isCallee => ⟨passes signature isCallee, ?_⟩
    exact callTy_declared takes isCallee (declared signature isCallee).1

theorem and_supplies {first second third fourth : Supply}
    {leftOp rightOp : Operand} {leftCode rightCode : List Fragment}
    {name rightLabel endLabel : String}
    (onLeft : scope.Supplies supply first fun has =>
      TypedResult has linkage scope.returnTy ⟨some leftOp, leftCode⟩ .int)
    (drawn : first.Drawn second name)
    (hright : Lower.label "andRight" second = .ok rightLabel third)
    (hend : Lower.label "andEnd" third = .ok endLabel fourth)
    (onRight : scope.Supplies fourth after fun has =>
      TypedResult has linkage scope.returnTy ⟨some rightOp, rightCode⟩ .int) :
    scope.Supplies supply after fun has =>
      TypedResult has linkage scope.returnTy
        ⟨some (.var name .boolean),
          leftCode ++
            [.instr (.branch leftOp rightLabel),
              .instr (.store (.var name .boolean) (.single (.bool false))),
              .instr (.goto endLabel),
              .label rightLabel] ++
            rightCode ++
            [.instr (.store (.var name .boolean) (.single rightOp)),
              .label endLabel]⟩ .int := by
  have labels : scope.Supplies second fourth _ :=
    (Scope.Supplies.label hright (by decide)).and (.label hend (by decide))
  refine (((onLeft.and (.drawn drawn .int)).and labels).and onRight).imp ?_
  rintro has known ⟨⟨⟨onLeft, isNamed⟩, _⟩, onRight⟩
  rw [typedResult_some] at onLeft onRight
  -- The result is stored on both ways, each time as a truth value.
  have branch : Jvm.Typed has linkage scope.returnTy
      (.branch leftOp rightLabel) := .branch _ onLeft.2
  have stores {value : Operand} (isInt : value.HasKind has .int) :
      Jvm.Typed has linkage scope.returnTy
        (.store (.var name .boolean) (.single value)) :=
    .assign .boolean isNamed (.single isInt)
  simp only [typedResult_some, typedCode_append, typedCode_instr,
    typedCode_label, typedCode_nil, and_true]
  exact ⟨⟨⟨⟨onLeft.1, branch, stores (.literal _ _), .goto _⟩, onRight.1⟩,
    stores onRight.2⟩, .var isNamed⟩

theorem newObject_supplies (serves : Serves linkage scope)
    {className name : String} (drawn : supply.Drawn after name) :
    scope.Supplies supply after fun has =>
      TypedResult has linkage scope.returnTy
        ⟨some (.var name (.object className)),
          [.instr (.store (.var name (.object className))
              (.call {
                kind := .new
                target := .var className (.object className)
                returnTy := .object className })),
            .instr (.call {
              kind := .special
              target := .var name (.object className)
              method := some "<init>"
              returnTy := .void })]⟩ .reference := by
  refine (Scope.Supplies.drawn drawn .reference).imp fun has known isNamed => ?_
  simp only [typedResult_some, typedCode_instr, typedCode_nil, and_true]
  refine ⟨⟨.assign _ isNamed (.new rfl (by simp)), .call ?_⟩,
    .var isNamed⟩
  exact (passes_of_callee serves rfl (.inl rfl) (fun _ => .var isNamed)
    (by simp) (by simp [callee?])).1

theorem arrayLiteral_supplies {elements : List Expr} {mid : Supply}
    {operands : List Operand} {array : Operand}
    {code packCode : List Fragment}
    (helements : lowerAll scope elements supply = .ok (operands, code) mid)
    (hpack : packArray operands mid = .ok (array, packCode) after)
    (areInts : ∀ ty ∈ elements.map scope.typeOf, ty = .int)
    (onElements : scope.Supplies supply mid fun has =>
      TypedCode has linkage scope.returnTy code ∧
        ∀ operand ∈ operands, operand.HasKind has operand.ty.kind) :
    scope.Supplies supply after fun has =>
      TypedResult has linkage scope.returnTy ⟨some array, code ++ packCode⟩
        .reference := by
  refine (onElements.and (packArray_supplies linkage hpack)).imp ?_
  rintro has known ⟨⟨typedElements, areOf⟩, packs⟩
  have areInts : ∀ operand ∈ operands, operand.HasKind has .int := by
    intro operand member
    have isInt : operand.ty = .int := by
      refine areInts operand.ty ?_
      rw [← lowerAll_typeOf helements]
      exact List.mem_map_of_mem member
    have isOf := areOf operand member
    rwa [isInt] at isOf
  obtain ⟨typedPack, isArray⟩ := packs areInts
  exact typedResult_some.mpr
    ⟨typedCode_append.mpr ⟨typedElements, typedPack⟩, isArray⟩

theorem lower_supplies (serves : Serves linkage scope) {expr : Expr}
    {dest : Destination} {lowered : Lowered}
    (h : expr.lower scope dest supply = .ok lowered after)
    (typed : expr.isTyped scope = true)
    (takes : dest.Takes (scope.typeOf expr)) :
    scope.Supplies supply after fun has =>
      TypedResult has linkage scope.returnTy lowered
        (scope.typeOf expr).kind := by
  induction h using lower_induction (fun exprs supply operands code after =>
    areTyped scope exprs = true →
    (∀ ty ∈ exprs.map scope.typeOf, ty.isVoid = false) →
    scope.Supplies supply after fun has =>
      TypedCode has linkage scope.returnTy code ∧
        ∀ operand ∈ operands, operand.HasKind has operand.ty.kind) with
  | nil => exact .of_extends (.refl _) fun has known => by simp
  | cons first _ ihFirst ihRest typed haveValues =>
      rw [areTyped, Bool.and_eq_true] at typed
      rw [List.map_cons, List.forall_mem_cons] at haveValues
      refine ((ihFirst typed.1 haveValues.1).and
        (ihRest typed.2 haveValues.2)).imp ?_
      rintro has known ⟨onFirst, typedRest, onRest⟩
      rw [typedResult_some] at onFirst
      refine ⟨typedCode_append.mpr ⟨onFirst.1, typedRest⟩, ?_⟩
      rintro operand (_ | ⟨_, member⟩)
      · rw [lower_typeOf first]
        exact onFirst.2
      · exact onRest operand member
  | int | bool =>
      refine .of_extends (.refl _) fun has known => ?_
      exact typedResult_some.mpr ⟨typedCode_nil, .literal _ _⟩
  | self =>
      refine .of_extends (.refl _) fun has known => ?_
      refine typedResult_some.mpr ⟨typedCode_nil, hasKind_self known ?_ _⟩
      simpa [isTyped] using typed
  | readVar origin =>
      refine .of_extends (.refl _) fun has known => ?_
      have isNamed := named_variable known origin
      rcases origin with origin | origin <;>
      · simp only [Scope.typeOf, origin]
        exact typedResult_some.mpr ⟨typedCode_nil, .var isNamed⟩
  | readField origin drawn =>
      simp only [isTyped, Scope.isReadable, origin, Bool.not_eq_true']
        at typed
      simp only [Scope.typeOf, origin]
      exact readField_supplies typed drawn
  | readEnclosing origin =>
      simp only [isTyped, Scope.isReadable, origin, Bool.not_eq_true']
        at typed
      simp only [Scope.typeOf, origin]
      refine .of_extends (.refl _) fun has known => ?_
      exact typedResult_some.mpr
        ⟨typedCode_nil, hasKind_self known typed _⟩
  | readClass origin =>
      rcases origin with origin | ⟨path, origin⟩ <;>
        simp [isTyped, Scope.isReadable, origin] at typed
  | paren _ ih =>
      rw [isTyped] at typed
      exact ih typed takes
  | and _ drawn hright hend _ ihLeft ihRight =>
      simp only [isTyped, Bool.and_eq_true] at typed
      obtain ⟨⟨⟨typedLeft, typedRight⟩, _⟩, operands⟩ := typed
      obtain ⟨⟨leftValue, leftInt⟩, rightValue, rightInt⟩ :=
        Operator.ints_of_takes operands
      have onLeft := ihLeft typedLeft leftValue
      have onRight := ihRight typedRight rightValue
      rw [leftInt] at onLeft
      rw [rightInt] at onRight
      exact and_supplies onLeft drawn hright hend onRight
  | binary strict _ _ _ drawn ihLeft ihRight =>
      simp only [isTyped, Bool.and_eq_true, decide_eq_true_eq] at typed
      obtain ⟨⟨⟨typedLeft, typedRight⟩, isResult⟩, operands⟩ := typed
      obtain ⟨⟨leftValue, leftInt⟩, rightValue, rightInt⟩ :=
        Operator.ints_of_takes operands
      simp only [Scope.typeOf, if_neg strict]
      refine store_supplies drawn ((ihLeft typedLeft leftValue).and
        (ihRight typedRight rightValue)) ?_
      rintro has known ⟨onLeft, onRight⟩
      rw [typedResult_some, leftInt] at onLeft
      rw [typedResult_some, rightInt] at onRight
      rw [isResult, Operator.kind_resultTy]
      exact ⟨typedCode_append.mpr ⟨onLeft.1, onRight.1⟩,
        .binary _ _ onLeft.2 onRight.2⟩
  | not _ drawn ih =>
      simp only [isTyped, Bool.and_eq_true, decide_eq_true_eq] at typed
      refine store_supplies drawn (ih typed.1 (by rw [typed.2]; rfl))
        fun has known result => ?_
      rw [typedResult_some, typed.2] at result
      exact ⟨result.1, .not _ result.2⟩
  | call receives hargs hpack hfinish ihReceiver ihArgs =>
      simp only [isTyped, Bool.and_eq_true, List.all_eq_true,
        Bool.not_eq_true'] at typed
      obtain ⟨⟨⟨onReceiver, areTyped⟩, haveValues⟩, permitted⟩ := typed
      exact call_supplies serves receives hargs hpack hfinish permitted takes
        (receives_supplies receives onReceiver ihReceiver)
        (ihArgs areTyped haveValues)
  | newObject drawn => exact newObject_supplies serves drawn
  | newArray _ drawn ih =>
      simp only [isTyped, Bool.and_eq_true, decide_eq_true_eq] at typed
      refine store_supplies drawn (ih typed.1 (by rw [typed.2]; rfl))
        fun has known result => ?_
      rw [typedResult_some, typed.2] at result
      refine ⟨result.1, .new rfl fun size member => ?_⟩
      rw [List.mem_singleton.mp member]
      exact result.2
  | arrayLiteral helements hpack ih =>
      simp only [isTyped, Bool.and_eq_true, List.all_eq_true,
        decide_eq_true_eq] at typed
      exact arrayLiteral_supplies helements hpack typed.2
        (ih typed.1 fun ty member => by rw [typed.2 ty member]; rfl)
  | index _ _ hfinish ihArray ihPosition =>
      simp only [isTyped, Bool.and_eq_true, decide_eq_true_eq] at typed
      obtain ⟨⟨⟨typedArray, typedPosition⟩, isArray⟩, isInt⟩ := typed
      have both := (ihArray typedArray (by rw [isArray]; rfl)).and
        (ihPosition typedPosition (by rw [isInt]; rfl))
      rw [isArray, isInt] at both
      refine finishElement_supplies hfinish both ?_
      rintro has known ⟨onArray, onPosition⟩
      rw [typedResult_some] at onArray onPosition
      exact ⟨typedCode_append.mpr ⟨onArray.1, onPosition.1⟩,
        .element onArray.2.named onPosition.2⟩
  | length _ drawn ih =>
      simp only [isTyped, Bool.and_eq_true] at typed
      obtain ⟨hasValue, isReference⟩ :=
        Ty.result?_eq_some.mp (Ty.result?_of_isArray typed.2)
      refine store_supplies drawn (ih typed.1 hasValue)
        fun has known result => ?_
      rw [typedResult_some, isReference] at result
      exact ⟨result.1, .length rfl result.2⟩

end Tree.Expr

/-! ## Statements -/

theorem Destination.Takes.of_result? {dest : Destination} {ty other : Ty}
    (h : dest.Takes ty) (same : other.result? = ty.result?) :
    dest.Takes other := by
  have sameVoid := Ty.isVoid_eq_of_result? same
  cases dest with
  | discarded => trivial
  | operand => exact sameVoid.trans h
  | assigned | returned => exact ⟨sameVoid.trans h.1, h.2.trans same.symm⟩

theorem Tree.Expr.yields_eq_true {scope : Scope} {expr : Tree.Expr} {ty : Ty}
    (h : expr.yields scope ty = true) :
    expr.isTyped scope = true ∧
      (scope.typeOf expr).result? = ty.result? ∧ ty.isVoid = false := by
  simp only [yields, Bool.and_eq_true, Bool.not_eq_true'] at h
  obtain ⟨⟨typed, agrees⟩, hasValue⟩ := h
  have same := Ty.result?_of_agrees agrees
  exact ⟨typed, same, Ty.isVoid_eq_of_result? same ▸ hasValue⟩

namespace Lowering

variable {scope : Scope} {linkage : Jvm.Linkage} {supply after : Supply}
  {code : List Fragment} {value : Tree.Expr}

theorem yields_supplies (serves : Serves linkage scope) {ty : Ty}
    {dest : Destination} {operand : Operand}
    (h : value.lower scope dest supply = .ok ⟨some operand, code⟩ after)
    (yields : value.yields scope ty = true) (takes : dest.Takes ty) :
    scope.Supplies supply after fun has =>
      TypedCode has linkage scope.returnTy code ∧
        operand.HasKind has ty.kind := by
  obtain ⟨typed, same, _⟩ := Tree.Expr.yields_eq_true yields
  refine (value.lower_supplies serves h typed (takes.of_result? same)).imp ?_
  intro has known result
  rwa [typedResult_some, Ty.kind_of_result? same] at result

theorem increment?_pushes {has : Naming} {name : String} {ty : Ty}
    {step : Instr} (h : increment? name ty value = some step)
    (isNamed : has name ty.kind) : Jvm.Pushes has linkage step ty.kind := by
  obtain ⟨_, op, _, _, literal, rfl, _, _, ⟨_, _, rfl⟩ | ⟨_, _, rfl⟩⟩ :=
    increment?_eq_some h
  · exact .binary op .int (.var isNamed) (.literal _ _)
  · exact .binary op .int (.literal _ _) (.var isNamed)

@[simp] theorem typedCode_thenGoto {has : Naming} {returnTy : Ty}
    {label : String} : TypedCode has linkage returnTy (thenGoto label code) ↔
      TypedCode has linkage returnTy code := by
  rw [thenGoto]
  split
  · simp [Jvm.Typed.goto]
  · rfl

end Lowering

namespace Tree.Stmt

variable {scope : Scope} {linkage : Jvm.Linkage} {supply after : Supply}
  {code : List Fragment}

theorem assign_variable_isTyped {span : Span} {target value : Expr}
    {attr : Attr} {name : String} {symbol : Symbol}
    (form : target.skipParens = .var attr name)
    (origin : scope.resolve name = .localVar symbol ∨
      scope.resolve name = .param symbol)
    (typed : (Stmt.assign span target value).isTyped scope = true) :
    value.yields scope symbol.ty.valueTy = true := by
  rw [isTyped, Bool.and_eq_true, ← Expr.typeOf_skipParens, form] at typed
  rcases origin with origin | origin <;>
    simpa [Scope.typeOf, origin] using typed.2

theorem lower_supplies (serves : Serves linkage scope) {stmt : Stmt}
    (h : stmt.lower scope supply = .ok code after)
    (typed : stmt.isTyped scope = true) :
    scope.Supplies supply after (TypedCode · linkage scope.returnTy code) := by
  induction h using lower_induction with
  | nil => exact .of_extends (.refl _) fun has known => typedCode_nil
  | cons _ _ ihFirst ihRest =>
      simp only [isTyped, areTyped, Bool.and_eq_true] at typed ihRest
      exact ((ihFirst typed.1).and (ihRest typed.2)).imp fun has known =>
        typedCode_append.mpr
  | increment form origin hstep =>
      refine .of_extends (.refl _) fun has known => ?_
      have isNamed := named_variable known origin
      simp only [typedCode_instr, typedCode_nil, and_true]
      exact .assign _ isNamed (increment?_pushes hstep isNamed)
  | assignVar form origin hvalue =>
      have yields := assign_variable_isTyped form origin typed
      have hasValue := (Expr.yields_eq_true yields).2.2
      refine (yields_supplies serves hvalue yields ⟨hasValue, rfl⟩).imp ?_
      rintro has known ⟨typed, isOf⟩
      simp only [typedCode_append, typedCode_instr, typedCode_nil, and_true]
      exact ⟨typed, .assign _ (named_variable known origin) (.single isOf)⟩
  | assignField form origin hvalue =>
      rw [isTyped, Bool.and_eq_true, ← Expr.isTyped_skipParens,
        ← Expr.typeOf_skipParens, form] at typed
      simp only [Expr.isTyped, Scope.isReadable, Scope.typeOf, origin,
        Bool.not_eq_true'] at typed
      obtain ⟨isInstance, yields⟩ := typed
      have hasValue := (Expr.yields_eq_true yields).2.2
      refine (yields_supplies serves hvalue yields ⟨hasValue, rfl⟩).imp ?_
      rintro has known ⟨typed, isOf⟩
      simp only [typedCode_append, typedCode_instr, typedCode_nil, and_true]
      exact ⟨typed, .putField _ (hasKind_self known isInstance _) isOf⟩
  | assignElement form harray hposition hvalue =>
      rw [isTyped, Bool.and_eq_true, ← Expr.isTyped_skipParens,
        ← Expr.typeOf_skipParens, form] at typed
      simp only [Expr.isTyped, Scope.typeOf, Bool.and_eq_true,
        decide_eq_true_eq] at typed
      obtain ⟨⟨⟨⟨typedArray, typedPosition⟩, isArray⟩, isInt⟩, yields⟩ := typed
      have onArray := Expr.lower_supplies serves harray typedArray
        (by rw [isArray]; rfl)
      have onPosition := Expr.lower_supplies serves hposition typedPosition
        (by rw [isInt]; rfl)
      have onValue := yields_supplies serves hvalue yields ⟨rfl, rfl⟩
      rw [isArray] at onArray
      rw [isInt] at onPosition
      refine ((onArray.and onPosition).and onValue).imp ?_
      rintro has known ⟨⟨onArray, onPosition⟩, typedValue, isOf⟩
      rw [typedResult_some] at onArray onPosition
      simp only [typedCode_append, typedCode_instr, typedCode_nil, and_true]
      exact ⟨⟨⟨onArray.1, onPosition.1⟩, typedValue⟩,
        .assignElement _ onArray.2.named onPosition.2 (.single isOf)⟩
  | expr hvalue =>
      rw [isTyped] at typed
      exact (Expr.lower_supplies serves hvalue typed trivial).imp
        fun has known result => result.1
  | retVoid =>
      rw [isTyped] at typed
      refine .of_extends (.refl _) fun has known => ?_
      simp only [typedCode_instr, typedCode_nil, and_true]
      exact .retVoid (Ty.isVoid_eq_true.mp typed)
  | ret hvalue =>
      rw [isTyped] at typed
      have hasValue := (Expr.yields_eq_true typed).2.2
      have same := Ty.result?_valueTy scope.returnTy
      refine (yields_supplies serves hvalue typed ⟨hasValue, same⟩).imp ?_
      rintro has known ⟨typed, isOf⟩
      simp only [typedCode_append, typedCode_instr, typedCode_nil, and_true]
      rw [← Ty.kind_valueTy] at isOf
      exact ⟨typed, .ret isOf same⟩
  | ifThen hcond hthen hend _ ih =>
      rw [isTyped, Bool.and_eq_true] at typed
      have onCond := yields_supplies serves hcond typed.1 rfl
      refine (((onCond.and (.label hthen (by decide))).and
        (.label hend (by decide))).and (ih typed.2)).imp ?_
      rintro has known ⟨⟨⟨⟨typedCond, isOf⟩, _⟩, _⟩, onTrue⟩
      simp [typedCond, onTrue, Jvm.Typed.branch _ isOf]
  | ifElse hcond hthen hend _ _ ihFalse ihTrue =>
      rw [isTyped, Bool.and_eq_true, Bool.and_eq_true] at typed
      have onCond := yields_supplies serves hcond typed.1.1 rfl
      refine ((((onCond.and (.label hthen (by decide))).and
        (.label hend (by decide))).and (ihFalse typed.2)).and
          (ihTrue typed.1.2)).imp ?_
      rintro has known ⟨⟨⟨⟨⟨typedCond, isOf⟩, _⟩, _⟩, onFalse⟩, onTrue⟩
      simp [typedCond, onFalse, onTrue, Jvm.Typed.branch _ isOf]
  | loop hcondLabel hbodyLabel hendLabel hcond _ ih =>
      rw [isTyped, Bool.and_eq_true] at typed
      have onCond := yields_supplies serves hcond typed.1 rfl
      refine (((((Scope.Supplies.label hcondLabel (by decide)).and
        (.label hbodyLabel (by decide))).and
        (.label hendLabel (by decide))).and onCond).and (ih typed.2)).imp ?_
      rintro has known ⟨⟨_, typedCond, isOf⟩, onBody⟩
      simp [typedCond, onBody, Jvm.Typed.branch _ isOf, Jvm.Typed.goto]

theorem lowerAll_supplies (serves : Serves linkage scope) {stmts : List Stmt}
    (h : lowerAll scope stmts supply = .ok code after)
    (typed : areTyped scope stmts = true) :
    scope.Supplies supply after (TypedCode · linkage scope.returnTy code) :=
  lower_supplies serves (lower_of_lowerAll h) (by rwa [isTyped])

end Tree.Stmt

end JavaMinus
