import JavaMinus.Proofs.Lowering.Activation

/-!
# The instructions of lowered code

Every instruction that lowering makes has one of a few shapes.  Expressions
are computed into temporaries, from operands that take one instruction to
load; an array element is read in place only where its value is assigned or
returned.  Statements add assignments to variables, fields and elements, and
returns.
-/

namespace JavaMinus

open Ir (Operand Instr Call Fragment)
open Lowering

namespace Ir

/-! ## Operands and values -/

namespace Operand

def isSimple : Operand → Bool
  | .literal _ _ | .var _ _ | .self _ => true
  | .element _ _ | .field _ => false

def isReadable : Operand → Bool
  | .element _ position => position.isSimple
  | operand => operand.isSimple

theorem isReadable_of_isSimple {operand : Operand}
    (h : operand.isSimple = true) : operand.isReadable = true := by
  cases operand with
  | element array position => simp [isSimple] at h
  | _ => exact h

end Operand

def Instr.sets? : Instr → Option String
  | .assign (.var name _) _ _ => some name
  | _ => none

structure Call.Invokes (call : Call) : Prop where
  target : (call.kind = .virtual ∧ call.target.isSimple = true) ∨
    (call.kind = .static ∧ ∃ name ty, call.target = .var name ty)
  method : ∃ name, call.method = some name
  args : ∀ arg ∈ call.args, arg.isSimple = true

inductive Instr.Yields : Instr → Prop where
  | single {operand : Operand} (readable : operand.isReadable = true) :
      Yields (.single operand)
  | binary {op : Operator} {left right : Operand} {ty : Ty}
      (leftSimple : left.isSimple = true)
      (rightSimple : right.isSimple = true) :
      Yields (.binary op left right ty)
  | not {operand : Operand} {ty : Ty} (simple : operand.isSimple = true) :
      Yields (.not operand ty)
  | getField {className : String} {field : FieldRef} :
      Yields (.getField (.self className) field)
  | newObject {className : String} :
      Yields (.call {
        kind := .new
        target := .var className (.object className)
        returnTy := .object className })
  | newArray {size : Operand} (simple : size.isSimple = true) :
      Yields (Lowering.newArray size)
  | length {array : Operand} (simple : array.isSimple = true) :
      Yields (.call { kind := .arrayLength, target := array, returnTy := .int })
  | invoke {call : Call} (invokes : call.Invokes) : Yields (.call call)

end Ir

/-! ## Instructions for expressions -/

namespace Supply

theorem Drawn.within {first second third fourth : Supply} {name : String}
    (h : Drawn second third name) (before : Extends first second)
    (after : Extends third fourth) : Drawn first fourth name where
  toExtends := (before.trans h.toExtends).trans after
  isNew kept := h.isNew (before.kept kept)
  kept := after.kept h.kept

end Supply

namespace Lowering

/--
The instructions that compute an expression.  What they store goes to
temporaries that were drawn between the two supplies.
-/
inductive Evaluates (before after : Supply) : Instr → Prop where
  | store {name : String} {ty : Ty} {value : Instr}
      (drawn : before.Drawn after name) (yields : value.Yields) :
      Evaluates before after (.store (.var name ty) value)
  | element {array : String} {index : Int32} {value : Operand}
      (drawn : before.Drawn after array) (simple : value.isSimple = true) :
      Evaluates before after
        (.store (.element array (.int index)) (.single value))
  | start {name className : String} :
      Evaluates before after (.call {
        kind := .special
        target := .var name (.object className)
        method := some "<init>"
        returnTy := .void })
  | invoke {call : Call} (invokes : call.Invokes) :
      Evaluates before after (.call call)
  | branch {condition : Operand} {label : String}
      (simple : condition.isSimple = true) :
      Evaluates before after (.branch condition label)
  | goto {label : String} : Evaluates before after (.goto label)

theorem Evaluates.within {first second third fourth : Supply} {instr : Instr}
    (h : Evaluates second third instr) (before : first.Extends second)
    (after : third.Extends fourth) : Evaluates first fourth instr := by
  cases h with
  | store drawn yields => exact .store (drawn.within before after) yields
  | element drawn simple => exact .element (drawn.within before after) simple
  | start => exact .start
  | invoke invokes => exact .invoke invokes
  | branch simple => exact .branch simple
  | goto => exact .goto

structure Computes (before after : Supply) (code : List Fragment) : Prop
    extends Supply.Extends before after where
  each : ∀ instr ∈ instrs code, Evaluates before after instr

namespace Computes

variable {first second third : Supply} {code code' : List Fragment}

theorem nil (supply : Supply) : Computes supply supply [] :=
  ⟨.refl supply, by simp⟩

theorem append (h : Computes first second code)
    (h' : Computes second third code') :
    Computes first third (code ++ code') where
  toExtends := h.toExtends.trans h'.toExtends
  each instr member := by
    rw [instrs_append, List.mem_append] at member
    rcases member with member | member
    · exact (h.each instr member).within (.refl first) h'.toExtends
    · exact (h'.each instr member).within h.toExtends (.refl third)

theorem extend (h : Computes first second code)
    (h' : second.Extends third) : Computes first third code where
  toExtends := h.toExtends.trans h'
  each instr member := (h.each instr member).within (.refl first) h'

theorem of_instrs (h : Computes first second code)
    (same : ∀ instr ∈ instrs code', instr ∈ instrs code ∨
      Evaluates first second instr) : Computes first second code' where
  toExtends := h.toExtends
  each instr member := (same instr member).elim (h.each instr) id

theorem andStore {name : String} {ty : Ty} {value : Instr}
    (h : Computes first second code) (drawn : second.Drawn third name)
    (yields : value.Yields) :
    Computes first third (code ++ [.instr (.store (.var name ty) value)]) := by
  refine h.append ⟨drawn.toExtends, fun instr member => ?_⟩
  obtain rfl : instr = .store (.var name ty) value := by simpa using member
  exact .store drawn yields

end Computes

variable {scope : Scope} {supply after before : Supply} {lowered : Lowered}
  {code : List Fragment}

theorem packArray_computes {values : List Operand} {array : Operand}
    (simple : ∀ value ∈ values, value.isSimple = true)
    (h : packArray values supply = .ok (array, code) after) :
    Computes supply after code ∧ array.isSimple = true := by
  obtain ⟨name, drawn, _, rfl, rfl⟩ := packArray_eq_ok h
  refine ⟨⟨drawn.toExtends, fun instr member => ?_⟩, rfl⟩
  rw [instrs_instr, List.mem_cons, mem_instrs] at member
  rcases member with rfl | member
  · exact .store drawn (.newArray rfl)
  · obtain ⟨index, value, isValue, isStore⟩ := mem_elementStores member
    cases isStore
    exact .element drawn (simple value isValue)

theorem packVarargs_computes {callee : Option Signature}
    {args passed : List Operand}
    (simple : ∀ arg ∈ args, arg.isSimple = true)
    (h : packVarargs callee args supply = .ok (passed, code) after) :
    Computes supply after code ∧ ∀ arg ∈ passed, arg.isSimple = true := by
  rcases packVarargs_eq_ok h with
    ⟨_, rfl, rfl, rfl⟩ | ⟨fixed, array, _, hpack, rfl⟩
  · exact ⟨.nil _, simple⟩
  · obtain ⟨computes, isSimple⟩ := packArray_computes
      (fun value member => simple value (List.mem_of_mem_drop member)) hpack
    refine ⟨computes, fun arg member => ?_⟩
    rcases List.mem_append.mp member with member | member
    · exact simple arg (List.mem_of_mem_take member)
    · rwa [List.mem_singleton.mp member]

/-- A result is readable, and simple unless it may be used in place. -/
def Suits (dest : Destination) (lowered : Lowered) : Prop :=
  ∀ operand, lowered.result = some operand →
    operand.isReadable = true ∧ (dest = .operand → operand.isSimple = true)

theorem suits_of_isSimple {dest : Destination} {operand : Operand}
    (simple : operand.isSimple = true) : Suits dest ⟨some operand, code⟩ := by
  rintro _ ⟨⟩
  exact ⟨Operand.isReadable_of_isSimple simple, fun _ => simple⟩

theorem Suits.isSimple {operand : Operand}
    (h : Suits .operand ⟨some operand, code⟩) : operand.isSimple = true :=
  (h operand rfl).2 rfl

theorem intoTemp_computes {ty : Ty} {value : Instr} {dest : Destination}
    (h : intoTemp ty code value supply = .ok lowered after)
    (computes : Computes before supply code) (yields : value.Yields) :
    Computes before after lowered.code ∧ Suits dest lowered := by
  obtain ⟨name, drawn, rfl⟩ := intoTemp_eq_ok h
  exact ⟨computes.andStore drawn yields, suits_of_isSimple rfl⟩

theorem finishCall_computes {dest : Destination} {call : Call}
    (h : finishCall call code dest supply = .ok lowered after)
    (computes : Computes before supply code) (invokes : call.Invokes) :
    Computes before after lowered.code ∧ Suits dest lowered := by
  cases dest with
  | discarded =>
      obtain ⟨rfl, rfl⟩ := Action.pure_eq_ok.mp h
      refine ⟨computes.append ⟨.refl supply, fun instr member => ?_⟩,
        fun _ none => nomatch none⟩
      obtain rfl : instr = .call call := by simpa using member
      exact .invoke invokes
  | assigned ty | returned ty | operand =>
      exact intoTemp_computes h computes (.invoke invokes)

theorem finishElement_computes {dest : Destination} {array : String}
    {position : Operand}
    (h : finishElement (.element array position) code dest supply =
      .ok lowered after)
    (computes : Computes before supply code)
    (simple : position.isSimple = true) :
    Computes before after lowered.code ∧ Suits dest lowered := by
  cases dest with
  | discarded | operand => exact intoTemp_computes h computes (.single simple)
  | assigned ty | returned ty =>
      obtain ⟨rfl, rfl⟩ := Action.pure_eq_ok.mp h
      refine ⟨computes, ?_⟩
      rintro _ ⟨⟩
      exact ⟨simple, nofun⟩

theorem directReceiver?_eq_some {receiver : Tree.Expr} {kind : Ir.CallKind}
    {target : Operand}
    (h : directReceiver? scope receiver = some (kind, target)) :
    (kind = .virtual ∧ target.isSimple = true) ∨
      (kind = .static ∧ ∃ name ty, target = .var name ty) := by
  rw [directReceiver?] at h
  split at h
  · cases h
    exact .inl ⟨rfl, rfl⟩
  · split at h
    · cases h
      exact .inl ⟨rfl, rfl⟩
    · cases h
      exact .inl ⟨rfl, rfl⟩
    · cases h
    · cases h
      exact .inl ⟨rfl, rfl⟩
    · cases h
      exact .inr ⟨rfl, _, _, rfl⟩
    · cases h
      exact .inr ⟨rfl, _, _, rfl⟩
  · cases h

end Lowering

namespace Tree.Expr

variable {scope : Scope} {dest : Destination} {supply after : Supply}
  {operand : Operand} {code : List Fragment}

private theorem and_computes {before first second third fourth : Supply}
    {leftOp rightOp : Operand} {leftCode rightCode : List Fragment}
    {name rightLabel endLabel : String}
    (onLeft : Computes before first leftCode)
    (leftSimple : leftOp.isSimple = true) (drawn : first.Drawn second name)
    (hright : Lower.label "andRight" second = .ok rightLabel third)
    (hend : Lower.label "andEnd" third = .ok endLabel fourth)
    (onRight : Computes fourth after rightCode)
    (rightSimple : rightOp.isSimple = true) :
    Computes before after
      (leftCode ++
        [.instr (.branch leftOp rightLabel),
          .instr (.store (.var name .boolean) (.single (.bool false))),
          .instr (.goto endLabel),
          .label rightLabel] ++
        rightCode ++
        [.instr (.store (.var name .boolean) (.single rightOp)),
          .label endLabel]) := by
  have labels : second.Extends fourth :=
    (Lower.labelled_of_label hright (by decide)).toExtends.trans
      (Lower.labelled_of_label hend (by decide)).toExtends
  have isDrawn : before.Drawn after name :=
    drawn.within onLeft.toExtends (labels.trans onRight.toExtends)
  have inOrder :=
    (onLeft.extend (drawn.toExtends.trans labels)).append onRight
  refine inOrder.of_instrs fun instr member => ?_
  simp only [instrs_append, instrs_instr, instrs_label, instrs_nil,
    List.mem_append, List.mem_cons, List.not_mem_nil, or_false] at member ⊢
  rcases member with ((member | rfl | rfl | rfl) | member) | rfl
  · exact .inl (.inl member)
  · exact .inr (.branch leftSimple)
  · exact .inr (.store isDrawn (.single rfl))
  · exact .inr .goto
  · exact .inl (.inr member)
  · exact .inr (.store isDrawn
      (.single (Operand.isReadable_of_isSimple rightSimple)))

private theorem lower_suits {expr : Expr} {lowered : Lowered}
    (h : expr.lower scope dest supply = .ok lowered after) :
    Computes supply after lowered.code ∧ Suits dest lowered := by
  induction h using lower_induction (fun _ supply operands code after =>
    Computes supply after code ∧
      ∀ operand ∈ operands, operand.isSimple = true) with
  | nil => exact ⟨.nil _, by simp⟩
  | cons _ _ onFirst onRest =>
      exact ⟨onFirst.1.append onRest.1,
        by simpa [onFirst.2.isSimple] using onRest.2⟩
  | int | bool | self | readVar | readEnclosing | readClass =>
      exact ⟨.nil _, suits_of_isSimple rfl⟩
  | readField _ drawn =>
      exact ⟨(Computes.nil _).andStore drawn .getField, suits_of_isSimple rfl⟩
  | paren _ ih => exact ih
  | and _ drawn hright hend _ ihLeft ihRight =>
      exact ⟨and_computes ihLeft.1 ihLeft.2.isSimple drawn hright hend
        ihRight.1 ihRight.2.isSimple, suits_of_isSimple rfl⟩
  | binary _ _ _ _ drawn ihLeft ihRight =>
      exact ⟨(ihLeft.1.append ihRight.1).andStore drawn
        (.binary ihLeft.2.isSimple ihRight.2.isSimple), suits_of_isSimple rfl⟩
  | not _ drawn ih =>
      exact ⟨ih.1.andStore drawn (.not ih.2.isSimple), suits_of_isSimple rfl⟩
  | call receives _ hpack hfinish ihReceiver ihArgs =>
      obtain ⟨fromPack, passedSimple⟩ := packVarargs_computes ihArgs.2 hpack
      rcases receives with ⟨direct, rfl, rfl⟩ | ⟨_, rfl, hreceiver⟩
      · exact finishCall_computes hfinish
          (((Computes.nil _).append ihArgs.1).append fromPack)
          ⟨directReceiver?_eq_some direct, ⟨_, rfl⟩, passedSimple⟩
      · obtain ⟨fromTarget, suits⟩ := ihReceiver hreceiver
        exact finishCall_computes hfinish
          ((fromTarget.append ihArgs.1).append fromPack)
          ⟨.inl ⟨rfl, suits.isSimple⟩, ⟨_, rfl⟩, passedSimple⟩
  | newObject drawn =>
      refine ⟨⟨drawn.toExtends, fun instr member => ?_⟩, suits_of_isSimple rfl⟩
      simp only [instrs_instr, instrs_nil, List.mem_cons, List.not_mem_nil,
        or_false] at member
      rcases member with rfl | rfl
      · exact .store drawn .newObject
      · exact .start
  | newArray _ drawn ih =>
      exact ⟨ih.1.andStore drawn (.newArray ih.2.isSimple),
        suits_of_isSimple rfl⟩
  | arrayLiteral _ hpack ih =>
      obtain ⟨fromPack, isSimple⟩ := packArray_computes ih.2 hpack
      exact ⟨ih.1.append fromPack, suits_of_isSimple isSimple⟩
  | index _ _ hfinish ihArray ihPosition =>
      exact finishElement_computes hfinish (ihArray.1.append ihPosition.1)
        ihPosition.2.isSimple
  | length _ drawn ih =>
      exact ⟨ih.1.andStore drawn (.length ih.2.isSimple),
        suits_of_isSimple rfl⟩

theorem lower_computes {expr : Expr}
    (h : expr.lower scope dest supply = .ok ⟨some operand, code⟩ after) :
    Computes supply after code ∧ operand.isReadable = true :=
  ⟨(lower_suits h).1, ((lower_suits h).2 operand rfl).1⟩

theorem lower_computes_operand {expr : Expr}
    (h : expr.lower scope .operand supply = .ok ⟨some operand, code⟩ after) :
    Computes supply after code ∧ operand.isSimple = true :=
  ⟨(lower_suits h).1, (lower_suits h).2.isSimple⟩

theorem lower_computes_discarded {expr : Expr} {lowered : Lowered}
    (h : expr.lower scope .discarded supply = .ok lowered after) :
    Computes supply after lowered.code :=
  (lower_suits h).1

end Tree.Expr

/-! ## Instructions for statements -/

inductive Tree.Stmt.Assigns : Stmt → String → Prop where
  | assign {span : Span} {target value : Expr} {attr : Attr} {name : String}
      (isVar : target.skipParens = .var attr name) :
      Assigns (.assign span target value) name
  | block {span : Span} {body : List Stmt} {stmt : Stmt} {name : String}
      (member : stmt ∈ body) (inside : Assigns stmt name) :
      Assigns (.block span body) name
  | ifThen {span : Span} {cond : Expr} {onTrue : Stmt} {name : String}
      (inside : Assigns onTrue name) : Assigns (.ifThen span cond onTrue) name
  | onTrue {span : Span} {cond : Expr} {onTrue onFalse : Stmt} {name : String}
      (inside : Assigns onTrue name) :
      Assigns (.ifElse span cond onTrue onFalse) name
  | onFalse {span : Span} {cond : Expr} {onTrue onFalse : Stmt}
      {name : String} (inside : Assigns onFalse name) :
      Assigns (.ifElse span cond onTrue onFalse) name
  | loop {span : Span} {cond : Expr} {body : Stmt} {name : String}
      (inside : Assigns body name) : Assigns (.loop span cond body) name

namespace Lowering

/--
The instructions of a statement.  Those that compute expressions apart, they
assign the given variables, fields and elements, or return.
-/
inductive Executes (scope : Scope) (written : String → Prop)
    (before after : Supply) : Instr → Prop where
  | evaluates {instr : Instr} (h : Evaluates before after instr) :
      Executes scope written before after instr
  | assign {name : String} {ty : Ty} {value : Instr}
      (isVariable : scope.IsVariable name) (isWritten : written name)
      (yields : value.Yields) :
      Executes scope written before after (.store (.var name ty) value)
  | assignElement {array : String} {position value : Operand}
      (simple : position.isSimple = true)
      (readable : value.isReadable = true) :
      Executes scope written before after
        (.store (.element array position) (.single value))
  | putField {className : String} {field : Ir.FieldRef} {value : Operand}
      (readable : value.isReadable = true) :
      Executes scope written before after
        (.putField (.self className) field value)
  | ret {ty : Ty} {value : Operand} (readable : value.isReadable = true) :
      Executes scope written before after (.ret ty (some value))
  | retVoid : Executes scope written before after (.ret .void none)

theorem Executes.within {scope : Scope} {written written' : String → Prop}
    {first second third fourth : Supply} {instr : Instr}
    (h : Executes scope written second third instr)
    (more : ∀ name, written name → written' name)
    (before : first.Extends second) (after : third.Extends fourth) :
    Executes scope written' first fourth instr := by
  cases h with
  | evaluates h => exact .evaluates (h.within before after)
  | assign isVariable isWritten yields =>
      exact .assign isVariable (more _ isWritten) yields
  | assignElement simple readable => exact .assignElement simple readable
  | putField readable => exact .putField readable
  | ret readable => exact .ret readable
  | retVoid => exact .retVoid

structure Implements (scope : Scope) (written : String → Prop)
    (before after : Supply) (code : List Fragment) : Prop
    extends Supply.Extends before after where
  each : ∀ instr ∈ instrs code, Executes scope written before after instr

namespace Implements

variable {scope : Scope} {written written' : String → Prop}
  {first second third : Supply} {code code' : List Fragment}

theorem nil (supply : Supply) : Implements scope written supply supply [] :=
  ⟨.refl supply, by simp⟩

theorem of_computes (h : Computes first second code) :
    Implements scope written first second code :=
  ⟨h.toExtends, fun instr member => .evaluates (h.each instr member)⟩

theorem append (h : Implements scope written first second code)
    (h' : Implements scope written second third code') :
    Implements scope written first third (code ++ code') where
  toExtends := h.toExtends.trans h'.toExtends
  each instr member := by
    rw [instrs_append, List.mem_append] at member
    rcases member with member | member
    · exact (h.each instr member).within (fun _ => id) (.refl first)
        h'.toExtends
    · exact (h'.each instr member).within (fun _ => id) h.toExtends
        (.refl third)

theorem mono (h : Implements scope written first second code)
    (more : ∀ name, written name → written' name) :
    Implements scope written' first second code where
  toExtends := h.toExtends
  each instr member :=
    (h.each instr member).within more (.refl first) (.refl second)

theorem of_extends (h : first.Extends second) :
    Implements scope written first second [] :=
  ⟨h, by simp⟩

theorem andInstr {instr : Instr} (h : Computes first second code)
    (last : Executes scope written first second instr) :
    Implements scope written first second (code ++ [.instr instr]) where
  toExtends := h.toExtends
  each other member := by
    rw [instrs_append, List.mem_append] at member
    rcases member with member | member
    · exact .evaluates (h.each other member)
    · rwa [List.mem_singleton.mp member]

theorem of_instrs (h : Implements scope written first second code)
    (same : ∀ instr ∈ instrs code', instr ∈ instrs code ∨
      Executes scope written first second instr) :
    Implements scope written first second code' where
  toExtends := h.toExtends
  each instr member := (same instr member).elim (h.each instr) id

end Implements

theorem mem_instrs_thenGoto {instr : Instr} {label : String}
    {code : List Fragment} (h : instr ∈ instrs (thenGoto label code)) :
    instr ∈ instrs code ∨ instr = .goto label := by
  rw [thenGoto] at h
  split at h
  · simpa using h
  · exact .inl h

theorem increment?_yields {name : String} {ty : Ty} {value : Tree.Expr}
    {step : Instr} (h : increment? name ty value = some step) :
    step.Yields := by
  obtain ⟨_, _, _, _, _, _, _, _, ⟨_, _, rfl⟩ | ⟨_, _, rfl⟩⟩ :=
    increment?_eq_some h <;>
    exact .binary rfl rfl

end Lowering

namespace Tree.Stmt

variable {scope : Scope} {supply after : Supply} {code : List Fragment}

private theorem conditional_implements {written : String → Prop}
    {before first second third fourth : Supply}
    {condCode falseCode trueCode : List Fragment} {op : Operand}
    {thenLabel endLabel : String} (cond : Computes before first condCode)
    (simple : op.isSimple = true)
    (hthen : Lower.label "then" first = .ok thenLabel second)
    (hend : Lower.label "endif" second = .ok endLabel third)
    (onFalse : Implements scope written third fourth falseCode)
    (onTrue : Implements scope written fourth after trueCode) :
    Implements scope written before after
      (thenGoto endLabel
        (condCode ++ .instr (.branch op thenLabel) :: falseCode) ++
        .label thenLabel :: trueCode ++ [.label endLabel]) := by
  have labels : first.Extends third :=
    (Lower.labelled_of_label hthen (by decide)).toExtends.trans
      (Lower.labelled_of_label hend (by decide)).toExtends
  have inOrder := ((Implements.of_computes (cond.extend labels)).append
    onFalse).append onTrue
  refine inOrder.of_instrs fun instr member => ?_
  simp only [instrs_append, instrs_label, instrs_nil, List.append_nil,
    List.mem_append] at member ⊢
  rcases member with member | member
  · rcases mem_instrs_thenGoto member with member | rfl
    · simp only [instrs_append, instrs_instr, List.mem_append,
        List.mem_cons] at member
      rcases member with member | rfl | member
      · exact .inl (.inl (.inl member))
      · exact .inr (.evaluates (.branch simple))
      · exact .inl (.inl (.inr member))
    · exact .inr (.evaluates .goto)
  · exact .inl (.inr member)

private theorem loop_implements {written : String → Prop}
    {before first second third fourth : Supply}
    {condCode bodyCode : List Fragment} {op : Operand}
    {condLabel bodyLabel endLabel : String}
    (hcond : Lower.label "whileCond" before = .ok condLabel first)
    (hbody : Lower.label "whileBody" first = .ok bodyLabel second)
    (hend : Lower.label "whileEnd" second = .ok endLabel third)
    (cond : Computes third fourth condCode) (simple : op.isSimple = true)
    (body : Implements scope written fourth after bodyCode) :
    Implements scope written before after
      (thenGoto condLabel
        (.label condLabel :: condCode ++
          [.instr (.branch op bodyLabel), .instr (.goto endLabel),
            .label bodyLabel] ++ bodyCode) ++ [.label endLabel]) := by
  have labels : before.Extends third :=
    ((Lower.labelled_of_label hcond (by decide)).toExtends.trans
      (Lower.labelled_of_label hbody (by decide)).toExtends).trans
      (Lower.labelled_of_label hend (by decide)).toExtends
  have inOrder := ((Implements.of_extends labels).append
    (.of_computes cond)).append body
  refine inOrder.of_instrs fun instr member => ?_
  simp only [instrs_append, instrs_label, instrs_nil, List.append_nil,
    List.nil_append] at member ⊢
  rcases mem_instrs_thenGoto member with member | rfl
  · simp only [List.cons_append, instrs_append, instrs_instr,
      instrs_label, instrs_nil, List.mem_append, List.mem_cons,
      List.not_mem_nil, or_false] at member ⊢
    rcases member with (member | rfl | rfl) | member
    · exact .inl (.inl member)
    · exact .inr (.evaluates (.branch simple))
    · exact .inr (.evaluates .goto)
    · exact .inl (.inr member)
  · exact .inr (.evaluates .goto)

theorem lower_implements {stmt : Stmt}
    (h : stmt.lower scope supply = .ok code after) :
    Implements scope stmt.Assigns supply after code := by
  induction h using lower_induction with
  | nil => exact .nil _
  | cons _ _ onFirst onRest =>
      refine (onFirst.mono fun name => .block (.head _)).append
        (onRest.mono fun name inside => ?_)
      cases inside with
      | block member inside => exact .block (.tail _ member) inside
  | increment isVar origin hstep =>
      exact .andInstr (.nil _)
        (.assign ⟨_, origin⟩ (.assign isVar) (increment?_yields hstep))
  | assignVar isVar origin hvalue =>
      obtain ⟨computes, readable⟩ := Expr.lower_computes hvalue
      exact .andInstr computes
        (.assign ⟨_, origin⟩ (.assign isVar) (.single readable))
  | assignField _ _ hvalue =>
      obtain ⟨computes, readable⟩ := Expr.lower_computes hvalue
      exact .andInstr computes (.putField readable)
  | assignElement _ harray hposition hvalue =>
      obtain ⟨fromArray, _⟩ := Expr.lower_computes_operand harray
      obtain ⟨fromPlace, simple⟩ := Expr.lower_computes_operand hposition
      obtain ⟨fromValue, readable⟩ := Expr.lower_computes hvalue
      exact .andInstr ((fromArray.append fromPlace).append fromValue)
        (.assignElement simple readable)
  | expr hvalue => exact .of_computes (Expr.lower_computes_discarded hvalue)
  | retVoid => exact .andInstr (.nil _) .retVoid
  | ret hvalue =>
      obtain ⟨computes, readable⟩ := Expr.lower_computes hvalue
      exact .andInstr computes (.ret readable)
  | ifThen hcond hthen hend _ ih =>
      obtain ⟨computes, simple⟩ := Expr.lower_computes_operand hcond
      exact conditional_implements computes simple hthen hend (.nil _)
        (ih.mono fun name inside => .ifThen inside)
  | ifElse hcond hthen hend _ _ ihFalse ihTrue =>
      obtain ⟨computes, simple⟩ := Expr.lower_computes_operand hcond
      exact conditional_implements computes simple hthen hend
        (ihFalse.mono fun name inside => .onFalse inside)
        (ihTrue.mono fun name inside => .onTrue inside)
  | loop hcondLabel hbodyLabel hendLabel hcond _ ih =>
      obtain ⟨computes, simple⟩ := Expr.lower_computes_operand hcond
      exact loop_implements hcondLabel hbodyLabel hendLabel computes simple
        (ih.mono fun name inside => .loop inside)

theorem lowerAll_implements {stmts : List Stmt}
    (h : lowerAll scope stmts supply = .ok code after) :
    Implements scope (fun name => ∃ stmt ∈ stmts, stmt.Assigns name) supply
      after code := by
  refine (lower_implements (lower_of_lowerAll h)).mono fun name inside => ?_
  cases inside with
  | block member inside => exact ⟨_, member, inside⟩

end Tree.Stmt

end JavaMinus
