import JavaMinus.Proofs.Lowering.Forms
import JavaMinus.Proofs.Tree.Induction

/-!
# Induction on lowering

What holds of all lowered code is shown along a run of lowering that succeeds.
There is one case for each form, with all that is known about its code and with
the hypotheses for its parts.
-/

namespace JavaMinus

open Ir (Operand Fragment)

namespace Tree.Expr

open Lowering

variable {scope : Scope}

theorem lowerAll_induction
    {motive : ∀ {exprs supply operands code after},
      lowerAll scope exprs supply = .ok (operands, code) after → Prop}
    (nil : ∀ {supply} {h : lowerAll scope [] supply = .ok ([], []) supply},
      motive h)
    (cons : ∀ {expr : Expr} {rest supply op opCode mid ops opsCode after}
      {h : lowerAll scope (expr :: rest) supply =
        .ok (op :: ops, opCode ++ opsCode) after}
      (_ : expr.lower scope .operand supply = .ok ⟨some op, opCode⟩ mid)
      (others : lowerAll scope rest mid = .ok (ops, opsCode) after),
      motive others → motive h)
    {exprs : List Expr} {supply : Supply} {operands : List Operand}
    {code : List Fragment} {after : Supply}
    (h : lowerAll scope exprs supply = .ok (operands, code) after) :
    motive h := by
  induction exprs generalizing supply operands code with
  | nil =>
      obtain ⟨hpair, rfl⟩ := Action.pure_eq_ok.mp h
      cases hpair
      exact nil
  | cons expr rest ih =>
      obtain ⟨op, opCode, mid, ops, opsCode, hexpr, hrest, rfl, rfl⟩ :=
        lowerAll_cons_eq_ok h
      exact cons hexpr hrest (ih hrest)

/-- The first property is that of lists of operands. -/
theorem lower_induction
    (all : List Expr → Supply → List Operand → List Fragment → Supply → Prop)
    {motive : ∀ {expr : Expr} {dest supply lowered after},
      expr.lower scope dest supply = .ok lowered after → Prop}
    (nil : ∀ {supply}, all [] supply [] [] supply)
    (cons : ∀ {expr : Expr} {rest supply op opCode mid ops opsCode after}
      (first : expr.lower scope .operand supply = .ok ⟨some op, opCode⟩ mid),
      lowerAll scope rest mid = .ok (ops, opsCode) after → motive first →
      all rest mid ops opsCode after →
      all (expr :: rest) supply (op :: ops) (opCode ++ opsCode) after)
    (int : ∀ {attr value dest supply}
      {h : (Expr.int attr value).lower scope dest supply =
        .ok (.ofOperand (.int value)) supply}, motive h)
    (bool : ∀ {attr value dest supply}
      {h : (Expr.bool attr value).lower scope dest supply =
        .ok (.ofOperand (.bool value)) supply}, motive h)
    (self : ∀ {attr dest supply}
      {h : (Expr.self attr).lower scope dest supply =
        .ok (.ofOperand (.self scope.className)) supply}, motive h)
    (readVar : ∀ {attr name dest supply} {symbol : Symbol}
      {h : (Expr.var attr name).lower scope dest supply =
        .ok (.ofOperand (.var name symbol.ty.valueTy)) supply},
      (scope.resolve name = .localVar symbol ∨
        scope.resolve name = .param symbol) → motive h)
    (readField : ∀ {attr name dest supply temp after} {symbol : Symbol}
      {h : (Expr.var attr name).lower scope dest supply =
        .ok ⟨some (.var temp symbol.ty.valueTy),
          [Fragment.instr (.store (.var temp symbol.ty.valueTy)
            (.getField (.self scope.className) (fieldRef scope symbol)))]⟩
          after},
      scope.resolve name = .field symbol → supply.Drawn after temp → motive h)
    (readEnclosing : ∀ {attr name dest supply}
      {h : (Expr.var attr name).lower scope dest supply =
        .ok (.ofOperand (.self scope.className)) supply},
      scope.resolve name = .enclosing → motive h)
    (readClass : ∀ {attr name dest supply}
      {h : (Expr.var attr name).lower scope dest supply =
        .ok (.ofOperand (.var name (.object name))) supply},
      (scope.resolve name = .unknown ∨
        ∃ path, scope.resolve name = .imported path) → motive h)
    (paren : ∀ {attr inner dest supply lowered after}
      {h : (Expr.paren attr inner).lower scope dest supply =
        .ok lowered after}
      (inside : inner.lower scope dest supply = .ok lowered after),
      motive inside → motive h)
    (and : ∀ {attr} {left right : Expr} {dest supply leftOp leftCode first
        name second rightLabel third endLabel fourth rightOp rightCode after}
      {h : (Expr.binary attr .and left right).lower scope dest supply =
        .ok ⟨some (.var name .boolean),
          leftCode ++
            [Fragment.instr (.branch leftOp rightLabel),
              Fragment.instr
                (.store (.var name .boolean) (.single (.bool false))),
              Fragment.instr (.goto endLabel),
              Fragment.label rightLabel] ++
            rightCode ++
            [Fragment.instr (.store (.var name .boolean) (.single rightOp)),
              Fragment.label endLabel]⟩ after}
      (onLeft : left.lower scope .operand supply =
        .ok ⟨some leftOp, leftCode⟩ first)
      (_ : first.Drawn second name)
      (_ : Lower.label "andRight" second = .ok rightLabel third)
      (_ : Lower.label "andEnd" third = .ok endLabel fourth)
      (onRight : right.lower scope .operand fourth =
        .ok ⟨some rightOp, rightCode⟩ after),
      motive onLeft → motive onRight → motive h)
    (binary : ∀ {attr op} {left right : Expr} {dest supply leftOp leftCode
        first rightOp rightCode second name after}
      {h : (Expr.binary attr op left right).lower scope dest supply =
        .ok ⟨some (.var name attr.ty),
          leftCode ++ rightCode ++
            [Fragment.instr (.store (.var name attr.ty)
              (.binary op leftOp rightOp attr.ty))]⟩ after}
      (_ : op ≠ .and) (_ : attr.ty ≠ .vararg)
      (onLeft : left.lower scope .operand supply =
        .ok ⟨some leftOp, leftCode⟩ first)
      (onRight : right.lower scope .operand first =
        .ok ⟨some rightOp, rightCode⟩ second),
      second.Drawn after name → motive onLeft → motive onRight → motive h)
    (not : ∀ {attr} {operand : Expr} {dest supply op code mid name after}
      {h : (Expr.not attr operand).lower scope dest supply =
        .ok ⟨some (.var name .boolean),
          code ++ [Fragment.instr (.store (.var name .boolean)
            (.not op .boolean))]⟩ after}
      (inside : operand.lower scope .operand supply = .ok ⟨some op, code⟩ mid),
      mid.Drawn after name → motive inside → motive h)
    (call : ∀ {attr} {receiver : Expr} {method args dest supply kind target
        targetCode first operands argCode second passed packCode third lowered
        after}
      {h : (Expr.call attr receiver method args).lower scope dest supply =
        .ok lowered after},
      Receives scope receiver kind target targetCode supply first →
      lowerAll scope args first = .ok (operands, argCode) second →
      packVarargs (callee? scope kind target method) operands second =
        .ok (passed, packCode) third →
      finishCall
        { kind, target, method := some method, args := passed
          returnTy := callTy (callee? scope kind target method) attr.ty dest }
        (targetCode ++ argCode ++ packCode) dest third = .ok lowered after →
      (∀ inside : receiver.lower scope .operand supply =
        .ok ⟨some target, targetCode⟩ first, motive inside) →
      all args first operands argCode second → motive h)
    (newObject : ∀ {attr className dest supply name after}
      {h : (Expr.newObject attr className).lower scope dest supply =
        .ok ⟨some (.var name (.object className)),
          [Fragment.instr (.store (.var name (.object className))
              (.call {
                kind := .new
                target := .var className (.object className)
                returnTy := .object className })),
            Fragment.instr (.call {
              kind := .special
              target := .var name (.object className)
              method := some "<init>"
              returnTy := .void })]⟩ after},
      supply.Drawn after name → motive h)
    (newArray : ∀ {attr} {size : Expr} {dest supply op code mid name after}
      {h : (Expr.newArray attr size).lower scope dest supply =
        .ok ⟨some (.var name .intArray),
          code ++ [Fragment.instr (.store (.var name .intArray)
            (Lowering.newArray op))]⟩ after}
      (inside : size.lower scope .operand supply = .ok ⟨some op, code⟩ mid),
      mid.Drawn after name → motive inside → motive h)
    (arrayLiteral : ∀ {attr elements dest supply operands code mid array
        packCode after}
      {h : (Expr.arrayLiteral attr elements).lower scope dest supply =
        .ok ⟨some array, code ++ packCode⟩ after},
      lowerAll scope elements supply = .ok (operands, code) mid →
      packArray operands mid = .ok (array, packCode) after →
      all elements supply operands code mid → motive h)
    (index : ∀ {attr} {array position : Expr} {dest supply name ty arrayCode
        first op code second lowered after}
      {h : (Expr.index attr array position).lower scope dest supply =
        .ok lowered after}
      (onArray : array.lower scope .operand supply =
        .ok ⟨some (.var name ty), arrayCode⟩ first)
      (onPosition : position.lower scope .operand first =
        .ok ⟨some op, code⟩ second),
      finishElement (.element name op) (arrayCode ++ code) dest second =
        .ok lowered after →
      motive onArray → motive onPosition → motive h)
    (length : ∀ {attr} {array : Expr} {dest supply op code mid name after}
      {h : (Expr.length attr array).lower scope dest supply =
        .ok ⟨some (.var name .int),
          code ++ [Fragment.instr (.store (.var name .int)
            (.call {
              kind := .arrayLength, target := op, returnTy := .int }))]⟩
          after}
      (inside : array.lower scope .operand supply = .ok ⟨some op, code⟩ mid),
      mid.Drawn after name → motive inside → motive h)
    {expr : Expr} {dest : Destination} {supply : Supply} {lowered : Lowered}
    {after : Supply} (h : expr.lower scope dest supply = .ok lowered after) :
    motive h := by
  have list {exprs : List Expr} {supply after : Supply}
      {operands : List Operand} {code : List Fragment}
      (each : ∀ expr ∈ exprs, ∀ {dest supply lowered after}
        (h : expr.lower scope dest supply = .ok lowered after), motive h)
      (h : lowerAll scope exprs supply = .ok (operands, code) after) :
      all exprs supply operands code after := by
    induction h using lowerAll_induction with
    | nil => exact nil
    | cons first others ih =>
        exact cons first others (each _ (by simp) first)
          (ih fun expr member => each expr (by simp [member]))
  induction expr generalizing dest supply lowered after with
  | int attr value =>
      rw [lower] at h
      obtain ⟨rfl, rfl⟩ := Action.pure_eq_ok.mp h
      exact int
  | bool attr value =>
      rw [lower] at h
      obtain ⟨rfl, rfl⟩ := Action.pure_eq_ok.mp h
      exact bool
  | self attr =>
      rw [lower] at h
      obtain ⟨rfl, rfl⟩ := Action.pure_eq_ok.mp h
      exact self
  | var attr name =>
      rw [lower, readName] at h
      cases origin : scope.resolve name with
      | localVar symbol =>
          rw [origin] at h
          obtain ⟨rfl, rfl⟩ := Action.pure_eq_ok.mp h
          exact readVar (.inl origin)
      | param symbol =>
          rw [origin] at h
          obtain ⟨rfl, rfl⟩ := Action.pure_eq_ok.mp h
          exact readVar (.inr origin)
      | field symbol =>
          rw [origin] at h
          obtain ⟨temp, drawn, rfl⟩ := intoTemp_eq_ok h
          exact readField origin drawn
      | enclosing =>
          rw [origin] at h
          obtain ⟨rfl, rfl⟩ := Action.pure_eq_ok.mp h
          exact readEnclosing origin
      | imported path =>
          rw [origin] at h
          obtain ⟨rfl, rfl⟩ := Action.pure_eq_ok.mp h
          exact readClass (.inr ⟨path, origin⟩)
      | unknown =>
          rw [origin] at h
          obtain ⟨rfl, rfl⟩ := Action.pure_eq_ok.mp h
          exact readClass (.inl origin)
  | paren attr inner ih =>
      rw [lower] at h
      exact paren h (ih h)
  | binary attr op left right ihLeft ihRight =>
      by_cases isAnd : op = .and
      · subst isAnd
        obtain ⟨leftOp, leftCode, first, name, second, rightLabel, third,
          endLabel, fourth, rightOp, rightCode, hleft, drawn, hrightLabel,
          hendLabel, hright, rfl⟩ := lower_and_eq_ok h
        exact and hleft drawn hrightLabel hendLabel hright (ihLeft hleft)
          (ihRight hright)
      · obtain ⟨leftOp, leftCode, first, rightOp, rightCode, second, name,
          hleft, hright, drawn, notVararg, rfl⟩ := lower_binary_eq_ok isAnd h
        exact binary isAnd notVararg hleft hright drawn (ihLeft hleft)
          (ihRight hright)
  | not attr operand ih =>
      obtain ⟨op, code, mid, name, hoperand, drawn, rfl⟩ := lower_not_eq_ok h
      exact not hoperand drawn (ih hoperand)
  | call attr receiver method args ihReceiver ihArgs =>
      obtain ⟨kind, target, targetCode, first, operands, argCode, second,
        passed, packCode, third, receives, hargs, hpack, hfinish⟩ :=
        lower_call_eq_ok h
      exact call receives hargs hpack hfinish ihReceiver (list ihArgs hargs)
  | newObject attr className =>
      obtain ⟨name, drawn, rfl⟩ := lower_newObject_eq_ok h
      exact newObject drawn
  | newArray attr size ih =>
      obtain ⟨op, code, mid, name, hsize, drawn, rfl⟩ :=
        lower_newArray_eq_ok h
      exact newArray hsize drawn (ih hsize)
  | arrayLiteral attr elements ih =>
      obtain ⟨operands, code, mid, array, packCode, helements, hpack, rfl⟩ :=
        lower_arrayLiteral_eq_ok h
      exact arrayLiteral helements hpack (list ih helements)
  | index attr array position ihArray ihPosition =>
      obtain ⟨name, ty, arrayCode, first, op, code, second, harray,
        hposition, hfinish⟩ := lower_index_eq_ok h
      exact index harray hposition hfinish (ihArray harray)
        (ihPosition hposition)
  | length attr array ih =>
      obtain ⟨op, code, mid, name, harray, drawn, rfl⟩ :=
        lower_length_eq_ok h
      exact length harray drawn (ih harray)

end Tree.Expr

namespace Tree.Stmt

open Lowering

variable {scope : Scope}

/-- A block is lowered one statement after the other. -/
theorem lower_induction
    {motive : ∀ {stmt : Stmt} {supply code after},
      stmt.lower scope supply = .ok code after → Prop}
    (nil : ∀ {span supply}
      {h : (Stmt.block span []).lower scope supply = .ok [] supply}, motive h)
    (cons : ∀ {span} {stmt : Stmt} {rest supply mid after}
      {stmtCode restCode : List Fragment}
      {h : (Stmt.block span (stmt :: rest)).lower scope supply =
        .ok (stmtCode ++ restCode) after}
      (first : stmt.lower scope supply = .ok stmtCode mid)
      (others : (Stmt.block span rest).lower scope mid = .ok restCode after),
      motive first → motive others → motive h)
    (increment : ∀ {span} {target value : Expr} {attr name step supply}
      {symbol : Symbol}
      {h : (Stmt.assign span target value).lower scope supply =
        .ok [Fragment.instr (.store (.var name symbol.ty.valueTy) step)]
          supply},
      target.skipParens = .var attr name →
      (scope.resolve name = .localVar symbol ∨
        scope.resolve name = .param symbol) →
      increment? name symbol.ty.valueTy value = some step → motive h)
    (assignVar : ∀ {span} {target value : Expr} {attr name supply op after}
      {symbol : Symbol} {code : List Fragment}
      {h : (Stmt.assign span target value).lower scope supply =
        .ok (code ++
          [Fragment.instr (.store (.var name symbol.ty.valueTy)
            (.single op))]) after},
      target.skipParens = .var attr name →
      (scope.resolve name = .localVar symbol ∨
        scope.resolve name = .param symbol) →
      value.lower scope (.assigned symbol.ty.valueTy) supply =
        .ok ⟨some op, code⟩ after → motive h)
    (assignField : ∀ {span} {target value : Expr} {attr name supply op after}
      {symbol : Symbol} {code : List Fragment}
      {h : (Stmt.assign span target value).lower scope supply =
        .ok (code ++ [Fragment.instr (.putField (.self scope.className)
          (fieldRef scope symbol) op)]) after},
      target.skipParens = .var attr name →
      scope.resolve name = .field symbol →
      value.lower scope (.assigned symbol.ty.valueTy) supply =
        .ok ⟨some op, code⟩ after → motive h)
    (assignElement : ∀ {span} {target value array position : Expr}
        {attr supply name ty first place second op after}
      {arrayCode placeCode valueCode : List Fragment}
      {h : (Stmt.assign span target value).lower scope supply =
        .ok (arrayCode ++ placeCode ++ valueCode ++
          [Fragment.instr (.store (.element name place) (.single op))]) after},
      target.skipParens = .index attr array position →
      array.lower scope .operand supply =
        .ok ⟨some (.var name ty), arrayCode⟩ first →
      position.lower scope .operand first =
        .ok ⟨some place, placeCode⟩ second →
      value.lower scope (.assigned .int) second =
        .ok ⟨some op, valueCode⟩ after → motive h)
    (expr : ∀ {span} {value : Expr} {supply lowered after}
      {h : (Stmt.expr span value).lower scope supply =
        .ok lowered.code after},
      value.lower scope .discarded supply = .ok lowered after → motive h)
    (retVoid : ∀ {span supply}
      {h : (Stmt.ret span none).lower scope supply =
        .ok [Fragment.instr (.ret .void none)] supply}, motive h)
    (ret : ∀ {span} {value : Expr} {supply op after} {code : List Fragment}
      {h : (Stmt.ret span (some value)).lower scope supply =
        .ok (code ++ [Fragment.instr
          (.ret scope.returnTy.valueTy (some op))]) after},
      value.lower scope (.returned scope.returnTy.valueTy) supply =
        .ok ⟨some op, code⟩ after → motive h)
    (ifThen : ∀ {span} {cond : Expr} {onTrue : Stmt}
      {supply first second third after : Supply} {op : Operand}
      {thenLabel endLabel : String} {condCode trueCode : List Fragment}
      {h : (Stmt.ifThen span cond onTrue).lower scope supply =
        .ok (thenGoto endLabel
            (condCode ++ [Fragment.instr (.branch op thenLabel)])
          ++ Fragment.label thenLabel :: trueCode
          ++ [Fragment.label endLabel]) after}
      (_ : cond.lower scope .operand supply = .ok ⟨some op, condCode⟩ first)
      (_ : Lower.label "then" first = .ok thenLabel second)
      (_ : Lower.label "endif" second = .ok endLabel third)
      (whenTrue : onTrue.lower scope third = .ok trueCode after),
      motive whenTrue → motive h)
    (ifElse : ∀ {span} {cond : Expr} {onTrue onFalse : Stmt}
      {supply first second third fourth after : Supply} {op : Operand}
      {thenLabel endLabel : String}
      {condCode falseCode trueCode : List Fragment}
      {h : (Stmt.ifElse span cond onTrue onFalse).lower scope supply =
        .ok (thenGoto endLabel
            (condCode ++ Fragment.instr (.branch op thenLabel) :: falseCode)
          ++ Fragment.label thenLabel :: trueCode
          ++ [Fragment.label endLabel]) after}
      (_ : cond.lower scope .operand supply = .ok ⟨some op, condCode⟩ first)
      (_ : Lower.label "then" first = .ok thenLabel second)
      (_ : Lower.label "endif" second = .ok endLabel third)
      (whenFalse : onFalse.lower scope third = .ok falseCode fourth)
      (whenTrue : onTrue.lower scope fourth = .ok trueCode after),
      motive whenFalse → motive whenTrue → motive h)
    (loop : ∀ {span} {cond : Expr} {body : Stmt}
      {supply first second third fourth after : Supply} {op : Operand}
      {condLabel bodyLabel endLabel : String}
      {condCode bodyCode : List Fragment}
      {h : (Stmt.loop span cond body).lower scope supply =
        .ok (thenGoto condLabel
            (Fragment.label condLabel :: condCode ++
              [Fragment.instr (.branch op bodyLabel),
                Fragment.instr (.goto endLabel),
                Fragment.label bodyLabel] ++ bodyCode)
          ++ [Fragment.label endLabel]) after}
      (_ : Lower.label "whileCond" supply = .ok condLabel first)
      (_ : Lower.label "whileBody" first = .ok bodyLabel second)
      (_ : Lower.label "whileEnd" second = .ok endLabel third)
      (_ : cond.lower scope .operand third = .ok ⟨some op, condCode⟩ fourth)
      (inside : body.lower scope fourth = .ok bodyCode after),
      motive inside → motive h)
    {stmt : Stmt} {supply : Supply} {code : List Fragment} {after : Supply}
    (h : stmt.lower scope supply = .ok code after) : motive h := by
  induction stmt generalizing supply code after with
  | block span body each =>
      induction body generalizing supply code with
      | nil =>
          obtain ⟨rfl, rfl⟩ := Action.pure_eq_ok.mp h
          exact nil
      | cons stmt rest ih =>
          rw [lower] at h
          obtain ⟨stmtCode, mid, restCode, hstmt, hrest, rfl⟩ :=
            lowerAll_cons_eq_ok h
          have others : (Stmt.block span rest).lower scope mid =
              .ok restCode after := by rwa [lower]
          exact cons hstmt others (each stmt (by simp) hstmt)
            (ih (fun stmt member => each stmt (by simp [member])) others)
  | assign span target value =>
      rw [lower] at h
      rcases assign_eq_ok h with ⟨attr, name, symbol, isVar, origin, hvar⟩ |
        ⟨attr, name, symbol, isVar, origin, hfield⟩ |
        ⟨attr, array, position, isIndex, helement⟩
      · rcases assignVar_eq_ok hvar with
          ⟨step, hstep, rfl, rfl⟩ | ⟨op, valueCode, hvalue, rfl⟩
        · exact increment isVar origin hstep
        · exact assignVar isVar origin hvalue
      · obtain ⟨op, valueCode, hvalue, rfl⟩ := assignField_eq_ok hfield
        exact assignField isVar origin hvalue
      · obtain ⟨name, ty, arrayCode, first, place, placeCode, second, op,
          valueCode, harray, hposition, hvalue, rfl⟩ :=
          assignElement_eq_ok helement
        exact assignElement isIndex harray hposition hvalue
  | expr span value =>
      obtain ⟨lowered, hvalue, rfl⟩ := lower_expr_eq_ok h
      exact expr hvalue
  | ret span value =>
      rw [lower] at h
      cases value with
      | none =>
          obtain ⟨rfl, rfl⟩ := ret_none_eq_ok h
          exact retVoid
      | some value =>
          obtain ⟨op, valueCode, hvalue, rfl⟩ := ret_some_eq_ok h
          exact ret hvalue
  | ifThen span cond onTrue ih =>
      obtain ⟨op, condCode, first, thenLabel, second, endLabel, third,
        trueCode, hcond, hthen, hend, htrue, rfl⟩ := lower_ifThen_eq_ok h
      exact ifThen hcond hthen hend htrue (ih htrue)
  | ifElse span cond onTrue onFalse ihTrue ihFalse =>
      obtain ⟨op, condCode, first, thenLabel, second, endLabel, third,
        falseCode, fourth, trueCode, hcond, hthen, hend, hfalse, htrue,
        rfl⟩ := lower_ifElse_eq_ok h
      exact ifElse hcond hthen hend hfalse htrue (ihFalse hfalse)
        (ihTrue htrue)
  | loop span cond body ih =>
      obtain ⟨condLabel, first, bodyLabel, second, endLabel, third, op,
        condCode, fourth, bodyCode, hcondLabel, hbodyLabel, hendLabel, hcond,
        hbody, rfl⟩ := lower_loop_eq_ok h
      exact loop hcondLabel hbodyLabel hendLabel hcond hbody (ih hbody)

theorem lower_of_lowerAll {stmts : List Stmt} {supply after : Supply}
    {code : List Fragment}
    (h : lowerAll scope stmts supply = .ok code after) :
    (Stmt.block {} stmts).lower scope supply = .ok code after := by
  rwa [lower]

end Tree.Stmt

end JavaMinus
