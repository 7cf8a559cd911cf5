import JavaMinus.Lowering.Expression

/-!
# Lowering statements

Conditionals and loops become labels and jumps.  The code of the second
branch of a conditional comes first, and a jump over code that cannot be
reached is left out.
-/

namespace JavaMinus

open Ir (Operand Instr Fragment)

namespace Lowering

def fallsThrough (code : List Fragment) : Bool :=
  match code.getLast? with
  | some (.instr instr) => !instr.isJump
  | _ => true

/-- The code, with a jump at its end if control gets there. -/
def thenGoto (label : String) (code : List Fragment) : List Fragment :=
  if fallsThrough code then code ++ [.instr (.goto label)] else code

/--
The new value of an int variable that is moved on by a literal, as one
operation, so that it can be emitted as an increment in place.
-/
def increment? (name : String) (ty : Ty) (value : Tree.Expr) :
    Option Instr :=
  if ty ≠ .int then none
  else match value.skipParens with
    | .binary _ op left right =>
        if op ≠ .add ∧ op ≠ .sub then none
        else if left.reads name then
          right.literal?.map fun step =>
            .binary op (.var name .int) (.int step) .int
        else if op = .add ∧ right.reads name then
          left.literal?.map fun step =>
            .binary op (.int step) (.var name .int) .int
        else none
    | _ => none

def assignVar (scope : Scope) (name : String) (ty : Ty)
    (value : Tree.Expr) : Lower (List Fragment) :=
  let dest := .var name ty
  match increment? name ty value with
  | some step => pure [.instr (.store dest step)]
  | none => do
      let (operand, code) ← (← value.lower scope (.assigned ty)).parts
      pure (code ++ [.instr (.store dest (.single operand))])

def assignField (scope : Scope) (symbol : Symbol) (value : Tree.Expr) :
    Lower (List Fragment) := do
  let field := fieldRef scope symbol
  let (operand, code) ← (← value.lower scope (.assigned field.ty)).parts
  pure (code ++
    [.instr (.putField (.self scope.className) field operand)])

/-- The array is computed before the position, and that before the value. -/
def assignElement (scope : Scope) (array position value : Tree.Expr) :
    Lower (List Fragment) := do
  let (array, arrayCode) ← array.lowerOperand scope
  let name ← arrayName array
  let (position, positionCode) ← position.lowerOperand scope
  let (operand, code) ← (← value.lower scope (.assigned .int)).parts
  pure (arrayCode ++ positionCode ++ code ++
    [.instr (.store (.element name position) (.single operand))])

def assign (scope : Scope) (target value : Tree.Expr) :
    Lower (List Fragment) :=
  match target.skipParens with
  | .var _ name =>
      match scope.resolve name with
      | .localVar symbol | .param symbol =>
          assignVar scope name symbol.ty.valueTy value
      | .field symbol => assignField scope symbol value
      | .imported _ | .enclosing | .unknown => throw (.notAssignable name)
  | .index _ array position => assignElement scope array position value
  | _ => throw (.badTarget target)

def ret (scope : Scope) : Option Tree.Expr → Lower (List Fragment)
  | none => pure [.instr (.ret .void none)]
  | some value => do
      let ty := scope.returnTy.valueTy
      let (operand, code) ← (← value.lower scope (.returned ty)).parts
      pure (code ++ [.instr (.ret ty (some operand))])

end Lowering

namespace Tree.Stmt

open Lowering

mutual

def lower (scope : Scope) : Stmt → Lower (List Fragment)
  | .block _ body => lowerAll scope body
  | .assign _ target value => Lowering.assign scope target value
  | .expr _ value => do
      let lowered ← value.lower scope .discarded
      pure lowered.code
  | .ret _ value => Lowering.ret scope value
  | .ifThen _ cond onTrue => do
      let (condition, code) ← cond.lowerOperand scope
      let thenLabel ← Lower.label "then"
      let endLabel ← Lower.label "endif"
      let trueCode ← onTrue.lower scope
      pure (thenGoto endLabel (code ++ [.instr (.branch condition thenLabel)])
        ++ .label thenLabel :: trueCode ++ [.label endLabel])
  | .ifElse _ cond onTrue onFalse => do
      let (condition, code) ← cond.lowerOperand scope
      let thenLabel ← Lower.label "then"
      let endLabel ← Lower.label "endif"
      let falseCode ← onFalse.lower scope
      let trueCode ← onTrue.lower scope
      pure (thenGoto endLabel
          (code ++ .instr (.branch condition thenLabel) :: falseCode)
        ++ .label thenLabel :: trueCode ++ [.label endLabel])
  | .loop _ cond body => do
      let condLabel ← Lower.label "whileCond"
      let bodyLabel ← Lower.label "whileBody"
      let endLabel ← Lower.label "whileEnd"
      let (condition, code) ← cond.lowerOperand scope
      let bodyCode ← body.lower scope
      pure (thenGoto condLabel
          (.label condLabel :: code ++
            [.instr (.branch condition bodyLabel), .instr (.goto endLabel),
              .label bodyLabel] ++ bodyCode)
        ++ [.label endLabel])

def lowerAll (scope : Scope) : List Stmt → Lower (List Fragment)
  | [] => pure []
  | stmt :: rest => do
      let code ← stmt.lower scope
      let restCode ← lowerAll scope rest
      pure (code ++ restCode)

end

end Tree.Stmt

end JavaMinus
