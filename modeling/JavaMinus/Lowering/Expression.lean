import JavaMinus.Lowering.Supply
import JavaMinus.Symbols.Scope

/-!
# Lowering expressions

An expression becomes an operand for its value and the code that computes it.
Where the value goes decides how much is copied:

* a call whose value is dropped needs no temporary;
* a call whose value is assigned or returned has a temporary of the type that
  is asked for;
* an array element that is assigned or returned is used in place, and is
  copied otherwise.
-/

namespace JavaMinus

open Ir (Operand Instr Call CallKind Fragment FieldRef)

inductive Destination where
  | discarded
  | assigned (ty : Ty)
  | returned (ty : Ty)
  | operand
  deriving DecidableEq

structure Lowered where
  result : Option Operand
  code : List Fragment

namespace Lowered

def ofOperand (operand : Operand) : Lowered := ⟨some operand, []⟩

def parts (lowered : Lowered) : Lower (Operand × List Fragment) :=
  match lowered.result with
  | some operand => pure (operand, lowered.code)
  | none => throw .noValue

end Lowered

namespace Lowering

def intoTemp (ty : Ty) (code : List Fragment) (value : Instr) :
    Lower Lowered := do
  let temp ← Lower.temp ty
  pure ⟨some temp, code ++ [.instr (.store temp value)]⟩

def fieldRef (scope : Scope) (symbol : Symbol) : FieldRef :=
  { owner := scope.className, name := symbol.name, ty := symbol.ty.valueTy }

def readName (scope : Scope) (name : String) : Lower Lowered :=
  match scope.resolve name with
  | .localVar symbol | .param symbol =>
      pure (.ofOperand (.var name symbol.ty.valueTy))
  | .field symbol =>
      let field := fieldRef scope symbol
      intoTemp field.ty [] (.getField (.self scope.className) field)
  | .enclosing => pure (.ofOperand (.self scope.className))
  | .imported _ | .unknown => pure (.ofOperand (.var name (.object name)))

/-! ## Arrays -/

def newArray (size : Operand) : Instr :=
  .call {
    kind := .new, target := .var "array" .intArray
    args := [size], returnTy := .intArray }

def elementStores (array : String) (values : List Operand) : List Fragment :=
  values.zipIdx.map fun (value, index) =>
    .instr (.store (.element array (.int (Int32.ofNat index)))
      (.single value))

def packArray (values : List Operand) : Lower (Operand × List Fragment) := do
  let array ← Lower.temp .intArray
  match array.varName? with
  | none => throw .unnamedArray
  | some name =>
      if 2147483647 < values.length then throw .arrayTooLong
      else
        let size := .int (Int32.ofNat values.length)
        pure (array,
          .instr (.store array (newArray size)) :: elementStores name values)

def arrayName : Operand → Lower String
  | .var name _ => pure name
  | operand => throw (.notIndexable operand)

/-! ## Calls -/

/-- How a receiver is addressed that takes no code to compute. -/
def directReceiver? (scope : Scope) (receiver : Tree.Expr) :
    Option (CallKind × Operand) :=
  match receiver.skipParens with
  | .self _ => some (.virtual, .self scope.className)
  | .var _ name =>
      match scope.resolve name with
      | .localVar symbol | .param symbol =>
          some (.virtual, .var name symbol.ty.valueTy)
      | .field _ => none
      | .enclosing => some (.virtual, .self scope.className)
      | .imported _ | .unknown => some (.static, .var name (.object name))
  | _ => none

def callee? (scope : Scope) (kind : CallKind) (target : Operand)
    (method : String) : Option Signature :=
  if kind = .virtual ∧ target.ty.className? = some scope.className then
    scope.table.method? method
  else none

/--
The arguments as the callee takes them.  Those in the place of a vararg are
packed into an array, unless an array is all that is passed there.
-/
def packVarargs (callee : Option Signature) (args : List Operand) :
    Lower (List Operand × List Fragment) :=
  match callee with
  | none => pure (args, [])
  | some signature =>
      if !signature.hasVararg then pure (args, [])
      else
        let fixed := signature.params.length - 1
        let extra := args.drop fixed
        if args.length < fixed then
          throw (.tooFewArguments signature.name args.length fixed)
        else match extra with
          | [single] =>
              if single.ty.isArray then pure (args, [])
              else pack fixed extra
          | _ => pack fixed extra
where
  pack (fixed : Nat) (extra : List Operand) :
      Lower (List Operand × List Fragment) := do
    let (array, code) ← packArray extra
    pure (args.take fixed ++ [array], code)

def callTy (callee : Option Signature) (ty : Ty) : Destination → Ty
  | .assigned wanted | .returned wanted => wanted
  | .operand => ty.valueTy
  | .discarded =>
      match callee with
      | some signature => signature.returnTy.valueTy
      | none => ty.valueTy

def finishCall (call : Call) (code : List Fragment) :
    Destination → Lower Lowered
  | .discarded => pure ⟨none, code ++ [.instr (.call call)]⟩
  | _ => intoTemp call.returnTy code (.call call)

/-- An element of an array, in place or copied. -/
def finishElement (element : Operand) (code : List Fragment) :
    Destination → Lower Lowered
  | .assigned _ | .returned _ => pure ⟨some element, code⟩
  | .operand | .discarded => intoTemp .int code (.single element)

end Lowering

namespace Tree.Expr

open Lowering

mutual

def lower (scope : Scope) : Expr → Destination → Lower Lowered
  | .int _ value, _ => pure (.ofOperand (.int value))
  | .bool _ value, _ => pure (.ofOperand (.bool value))
  | .var _ name, _ => Lowering.readName scope name
  | .self _, _ => pure (.ofOperand (.self scope.className))
  | .paren _ inner, dest => inner.lower scope dest
  | .binary _ .and left right, _ => do
      let (left, leftCode) ← (← left.lower scope .operand).parts
      let result ← Lower.temp .boolean
      let rightLabel ← Lower.label "andRight"
      let endLabel ← Lower.label "andEnd"
      let (right, rightCode) ← (← right.lower scope .operand).parts
      pure ⟨some result,
        leftCode ++
          [.instr (.branch left rightLabel),
            .instr (.store result (.single (.bool false))),
            .instr (.goto endLabel),
            .label rightLabel] ++
          rightCode ++
          [.instr (.store result (.single right)), .label endLabel]⟩
  | .binary attr op left right, _ => do
      let (left, leftCode) ← (← left.lower scope .operand).parts
      let (right, rightCode) ← (← right.lower scope .operand).parts
      intoTemp attr.ty (leftCode ++ rightCode)
        (.binary op left right attr.ty)
  | .not _ operand, _ => do
      let (operand, code) ← (← operand.lower scope .operand).parts
      intoTemp .boolean code (.not operand .boolean)
  | .call attr receiver method args, dest => do
      let (kind, target, targetCode) ←
        match directReceiver? scope receiver with
        | some (kind, target) => pure (kind, target, [])
        | none => do
            let (target, code) ← (← receiver.lower scope .operand).parts
            pure (CallKind.virtual, target, code)
      let callee := callee? scope kind target method
      let (args, argCode) ← lowerAll scope args
      let (args, packCode) ← packVarargs callee args
      let returnTy := callTy callee attr.ty dest
      finishCall { kind, target, method := some method, args, returnTy }
        (targetCode ++ argCode ++ packCode) dest
  | .newObject _ className, _ => do
      let ty := Ty.object className
      let temp ← Lower.temp ty
      let allocation : Call :=
        { kind := .new, target := .var className ty, returnTy := ty }
      let start : Call := {
        kind := .special, target := temp
        method := some "<init>", returnTy := .void }
      pure ⟨some temp,
        [.instr (.store temp (.call allocation)), .instr (.call start)]⟩
  | .newArray _ size, _ => do
      let (size, code) ← (← size.lower scope .operand).parts
      intoTemp .intArray code (Lowering.newArray size)
  | .arrayLiteral _ elements, _ => do
      let (values, code) ← lowerAll scope elements
      let (array, packCode) ← packArray values
      pure ⟨some array, code ++ packCode⟩
  | .index _ array position, dest => do
      let (array, arrayCode) ← (← array.lower scope .operand).parts
      let name ← arrayName array
      let (position, code) ← (← position.lower scope .operand).parts
      finishElement (.element name position) (arrayCode ++ code) dest
  | .length _ array, _ => do
      let (array, code) ← (← array.lower scope .operand).parts
      intoTemp .int code
        (.call { kind := .arrayLength, target := array, returnTy := .int })

def lowerAll (scope : Scope) :
    List Expr → Lower (List Operand × List Fragment)
  | [] => pure ([], [])
  | expr :: rest => do
      let (operand, code) ← (← expr.lower scope .operand).parts
      let (operands, restCode) ← lowerAll scope rest
      pure (operand :: operands, code ++ restCode)

end

def lowerOperand (scope : Scope) (expr : Expr) :
    Lower (Operand × List Fragment) := do
  (← expr.lower scope .operand).parts

end Tree.Expr

end JavaMinus
