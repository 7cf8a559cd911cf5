import JavaMinus.Proofs.Semantics.Machine
import JavaMinus.Proofs.Tree.Induction
import JavaMinus.Symbols.Scope

/-!
# The meaning of trees

Expressions are evaluated strictly from left to right; only the right side of
`&&` may be left out.  They never change a variable.  A statement runs on the
variables of its method and on the world.  Loops have no bound: a run is
followed with some fuel, and one that ends with any fuel ends.
-/

namespace JavaMinus.Tree

/-! ## Settings -/

structure Setting where
  className : String
  self : Value
  resolve : String → Origin
  typeOf : Expr → Ty
  method? : String → Option Signature
  oracle : Oracle

namespace Setting

/-- The class that the receiver of a call names, if it is no value. -/
def classOf? (setting : Setting) (receiver : Expr) : Option String :=
  match receiver.skipParens with
  | .var _ name =>
      match setting.resolve name with
      | .imported _ | .unknown => some name
      | .localVar _ | .param _ | .field _ | .enclosing => none
  | _ => none

def callee? (setting : Setting) (receiver : Expr) (method : String) :
    Option Signature :=
  if (setting.typeOf receiver).className? = some setting.className then
    setting.method? method
  else none

def read (setting : Setting) (locals : Locals) (name : String) :
    Effect Value :=
  match setting.resolve name with
  | .localVar _ | .param _ => Effect.read locals name
  | .field symbol => Effect.getField setting.self { name := symbol.name }
  | .enclosing => pure setting.self
  | .imported _ | .unknown => Effect.stuck

end Setting

/--
The values that a method is passed.  Those in the place of a vararg go into a
new array, unless all that is passed there is of an array type.
-/
def passed (callee : Option Signature) (types : List Ty)
    (values : List Value) : Effect (List Value) :=
  match callee with
  | none => pure values
  | some signature =>
      if !signature.hasVararg then pure values
      else
        let fixed := signature.params.length - 1
        if values.length < fixed then Effect.stuck
        else if (types.drop fixed).map Ty.isArray = [true] then pure values
        else do
          let array ← Effect.arrayOf (values.drop fixed)
          pure (values.take fixed ++ [array])

/-! ## Expressions -/

namespace Expr

mutual

def eval (setting : Setting) (locals : Locals) : Expr → Effect Value
  | .int _ value => pure (.word value)
  | .bool _ value => pure (.ofBool value)
  | .var _ name => setting.read locals name
  | .self _ => pure setting.self
  | .binary _ .and left right => do
      let left ← left.eval setting locals
      let truth ← Effect.truth left
      if truth then do
        let right ← right.eval setting locals
        let truth ← Effect.truth right
        pure (.ofBool truth)
      else pure (.ofBool false)
  | .binary _ op left right => do
      let left ← left.eval setting locals
      let right ← right.eval setting locals
      Effect.operate op left right
  | .not _ operand => do
      let value ← operand.eval setting locals
      let truth ← Effect.truth value
      pure (.ofBool !truth)
  | .paren _ inner => inner.eval setting locals
  | .call _ receiver method args =>
      match setting.classOf? receiver with
      | some owner => do
          let values ← evalAll setting locals args
          Effect.call setting.oracle
            { kind := .static, owner := some owner, name := method } values
      | none => do
          let object ← receiver.eval setting locals
          let values ← evalAll setting locals args
          let values ← passed (setting.callee? receiver method)
            (args.map setting.typeOf) values
          Effect.call setting.oracle
            { kind := .virtual
              owner := (setting.typeOf receiver).className?
              name := method }
            (object :: values)
  | .newObject _ className => do
      let object ← Effect.call setting.oracle
        { kind := .new, owner := some className } []
      let _ ← Effect.call setting.oracle
        { kind := .special, owner := some className, name := "<init>" }
        [object]
      pure object
  | .newArray _ size => do
      let size ← size.eval setting locals
      Effect.newArray size
  | .arrayLiteral _ elements => do
      let values ← evalAll setting locals elements
      Effect.arrayOf values
  | .index _ array position => do
      let array ← array.eval setting locals
      let position ← position.eval setting locals
      Effect.load array position
  | .length _ array => do
      let array ← array.eval setting locals
      Effect.length array

def evalAll (setting : Setting) (locals : Locals) :
    List Expr → Effect (List Value)
  | [] => pure []
  | expr :: rest => do
      let value ← expr.eval setting locals
      let values ← evalAll setting locals rest
      pure (value :: values)

end

theorem eval_binary (setting : Setting) (locals : Locals) (attr : Attr)
    {op : Operator} (left right : Expr) (strict : op ≠ .and) :
    (Expr.binary attr op left right).eval setting locals = (do
      let left ← left.eval setting locals
      let right ← right.eval setting locals
      Effect.operate op left right) := by
  rw [eval]
  exact strict

theorem eval_skipParens (setting : Setting) (locals : Locals) (expr : Expr) :
    expr.skipParens.eval setting locals = expr.eval setting locals := by
  induction expr with
  | paren attr inner ih => rw [skipParens, eval, ih]
  | _ => rfl

theorem eval_of_literal {setting : Setting} {locals : Locals} {expr : Expr}
    {value : Int32} (h : expr.literal? = some value) :
    expr.eval setting locals = pure (.word value) := by
  rw [← eval_skipParens]
  rw [literal?] at h
  cases form : expr.skipParens with
  | int attr other =>
      simp only [form, Option.some.injEq] at h
      rw [eval, h]
  | _ => simp [form] at h

end Expr

/-! ## Statements -/

structure State where
  locals : Locals
  world : World

instance : HasWorld State := ⟨State.world⟩

abbrev Exec := EStateM Exit State

namespace Exec

variable {α : Type}

/-- An action that may read the variables, but not change them. -/
def effect (action : Locals → Effect α) : Exec α := fun state =>
  match action state.locals state.world with
  | .ok value world => .ok value { state with world }
  | .error exit world => .error exit { state with world }

def setLocal (name : String) (value : Value) : Exec Unit :=
  modify fun state => { state with locals := state.locals.set name value }

def loop (condition : Exec Bool) (body : Exec Unit) : Nat → Exec Unit
  | 0 => throw .outOfFuel
  | fuel + 1 => do
      let truth ← condition
      if truth then do
        body
        loop condition body fuel
      else pure ()

end Exec

def Expr.holds (setting : Setting) (cond : Expr) : Exec Bool :=
  Exec.effect fun locals => do
    let value ← cond.eval setting locals
    Effect.truth value

namespace Stmt

def execAssign (setting : Setting) (target value : Expr) : Exec Unit :=
  match target.skipParens with
  | .var _ name =>
      match setting.resolve name with
      | .localVar _ | .param _ => do
          let value ← Exec.effect fun locals => value.eval setting locals
          Exec.setLocal name value
      | .field symbol =>
          Exec.effect fun locals => do
            let value ← value.eval setting locals
            Effect.putField setting.self { name := symbol.name } value
      | .imported _ | .enclosing | .unknown => throw .stuck
  | .index _ array position =>
      Exec.effect fun locals => do
        let array ← array.eval setting locals
        let position ← position.eval setting locals
        let value ← value.eval setting locals
        Effect.store array position value
  | _ => throw .stuck

mutual

def exec (setting : Setting) (fuel : Nat) : Stmt → Exec Unit
  | .block _ body => execAll setting fuel body
  | .assign _ target value => execAssign setting target value
  | .expr _ value =>
      Exec.effect fun locals => do
        let _ ← value.eval setting locals
        pure ()
  | .ret _ none => throw (.returned none)
  | .ret _ (some value) =>
      Exec.effect fun locals => do
        let value ← value.eval setting locals
        throw (.returned (some value))
  | .ifThen _ cond onTrue => do
      let truth ← cond.holds setting
      if truth then onTrue.exec setting fuel else pure ()
  | .ifElse _ cond onTrue onFalse => do
      let truth ← cond.holds setting
      if truth then onTrue.exec setting fuel else onFalse.exec setting fuel
  | .loop _ cond body =>
      Exec.loop (cond.holds setting) (body.exec setting fuel) fuel

def execAll (setting : Setting) (fuel : Nat) : List Stmt → Exec Unit
  | [] => pure ()
  | stmt :: rest => do
      stmt.exec setting fuel
      execAll setting fuel rest

end

end Stmt

/-! ## Methods -/

/--
Runs the body of a method.  A method without a result returns at its end; no
other method may get there.
-/
def Method.run (setting : Setting) (fuel : Nat) (method : Method) :
    Exec Unit := do
  Stmt.execAll setting fuel method.body
  throw (if method.returnTy.isVoid then .returned none else .stuck)

def Method.Ends (setting : Setting) (method : Method) (start : State)
    (exit : Exit) (final : State) : Prop :=
  exit ≠ .outOfFuel ∧
    ∃ fuel, method.run setting fuel start = .error exit final

end JavaMinus.Tree

namespace JavaMinus

/-! ## Scopes as settings -/

namespace Scope

/--
The type of the value of an expression: that of its declaration for a name,
and otherwise what its form or its attribute says.
-/
def typeOf (scope : Scope) : Tree.Expr → Ty
  | .int _ _ | .index _ _ _ | .length _ _ => .int
  | .bool _ _ | .not _ _ => .boolean
  | .var _ name =>
      match scope.resolve name with
      | .localVar symbol | .param symbol | .field symbol => symbol.ty.valueTy
      | .enclosing => .object scope.className
      | .imported _ | .unknown => .object name
  | .self _ => .object scope.className
  | .binary attr op _ _ => if op = .and then .boolean else attr.ty
  | .paren _ inner => scope.typeOf inner
  | .call attr _ _ _ => attr.ty.valueTy
  | .newObject _ className => .object className
  | .newArray _ _ | .arrayLiteral _ _ => .intArray

def setting (scope : Scope) (self : Value) (oracle : Oracle) :
    Tree.Setting where
  className := scope.className
  self
  resolve := scope.resolve
  typeOf := scope.typeOf
  method? := scope.table.method?
  oracle

end Scope

end JavaMinus
