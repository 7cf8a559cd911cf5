import JavaMinus.Lowering.Statement

/-!
# Lowering methods and classes

The fragments of a method body are split into its instructions and its label
table.  Every class gets a constructor that only calls the one of its
superclass.
-/

namespace JavaMinus

open Ir (Instr Fragment Labels)

namespace Lowering

def instrs (code : List Fragment) : List Instr :=
  code.filterMap fun
    | .instr instr => some instr
    | .label _ => none

/-- Adds the labels of code that follows `count` instructions to a table. -/
def placeLabels : Nat → List Fragment → Labels → Labels
  | _, [], labels => labels
  | count, .label name :: rest, labels =>
      placeLabels count rest (labels.place name count)
  | count, .instr _ :: rest, labels => placeLabels (count + 1) rest labels

/-- The labels without those past the last instruction that nothing uses. -/
def pruneLabels (code : List Instr) (labels : Labels) : Labels :=
  labels.filter fun (name, place) =>
    place ≠ code.length || code.any fun instr => instr.target? = some name

/--
The instructions of a method.  A method without a result returns at its end,
unless the code ends with a return that no label follows.
-/
def close (returnTy : Ty) (code : List Instr) (labels : Labels) :
    List Instr :=
  let returns := match code.getLast? with
    | some instr => instr.isReturn
    | none => false
  let labelled := labels.any fun (_, place) => place = code.length
  if returnTy.isVoid && (!returns || labelled) then
    code ++ [.ret .void none]
  else code

def defaultConstructor (className : String) : Ir.Method where
  name := className
  isConstructor := true
  returnTy := .void
  instrs := [
    .call {
      kind := .special, target := .self className
      method := some "<init>", returnTy := .void },
    .ret .void none]
  registers := .ofMethod false []

end Lowering

namespace Tree

open Lowering

/--
Lowers a method.  The parameters are those of the symbol table if it knows
the method.
-/
def Method.lower (table : SymbolTable) (method : Method) :
    Lower Ir.Method := do
  let params := match table.method? method.name with
    | some signature => signature.params
    | none => method.params.map Variable.symbol
  modify (Supply.reserve
    (params.map Symbol.name ++
      (table.locals method.name).map Symbol.name ++
      method.locals.map Variable.name))
  let code ← Stmt.lowerAll { table, method := method.name } method.body
  let body := Lowering.instrs code
  let labels := pruneLabels body (placeLabels 0 code [])
  pure {
    name := method.name
    isPublic := method.isPublic
    isStatic := method.isStatic
    isFinal := method.isFinal
    params
    returnTy := method.returnTy
    instrs := close method.returnTy body labels
    labels
    registers := .ofMethod method.isStatic (params.map Symbol.name) }

def Method.lowerAll (table : SymbolTable) :
    List Method → Lower (List Ir.Method)
  | [] => pure []
  | method :: rest => do
      let method ← method.lower table
      let rest ← lowerAll table rest
      pure (method :: rest)

def Program.lower (table : SymbolTable) (program : Program) :
    Lower Ir.Class := do
  let decl := program.declared
  let methods ← Method.lowerAll table decl.methods
  pure {
    name := decl.name
    superclass := decl.superclass
    imports := program.imports.map Import.dotted
    fields := decl.fields.map fun field =>
      { name := field.name, ty := field.ty.valueTy }
    methods := methods ++ [defaultConstructor decl.name] }

end Tree

end JavaMinus
