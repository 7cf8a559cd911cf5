import JavaMinus.Jvm.Emission

/-!
# Assembly

Classes for the assembler of the target machine: directives, the lines of the
methods, and the limits that the machine has to be told.
-/

namespace JavaMinus.Jvm

structure Limits where
  name : String
  maxStack : Nat
  maxLocals : Nat
  deriving DecidableEq

structure Method where
  isPublic : Bool
  isFinal : Bool
  isStatic : Bool
  name : String
  descriptor : String
  maxStack : Nat
  maxLocals : Nat
  lines : List Line
  deriving DecidableEq

structure Field where
  isPublic : Bool
  isFinal : Bool
  isStatic : Bool
  name : String
  descriptor : String
  deriving DecidableEq

/-- A class; names are binary names. -/
structure Class where
  name : String
  superName : String
  fields : List Field
  methods : List Method
  deriving DecidableEq

/-! ## Emission -/

namespace Gen

def labels : List String → Gen Unit
  | [] => pure ()
  | name :: rest => do
      emit (.label name)
      labels rest

/--
Emits the instructions of a method from the one with this index on, each
after its labels.  Every instruction has to leave the stack empty.
-/
def body (linkage : Linkage) (place : Ir.Labels) (method : String) :
    Nat → List Ir.Instr → Gen Unit
  | index, [] => labels (place.before index)
  | index, code :: rest => do
      labels (place.before index)
      instr linkage code
      dropResult code
      let left ← depth
      if left ≠ 0 then throw (.unbalanced left code method)
      else body linkage place method (index + 1) rest

def method (linkage : Linkage) (name : String) (source : Ir.Method) :
    Gen Unit := do
  body linkage source.labels name 0 source.instrs
  if source.returnTy.isVoid && !source.endsWithReturn then
    emit (.plain .vreturn)

end Gen

def localCount (source : Ir.Method) (registers : Ir.Registers) : Nat :=
  max registers.size source.params.length +
    (if !source.isStatic && !registers.contains "this" then 1 else 0)

def maxLocals : Nat := 65535

namespace Method

def targetName (source : Ir.Method) : String :=
  if source.isConstructor then "<init>" else source.name

def ofIr (linkage : Linkage) (source : Ir.Method) : Except Error Method :=
  let name := targetName source
  match Gen.method linkage name source { registers := source.registers } with
  | .error cause _ => .error (.breach cause)
  | .ok _ frame =>
      let locals := localCount source frame.registers
      if Jvm.maxLocals < locals then .error (.tooManyLocals name)
      else .ok {
        isPublic := source.isPublic
        isFinal := source.isFinal
        isStatic := source.isStatic
        name
        descriptor := methodDescriptor linkage.names
          (source.params.map Symbol.ty) source.returnTy
        maxStack := frame.code.peak
        maxLocals := locals
        lines := frame.code.lines.toList }

def ofIrAll (linkage : Linkage) :
    List Ir.Method → Except Error (List Method)
  | [] => pure []
  | source :: rest => do
      let method ← ofIr linkage source
      let rest ← ofIrAll linkage rest
      pure (method :: rest)

def limits (method : Method) : Limits where
  name := method.name
  maxStack := method.maxStack
  maxLocals := method.maxLocals

end Method

def Field.ofIr (names : ClassNames) (source : Ir.Field) : Field where
  isPublic := source.isPublic
  isFinal := source.isFinal
  isStatic := source.isStatic
  name := source.name
  descriptor := source.ty.descriptor names

def Class.ofIr (table : SymbolTable) (source : Ir.Class) :
    Except Error Class := do
  let linkage : Linkage :=
    { className := source.name, superclass := source.superclass, table }
  let methods ← Method.ofIrAll linkage source.methods
  pure {
    name := linkage.names.binaryName source.name
    superName := linkage.superName
    fields := source.fields.map (Field.ofIr linkage.names)
    methods }

def Class.limits (cls : Class) : List Limits := cls.methods.map Method.limits

/-! ## Text -/

def modifierText (isPublic isFinal isStatic : Bool) : String :=
  (if isPublic then "public " else "private ") ++
    (if isFinal then "final " else "") ++
    (if isStatic then "static " else "")

def Field.text (field : Field) : String :=
  ".field " ++ modifierText field.isPublic field.isFinal field.isStatic ++
    field.name ++ " " ++ field.descriptor ++ "\n"

def Method.text (method : Method) : String :=
  ".method " ++
    modifierText method.isPublic method.isFinal method.isStatic ++
    method.name ++ method.descriptor ++ "\n" ++
    "   .limit stack " ++ toString method.maxStack ++ "\n" ++
    "   .limit locals " ++ toString method.maxLocals ++ "\n" ++
    String.join (method.lines.map fun line => line.text ++ "\n") ++
    ".end method\n"

def Class.text (cls : Class) : String :=
  ".class public " ++ cls.name ++ "\n" ++
    ".super " ++ cls.superName ++ "\n" ++
    String.join (cls.fields.map Field.text) ++
    String.join (cls.methods.map fun method => "\n" ++ method.text)

end JavaMinus.Jvm
