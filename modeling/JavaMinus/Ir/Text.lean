import JavaMinus.Ir.Basic

/-!
# Three-address code as text

Every operand is followed by its type and every operator carries the type of
its result, as in `tmp0.i32 :=.i32 a.i32 +.i32 1.i32`.
-/

namespace JavaMinus.Ir

def FieldRef.text (field : FieldRef) : String :=
  field.name ++ "." ++ field.ty.suffix

namespace Operand

def text : Operand → String
  | .literal value ty => toString value.toInt ++ "." ++ ty.suffix
  | .var name ty => name ++ "." ++ ty.suffix
  | .element array position => array ++ "[" ++ position.text ++ "].i32"
  | .self className => "this." ++ className
  | .field ref => ref.text

/-- A variable without its type; it stands for a class then. -/
def bareText : Operand → String
  | .var name _ => name
  | operand => operand.text

end Operand

def Call.text (call : Call) : String :=
  let quoted := "\"" ++ call.method.getD "" ++ "\""
  let args := String.join (call.args.map fun arg => ", " ++ arg.text)
  let close := ")." ++ call.returnTy.suffix
  match call.kind with
  | .new =>
      "new(" ++ (if call.returnTy.isArray then "array"
        else call.target.bareText) ++ args ++ close
  | .special =>
      "invokespecial(" ++ call.target.text ++ ", " ++ quoted ++ args ++ close
  | .virtual =>
      "invokevirtual(" ++ call.target.text ++ ", " ++ quoted ++ args ++ close
  | .static =>
      "invokestatic(" ++ call.target.bareText ++ ", " ++ quoted ++ args ++
        close
  | .arrayLength => "arraylength(" ++ call.target.text ++ close

def Instr.text : Instr → String
  | .assign dest ty value =>
      dest.text ++ " :=." ++ ty.suffix ++ " " ++ value.text
  | .single operand => operand.text
  | .binary op left right ty =>
      left.text ++ " " ++ op.symbol ++ "." ++ ty.suffix ++ " " ++ right.text
  | .not operand ty => "!." ++ ty.suffix ++ " " ++ operand.text
  | .call invocation => invocation.text
  | .getField object field =>
      "getfield(" ++ object.text ++ ", " ++ field.text ++ ")." ++
        field.ty.suffix
  | .putField object field value =>
      "putfield(" ++ object.text ++ ", " ++ field.text ++ ", " ++
        value.text ++ ").V"
  | .branch condition label => "if (" ++ condition.text ++ ") goto " ++ label
  | .goto label => "goto " ++ label
  | .ret ty (some operand) => "ret." ++ ty.suffix ++ " " ++ operand.text
  | .ret ty none => "ret." ++ ty.suffix

def Fragment.text : Fragment → String
  | .label name => name ++ ":"
  | .instr code => code.text

def modifierText (isPublic isStatic isFinal : Bool) : String :=
  (if isPublic then "public " else "") ++
    (if isStatic then "static " else "") ++
    (if isFinal then "final " else "")

def Field.text (field : Field) : String :=
  ".field " ++ modifierText field.isPublic field.isStatic field.isFinal ++
    field.name ++ "." ++ field.ty.suffix ++ ";"

namespace Method

def headText (method : Method) : String :=
  (if method.isConstructor then ".construct "
    else ".method " ++
      modifierText method.isPublic method.isStatic method.isFinal) ++
    method.name ++ "(" ++
    ", ".intercalate
      (method.params.map fun param => param.name ++ "." ++ param.ty.suffix) ++
    ")." ++ method.returnTy.suffix ++ " \x7b\n"

def labelText (method : Method) (index : Nat) : String :=
  String.join
    ((method.labels.before index).map fun label => "   " ++ label ++ ":\n")

def text (method : Method) : String :=
  let body := method.instrs.zipIdx.map fun (instr, index) =>
    method.labelText index ++ "      " ++ instr.text ++ ";\n"
  method.headText ++ String.join body ++
    method.labelText method.instrs.length ++ "\x7d"

end Method

def Class.text (cls : Class) : String :=
  let imports := cls.imports.map fun path => "import " ++ path ++ ";\n"
  let fields := cls.fields.map fun field => field.text ++ "\n"
  let methods := cls.methods.map fun method => method.text ++ "\n\n"
  String.join imports ++ (if cls.imports.isEmpty then "" else "\n") ++
    cls.name ++ (cls.superclass.map (" extends " ++ ·)).getD "" ++
    " \x7b\n\n" ++
    String.join fields ++ (if cls.fields.isEmpty then "" else "\n") ++
    String.join methods ++ "\x7d\n"

end JavaMinus.Ir
