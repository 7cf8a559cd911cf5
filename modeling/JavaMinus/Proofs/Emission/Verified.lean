import JavaMinus.Proofs.Constants.Typing
import JavaMinus.Proofs.Emission.Linking
import JavaMinus.Proofs.Lowering.Typing

/-!
# Well-typed programs and the target machine

The target machine refuses a method if some way through it takes a value of
one kind for one of the other.  It refuses none of those that are emitted for
a well-typed program, whether or not that was simplified first.
-/

namespace JavaMinus

open Ir (Instr Labels)
open Lowering

/-! ## Names in methods -/

section Names

variable {scope : Scope} {before after : Supply} {temps : Naming}
  {name : String} {kind kind' : Kind}

theorem Supply.Types.ne_this (types : before.Types after temps)
    (isTemp : temps name kind) : name ≠ "this" := by
  obtain ⟨isNew, isReserved | ⟨number, _, rfl⟩⟩ := types.isNew name kind isTemp
  · exact absurd (.inl (types.reserved ▸ isReserved)) isNew
  · exact Supply.tempName_ne_this number

theorem Scope.resolve_this (scope : Scope) :
    scope.resolve "this" = .enclosing := by
  simp [Scope.resolve]

/--
A temporary is not called like a variable either, so that every name stands
for values of one kind.
-/
theorem Scope.naming_unique (types : before.Types after temps)
    (reserved : scope.Reserved before)
    (h : (scope.naming ⊔ temps) name kind)
    (h' : (scope.naming ⊔ temps) name kind') : kind = kind' := by
  have apart {kind kind' : Kind} (isNamed : scope.naming name kind) :
      ¬ temps name kind' := by
    intro isTemp
    rcases isNamed with ⟨rfl, _⟩ | ⟨symbol, _, origin⟩
    · exact types.ne_this isTemp rfl
    · exact (types.isNew name kind' isTemp).1
        (.inl (reserved name ⟨symbol, origin⟩))
  rcases h with isNamed | isTemp <;> rcases h' with isNamed' | isTemp'
  · rcases isNamed with ⟨isSelf, rfl, _⟩ | ⟨symbol, rfl, origin⟩ <;>
      rcases isNamed' with ⟨isSelf', rfl, _⟩ | ⟨symbol', rfl, origin'⟩
    · rfl
    · simp [isSelf, Scope.resolve_this] at origin'
    · simp [isSelf', Scope.resolve_this] at origin
    · rcases origin with origin | origin <;>
        simp only [origin, Origin.localVar.injEq, Origin.param.injEq,
          reduceCtorEq, or_false, false_or] at origin' <;>
        rw [origin']
  · exact absurd isTemp' (apart isNamed)
  · exact absurd isTemp (apart isNamed')
  · exact types.unique name kind kind' isTemp isTemp'

theorem Scope.naming_this (types : before.Types after temps) :
    (scope.naming ⊔ temps) "this" .reference ↔ scope.isStatic = false := by
  constructor
  · rintro ((⟨_, _, isInstance⟩ | ⟨symbol, _, origin⟩) | isTemp)
    · exact isInstance
    · simp [Scope.resolve_this] at origin
    · exact absurd rfl (types.ne_this isTemp)
  · exact fun isInstance => .inl (.inl ⟨rfl, rfl, isInstance⟩)

end Names

/-! ## Methods -/

theorem Lowering.mem_close_void {returnTy : Ty} {code : List Instr}
    {labels : Labels} {instr : Instr}
    (member : instr ∈ close returnTy code labels) :
    instr ∈ code ∨ instr = .ret .void none ∧ returnTy = .void := by
  cases isVoid : returnTy.isVoid with
  | true =>
      exact (mem_close member).imp_right fun isReturn =>
        ⟨isReturn, Ty.isVoid_eq_true.mp isVoid⟩
  | false =>
      simp only [close, isVoid, Bool.false_and, Bool.false_eq_true, if_false]
        at member
      exact .inl member

namespace Tree

variable {table : SymbolTable} {linkage : Jvm.Linkage}
  {supply after : Supply}

theorem Method.lower_typed {method : Method} {lowered : Ir.Method}
    (h : method.lower table supply = .ok lowered after)
    (known : table.method? method.name = some method.signature)
    (typed : method.isTyped table = true)
    (serves : Serves linkage { table, method := method.name }) :
    ∃ has, Jvm.TypedMethod has linkage lowered := by
  obtain ⟨code, hcode, labels, body⟩ := lower_eq_ok h
  obtain ⟨_, _, params, returnTy, isStatic⟩ := lower_header h known
  obtain ⟨typedBody, distinct, noReceiver⟩ := isTyped_eq_true.mp typed
  obtain ⟨temps, types, holds⟩ :=
    Stmt.lowerAll_supplies serves hcode typedBody
  have sameReturn : Scope.returnTy { table, method := method.name } =
      method.returnTy := by
    simp [Scope.returnTy, SymbolTable.returnTy?, known, signature]
  have sameStatic : Scope.isStatic { table, method := method.name } =
      method.isStatic := by
    simp [Scope.isStatic, known, signature]
  rw [variableNames, List.map_append] at distinct noReceiver
  -- Names have the kinds of the variables and of what was drawn on the way.
  refine ⟨Scope.naming { table, method := method.name } ⊔ temps,
    (lower_calls h).avoids, ?_, ?_, ?_, ?_, (lower_fields h).registers, ?_, ?_⟩
  · intro instr member
    rw [body] at member
    rw [returnTy]
    rcases mem_close_void member with member | ⟨rfl, isVoid⟩
    · rw [← sameReturn]
      exact holds _ le_sup_left le_sup_right instr (mem_instrs.mp member)
    · rw [isVoid]
      exact .retVoid rfl
  · intro name kind kind'
    exact Scope.naming_unique types (reserved_of_variable supply)
  · rw [Scope.naming_this types, isStatic, sameStatic]
  · intro param member
    rw [params] at member
    exact .inl (.inr ⟨param, rfl,
      resolve_variable typed known (List.mem_append_left _ member)⟩)
  · rw [params]
    exact distinct.of_append_left
  · rw [params]
    exact fun member => noReceiver (List.mem_append_left _ member)

theorem constructor_typed (linkage : Jvm.Linkage) (className : String) :
    Jvm.TypedMethod (fun name kind => name = "this" ∧ kind = .reference)
      linkage (defaultConstructor className) := by
  have own {call : Ir.Call} (kind : call.kind = .special) :
      linkage.own? call = none := by
    simp [Jvm.Linkage.own?, kind]
  constructor
  · constructor <;> simp [defaultConstructor, Instr.target?]
  · simp only [defaultConstructor, List.mem_cons, List.not_mem_nil, or_false,
      forall_eq_or_imp, forall_eq]
    refine ⟨.call ⟨.inl rfl, fun _ => .self _ ⟨rfl, rfl⟩, ?_, ?_⟩, .retVoid rfl⟩
    · rw [Jvm.Linkage.shape, own rfl]
      exact .nil
    · rw [Jvm.Linkage.shape, own rfl]
  · rintro name _ _ ⟨_, rfl⟩ ⟨_, rfl⟩
    rfl
  · simp [defaultConstructor]
  · simp [defaultConstructor]
  · rfl
  · simp [defaultConstructor]
  · simp [defaultConstructor]

/-! ## Programs -/

namespace Program

/--
However the methods of a class are run, every line finds values of the kinds
that it works on.
-/
structure KindCorrect (program : Program) (cls : Jvm.Class) : Prop where
  count : cls.methods.length = program.declared.methods.length + 1
  methods : ∀ (index : Nat) (method : Method) (emitted : Jvm.Method),
    program.declared.methods[index]? = some method →
    cls.methods[index]? = some emitted →
    emitted.name = method.name ∧
      emitted.KindCorrect method.isStatic
        (method.signature.params.map Symbol.ty) method.returnTy
  last : ∀ emitted : Jvm.Method,
    cls.methods[program.declared.methods.length]? = some emitted →
    emitted.name = "<init>" ∧ emitted.KindCorrect false [] .void

variable {program program' : Program} {ir : Ir.Class} {cls : Jvm.Class}

theorem isTyped_eq_true :
    program.isTyped = true ↔
      (program.declared.methods.map Method.name).Nodup ∧
        ∀ method ∈ program.declared.methods,
          method.isTyped (.ofProgram program) = true := by
  simp [isTyped]

theorem lower_constructor {emitted : Jvm.Method}
    (h : program.lower table supply = .ok ir after)
    (h' : Jvm.Class.ofIr table ir = .ok cls)
    (found : cls.methods[program.declared.methods.length]? = some emitted) :
    Jvm.Method.ofIr (Jvm.linkageOf table ir)
      (defaultConstructor program.declared.name) = .ok emitted := by
  obtain ⟨lowered, mid, hlowered, h⟩ := Action.bind_eq_ok.mp h
  obtain ⟨rfl, rfl⟩ := Action.pure_eq_ok.mp h
  have count := (Method.lowerAll_eq_ok hlowered).length_eq
  have inClass : (lowered ++ [defaultConstructor program.declared.name])[
      program.declared.methods.length]? =
        some (defaultConstructor program.declared.name) := by
    rw [count]
    simp
  obtain ⟨target, isTarget, translated⟩ :=
    exists_getElem?_of_forall₂ (Jvm.Class.ofIr_eq_ok h') inClass
  rw [found, Option.some.injEq] at isTarget
  exact isTarget ▸ translated

/-- What is emitted fits the program from before it was simplified. -/
theorem Becomes.kindCorrect (becomes : program.Becomes program')
    (typed : program.isTyped = true)
    (h : program'.lower (.ofProgram program) supply = .ok ir after)
    (h' : Jvm.Class.ofIr (.ofProgram program) ir = .ok cls) :
    program.KindCorrect cls := by
  obtain ⟨distinct, each⟩ := isTyped_eq_true.mp typed
  obtain ⟨className, count⟩ := lower_fields h
  have sameCount := becomes.methods.length_eq
  constructor
  · rw [← (Jvm.Class.ofIr_eq_ok h').length_eq, count, sameCount]
  · intro index method emitted found found'
    obtain ⟨method', before, behind, source, same, hmethod, translated⟩ :=
      becomes.emits h h' found found'
    have member := List.mem_of_getElem? found
    have known := method?_ofProgram distinct member
    -- The table was made before, but no declaration has changed since.
    have stillTyped := same.isTyped known (each method member)
    have known' := same.method? known
    have serves : Serves (Jvm.linkageOf (.ofProgram program) ir)
        { table := .ofProgram program, method := method'.name } :=
      ⟨rfl, className.trans (by rw [becomes.declared]; rfl)⟩
    obtain ⟨has, typedCode⟩ :=
      Method.lower_typed hmethod known' stillTyped serves
    obtain ⟨_, _, params, returnTy, isStatic⟩ :=
      Method.lower_header hmethod known'
    have correct := Jvm.Method.ofIr_kindCorrect translated typedCode
    rw [params, returnTy, isStatic, same.declared] at correct
    exact ⟨(becomes.header h h' distinct found found').1, correct⟩
  · intro emitted found
    rw [sameCount] at found
    have translated := lower_constructor h h' found
    exact ⟨(Jvm.Method.ofIr_header translated).1,
      Jvm.Method.ofIr_kindCorrect translated (constructor_typed _ _)⟩

/-- Well-typed programs are emitted as code that the target machine accepts. -/
theorem compile_kind_correct {options : Options} {result : Compilation}
    (h : program.compile options = .ok result)
    (typed : program.isTyped = true) :
    program.KindCorrect result.assembly := by
  obtain ⟨after, lowered, emitted⟩ := compileWith_eq_ok h
  exact (becomes_prepare program options).kindCorrect typed lowered emitted

def summing : Method where
  name := "add"
  returnTy := .int
  params := [{ name := "first", ty := .int }, { name := "rest", ty := .vararg }]
  locals := [{ name := "index", ty := .int },
    { name := "more", ty := .boolean }]
  body := [
    .assign {} (.var ⟨.int, {}⟩ "sum") (.var ⟨.int, {}⟩ "first"),
    .assign {} (.var ⟨.int, {}⟩ "index") (.int ⟨.int, {}⟩ 0),
    .assign {} (.var ⟨.boolean, {}⟩ "more") (.bool ⟨.boolean, {}⟩ true),
    .loop {}
      (.binary ⟨.boolean, {}⟩ .and (.var ⟨.boolean, {}⟩ "more")
        (.binary ⟨.boolean, {}⟩ .lt (.var ⟨.int, {}⟩ "index")
          (.length ⟨.int, {}⟩ (.var ⟨.intArray, {}⟩ "rest"))))
      (.block {} [
        .assign {} (.var ⟨.int, {}⟩ "sum")
          (.binary ⟨.int, {}⟩ .add (.var ⟨.int, {}⟩ "sum")
            (.index ⟨.int, {}⟩ (.var ⟨.intArray, {}⟩ "rest")
              (.var ⟨.int, {}⟩ "index"))),
        .assign {} (.var ⟨.int, {}⟩ "index")
          (.binary ⟨.int, {}⟩ .add (.var ⟨.int, {}⟩ "index")
            (.int ⟨.int, {}⟩ 1))]),
    .ret {} (some (.var ⟨.int, {}⟩ "sum"))]

def reporting : Method where
  name := "main"
  isStatic := true
  returnTy := .void
  locals := [{ name := "tally", ty := .object "Tally" },
    { name := "start", ty := .int }]
  body := [
    .assign {} (.var ⟨.int, {}⟩ "start")
      (.length ⟨.int, {}⟩ (.var ⟨.stringArray, {}⟩ "args")),
    .assign {} (.var ⟨.object "Tally", {}⟩ "tally")
      (.newObject ⟨.object "Tally", {}⟩ "Tally"),
    .expr {} (.call ⟨.void, {}⟩ (.var ⟨.object "io", {}⟩ "io") "println"
      [.call ⟨.int, {}⟩ (.var ⟨.object "Tally", {}⟩ "tally") "add"
        [.var ⟨.int, {}⟩ "start", .int ⟨.int, {}⟩ 1, .int ⟨.int, {}⟩ 2]])]

def tally : Program where
  imports := [{ path := ["io"] }]
  declared := {
    name := "Tally"
    fields := [{ name := "sum", ty := .int }]
    methods := [summing, reporting] }

theorem compile_kind_correct_tally :
    tally.isTyped = true ∧
      ∃ result, tally.compile { optimize := true } = .ok result ∧
        tally.KindCorrect result.assembly := by
  have typed : tally.isTyped = true := by decide +kernel
  have known : (tally.compile { optimize := true }).isOk = true := by
    decide +kernel
  refine ⟨typed, ?_⟩
  cases compiled : tally.compile { optimize := true } with
  | error cause => simp [compiled, Except.isOk, Except.toBool] at known
  | ok result => exact ⟨result, rfl, compile_kind_correct compiled typed⟩

end Program

end Tree

end JavaMinus
