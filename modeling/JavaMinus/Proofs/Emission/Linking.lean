import JavaMinus.Proofs.Constants.Calls
import JavaMinus.Proofs.Emission.Invocations
import JavaMinus.Proofs.Emission.Targets
import JavaMinus.Proofs.Lists

/-!
# Calls within a class

A call of a method that the class itself declares is linked by the name and
the descriptor that the method is emitted with.  As many values are loaded for
it as the descriptor has parameters, and one more for the receiver.
-/

namespace JavaMinus

open Ir (Operand Instr Call)
open Lowering

/-! ## Declarations -/

namespace Tree

theorem method?_ofProgram {program : Program} {callee : Method}
    (distinct : (program.declared.methods.map Method.name).Nodup)
    (member : callee ∈ program.declared.methods) :
    (SymbolTable.ofProgram program).method? callee.name =
      some callee.signature := by
  have isDeclared : callee.signature ∈
      (SymbolTable.ofProgram program).methods :=
    List.mem_map_of_mem member
  refine find?_of_nodup Signature.name ?_ isDeclared
  rw [SymbolTable.ofProgram, List.map_map]
  exact distinct

theorem Method.Becomes.method? {table : SymbolTable} {method method' : Method}
    (h : method.Becomes method')
    (known : table.method? method.name = some method.signature) :
    table.method? method'.name = some method'.signature := by
  rw [h.declared]
  exact known

theorem Method.lower_header {table : SymbolTable} {supply after : Supply}
    {method : Method} {lowered : Ir.Method}
    (h : method.lower table supply = .ok lowered after)
    (known : table.method? method.name = some method.signature) :
    lowered.name = method.name ∧ lowered.isConstructor = false ∧
      lowered.params = method.signature.params ∧
      lowered.returnTy = method.returnTy ∧
      lowered.isStatic = method.isStatic := by
  obtain ⟨_, reserved, hreserve, h⟩ := Action.bind_eq_ok.mp h
  obtain ⟨code, mid, hcode, h⟩ := Action.bind_eq_ok.mp h
  obtain ⟨rfl, rfl⟩ := Action.pure_eq_ok.mp h
  exact ⟨rfl, rfl, by simp only [known], rfl, rfl⟩

theorem Method.lowerAll_eq_ok {table : SymbolTable} {supply after : Supply}
    {methods : List Method} {lowered : List Ir.Method}
    (h : Method.lowerAll table methods supply = .ok lowered after) :
    List.Forall₂ (fun method source => ∃ before behind,
      method.lower table before = .ok source behind) methods lowered := by
  induction methods generalizing supply lowered with
  | nil =>
      obtain ⟨rfl, rfl⟩ := Action.pure_eq_ok.mp h
      exact .nil
  | cons method methods ih =>
      obtain ⟨first, mid, hfirst, h⟩ := Action.bind_eq_ok.mp h
      obtain ⟨rest, last, hrest, h⟩ := Action.bind_eq_ok.mp h
      obtain ⟨rfl, rfl⟩ := Action.pure_eq_ok.mp h
      exact .cons ⟨supply, mid, hfirst⟩ (ih hrest)

structure Method.Calls (table : SymbolTable) (method : Method)
    (source : Ir.Method) : Prop where
  avoids : source.AvoidsComparisons
  plainly : Jvm.CallsPlainly source
  made : List.Forall₂ (Makes { table, method := method.name })
    (Stmt.callsAll method.body)
    (source.instrs.filterMap Instr.invocation?)

theorem Method.lower_calls {table : SymbolTable} {supply after : Supply}
    {method : Method} {lowered : Ir.Method}
    (h : method.lower table supply = .ok lowered after) :
    method.Calls table lowered := by
  obtain ⟨fragments, _, labelled, _, fits⟩ := lower_wellLabelled h
  obtain ⟨code, hcode, labels, body⟩ := lower_eq_ok h
  constructor
  · exact fits.avoidsComparisons (by simpa using labelled)
      (List.mem_singleton_self fragments)
  · intro instr member call isBare found
    rw [body] at member
    rcases mem_close member with member | rfl
    · exact Jvm.callsMethod_of_executes
        ((Stmt.lowerAll_implements hcode).each instr member) found
    · cases found
  · have same : lowered.instrs.filterMap Instr.invocation? =
        invocations code := by
      rw [body, invocations]
      rcases close_eq_or method.returnTy (instrs code) lowered.labels with
        closed | closed
      · rw [closed]
      · rw [closed, List.filterMap_append]
        exact List.append_nil _
    rw [same]
    exact Stmt.lowerAll_makes hcode

end Tree

/-! ## Links -/

namespace Jvm

theorem Linkage.target_own {linkage : Linkage} {call : Call}
    {method : String} {signature : Signature}
    (named : call.method = some method) (kind : call.kind = .virtual)
    (ty : call.target.ty = .object linkage.className)
    (known : linkage.table.method? method = some signature) :
    linkage.target call = linkage.names.binaryName linkage.className ++ "/" ++
      method ++ methodDescriptor linkage.names
        (signature.params.map Symbol.ty) signature.returnTy := by
  have own : linkage.own? call = some signature := by
    simp [Linkage.own?, named, kind, ty, Ty.className?, known]
  have isOwner : linkage.owner? call =
      some (linkage.names.binaryName linkage.className) := by
    simp [Linkage.owner?, kind, ty, own, Ty.className?]
  rw [Linkage.target, Linkage.shape, isOwner, own, named]
  rfl

/--
A call is made at an empty stack: its values are loaded, the method is called
by the name and descriptor that it has in the class, and the result is dropped
if nobody takes it.
-/
structure LinkedCall (cls : Class) (header : Method) (signature : Signature)
    (isDropped : Bool) (lines front loads rest : List Line) : Prop where
  lines : ∃ pushed, lines = front ++ (loads ++
    .apply .invokevirtual (.method
      (cls.name ++ "/" ++ header.name ++ header.descriptor)
      (signature.params.length + 1) pushed) :: rest)
  empty : depthAfter front = 0
  count : loads.length = signature.params.length + 1
  loads : ∀ line ∈ loads, line.isLoad = true
  drops : isDropped = true →
    (rest.head? = some (.plain .pop) ↔ signature.returnTy ≠ .void)

/-- The machine reads which method is called, and takes all that is loaded. -/
theorem LinkedCall.reads {cls : Class} {header : Method}
    {signature : Signature} {isDropped : Bool}
    {lines front loads rest : List Line} {names : ClassNames}
    (linked : LinkedCall cls header signature isDropped lines front loads rest)
    (descriptor : header.descriptor = methodDescriptor names
      (signature.params.map Symbol.ty) signature.returnTy)
    (legible : Legible '(' cls.name header.name)
    (plain : ∀ ty ∈ signature.returnTy :: signature.params.map Symbol.ty,
      ty.IsPlain names) :
    ∃ method, readMethodRef
        (cls.name ++ "/" ++ header.name ++ header.descriptor) = some method ∧
      method.owner = cls.name ∧ method.name = header.name ∧
      method.taken .virtual = loads.length := by
  rw [descriptor]
  refine ⟨_, readMethodRef_methodDescriptor legible plain, rfl, rfl, ?_⟩
  rw [linked.count]
  simp [MethodRef.taken, methodErasure]

theorem Class.ofIr_name {table : SymbolTable} {source : Ir.Class}
    {target : Class} (h : Class.ofIr table source = .ok target) :
    target.name = table.classNames.binaryName source.name := by
  change (Method.ofIrAll (linkageOf table source) source.methods >>=
    fun _ => _) = _ at h
  cases methods : Method.ofIrAll (linkageOf table source) source.methods with
  | error cause =>
      rw [methods] at h
      contradiction
  | ok targets =>
      rw [methods] at h
      cases h
      rfl

section Calls

variable {linkage : Linkage} {method : Tree.Method} {source : Ir.Method}
  {target : Method}

theorem Method.ofIr_countP (h : Method.ofIr linkage source = .ok target)
    (calls : method.Calls linkage.table source) :
    target.lines.countP Line.isInvocation =
      (Tree.Stmt.callsAll method.body).length := by
  obtain ⟨lines, _, final, laid, closes⟩ := Method.ofIr_eq_ok h
  have counted := laid.countP_boundary calls.plainly (Nat.le_refl _)
  rw [laid.boundary_length, List.take_length] at counted
  rw [lines, closes.lines, List.countP_append, counted, calls.made.length_eq]
  split <;> simp [Line.isInvocation]

theorem isVoid_valueTy (ty : Ty) : ty.valueTy.isVoid = false ↔ ty ≠ .void := by
  cases ty <;> simp [Ty.valueTy, Ty.isVoid]

theorem Method.ofIr_linkedCall (h : Method.ofIr linkage source = .ok target)
    (calls : method.Calls linkage.table source) {place : Nat}
    {site site' : Tree.CallSite}
    (found : (Tree.Stmt.callsAll method.body)[place]? = some site')
    (stays : site.Stays { table := linkage.table, method := method.name }
      site')
    (sameClass : linkage.className = linkage.table.className)
    (own : site.isOwn { table := linkage.table, method := method.name } = true)
    {signature : Signature}
    (known : linkage.table.method? site.method = some signature)
    (takes : signature.Takes site.args.length) {cls : Class} {header : Method}
    (name : cls.name = linkage.names.binaryName linkage.className)
    (headerName : header.name = site.method)
    (descriptor : header.descriptor = methodDescriptor linkage.names
      (signature.params.map Symbol.ty) signature.returnTy) :
    ∃ front loads rest, front.countP Line.isInvocation = place ∧
      LinkedCall cls header signature site.isDropped target.lines front loads
        rest := by
  obtain ⟨lines, _, final, laid, closes⟩ := Method.ofIr_eq_ok h
  obtain ⟨made, isMade, makes⟩ := exists_getElem?_of_forall₂ calls.made found
  obtain ⟨front, loads, rest, emitted, count, empty, length, areLoads, drops,
    object⟩ := laid.invocation calls.avoids calls.plainly isMade
  -- The receiver may have become a literal, but then there is no such code.
  obtain ⟨kind, ownTy⟩ : made.1.kind = .virtual ∧ made.1.target.ty =
      .object (Scope.mk linkage.table method.name).className := by
    rcases stays.own own with own | noObject
    · exact makes.own own
    · obtain ⟨kind, noClass⟩ := makes.noObject noObject
      exact absurd noClass (object kind)
  have callee : callee? { table := linkage.table, method := method.name }
      made.1.kind made.1.target site'.method = some signature := by
    simp [callee?, kind, ownTy, Ty.className?, stays.method, known]
  have passed : (loaded made.1).length = signature.params.length + 1 := by
    rw [loaded, if_neg (by simp [kind]), List.length_cons,
      makes.args signature callee (stays.args.symm ▸ takes)]
  obtain ⟨closing, whole, noPop⟩ : ∃ closing,
      target.lines = final.code.lines.toList ++ closing ∧
        closing.head? ≠ some (.plain .pop) := by
    refine ⟨_, lines.trans closes.lines, ?_⟩
    split <;> simp
  refine ⟨front, loads, rest ++ closing, count,
    ⟨if made.1.returnTy.isVoid then 0 else 1, ?_⟩, empty, length.trans passed,
    areLoads, fun isDropped => ?_⟩
  · have linked := Linkage.target_own
      (makes.named.trans (congrArg some stays.method)) kind
      (ownTy.trans (congrArg Ty.object sameClass.symm)) known
    rw [whole, emitted, callLine, passed, kind, linked, name, headerName,
      descriptor, List.append_assoc, List.append_assoc, List.cons_append]
    rfl
  · have isDropped := stays.dropped.trans isDropped
    rw [← isVoid_valueTy, ← makes.result isDropped signature callee,
      ← drops (makes.dropped.trans isDropped)]
    cases rest with
    | cons line rest => simp
    | nil => simpa using noPop

end Calls

end Jvm

/-! ## Programs -/

namespace Tree.Program

theorem compileWith_eq_ok {table : SymbolTable} {options : Options}
    {program : Program} {result : Compilation}
    (h : program.compileWith table options = .ok result) :
    ∃ after,
      (program.prepare options).program.lower table {} =
        .ok result.ir after ∧
      Jvm.Class.ofIr table result.ir = .ok result.assembly := by
  rw [compileWith, toIr] at h
  cases lowered : (program.prepare options).program.lower table {} with
  | error cause after =>
      rw [lowered] at h
      cases h
  | ok ir after =>
      simp only [lowered] at h
      change (Jvm.Class.ofIr table ir >>= fun _ => _) = _ at h
      cases emitted : Jvm.Class.ofIr table ir with
      | error cause =>
          rw [emitted] at h
          cases h
      | ok assembly =>
          rw [emitted] at h
          cases h
          exact ⟨after, rfl, emitted⟩

/--
In every method there is one line for each call, and calls of methods of the
class are linked to what these are emitted as.
-/
structure LinksOwnCalls (program : Program) (cls : Jvm.Class) : Prop where
  methods : cls.methods.length = program.declared.methods.length + 1
  count : ∀ (caller : Nat) (method : Method) (emitted : Jvm.Method),
    program.declared.methods[caller]? = some method →
    cls.methods[caller]? = some emitted →
    emitted.lines.countP Jvm.Line.isInvocation =
      (Stmt.callsAll method.body).length
  headers : ∀ (index : Nat) (callee : Method) (header : Jvm.Method),
    program.declared.methods[index]? = some callee →
    cls.methods[index]? = some header →
    header.name = callee.name ∧
      header.descriptor = methodDescriptor
        (SymbolTable.ofProgram program).classNames
        (callee.signature.params.map Symbol.ty) callee.returnTy
  links : ∀ (caller : Nat) (method : Method) (emitted : Jvm.Method)
    (place : Nat) (site : CallSite) (index : Nat) (callee : Method)
    (header : Jvm.Method),
    program.declared.methods[caller]? = some method →
    cls.methods[caller]? = some emitted →
    (Stmt.callsAll method.body)[place]? = some site →
    site.isOwn { table := .ofProgram program, method := method.name } = true →
    program.declared.methods[index]? = some callee →
    cls.methods[index]? = some header →
    callee.name = site.method → callee.signature.Takes site.args.length →
    ∃ front loads rest, front.countP Jvm.Line.isInvocation = place ∧
      Jvm.LinkedCall cls header callee.signature site.isDropped emitted.lines
        front loads rest

variable {program : Program} {supply after : Supply} {ir : Ir.Class}
  {cls : Jvm.Class}

theorem lower_method {index : Nat} {method : Method} {emitted : Jvm.Method}
    {table : SymbolTable} (h : program.lower table supply = .ok ir after)
    (h' : Jvm.Class.ofIr table ir = .ok cls)
    (found : program.declared.methods[index]? = some method)
    (found' : cls.methods[index]? = some emitted) :
    ∃ before behind source, method.lower table before = .ok source behind ∧
      Jvm.Method.ofIr (Jvm.linkageOf table ir) source = .ok emitted := by
  obtain ⟨lowered, mid, hlowered, h⟩ := Action.bind_eq_ok.mp h
  obtain ⟨rfl, rfl⟩ := Action.pure_eq_ok.mp h
  obtain ⟨source, isSource, before, behind, hmethod⟩ :=
    exists_getElem?_of_forall₂ (Method.lowerAll_eq_ok hlowered) found
  obtain ⟨bound, _⟩ := List.getElem?_eq_some_iff.mp isSource
  have inClass : (lowered ++
      [defaultConstructor program.declared.name])[index]? = some source := by
    rw [List.getElem?_append_left bound]
    exact isSource
  obtain ⟨target, isTarget, translated⟩ :=
    exists_getElem?_of_forall₂ (Jvm.Class.ofIr_eq_ok h') inClass
  rw [found', Option.some.injEq] at isTarget
  exact ⟨before, behind, source, hmethod, isTarget ▸ translated⟩

theorem lower_fields {table : SymbolTable}
    (h : program.lower table supply = .ok ir after) :
    ir.name = program.declared.name ∧
      ir.methods.length = program.declared.methods.length + 1 := by
  obtain ⟨lowered, mid, hlowered, h⟩ := Action.bind_eq_ok.mp h
  obtain ⟨rfl, rfl⟩ := Action.pure_eq_ok.mp h
  have same := (Method.lowerAll_eq_ok hlowered).length_eq
  exact ⟨rfl, by simp [same]⟩

section Becomes

variable {program' : Program} {index : Nat} {method : Method}
  {emitted : Jvm.Method}

theorem Becomes.emits (becomes : program.Becomes program')
    (h : program'.lower (.ofProgram program) supply = .ok ir after)
    (h' : Jvm.Class.ofIr (.ofProgram program) ir = .ok cls)
    (found : program.declared.methods[index]? = some method)
    (found' : cls.methods[index]? = some emitted) :
    ∃ method' before behind source, method.Becomes method' ∧
      method'.lower (.ofProgram program) before = .ok source behind ∧
      Jvm.Method.ofIr (Jvm.linkageOf (.ofProgram program) ir) source =
        .ok emitted := by
  obtain ⟨method', isMethod, same⟩ :=
    exists_getElem?_of_forall₂ becomes.methods found
  obtain ⟨before, behind, source, hmethod, translated⟩ :=
    lower_method h h' isMethod found'
  exact ⟨method', before, behind, source, same, hmethod, translated⟩

theorem Becomes.header (becomes : program.Becomes program')
    (h : program'.lower (.ofProgram program) supply = .ok ir after)
    (h' : Jvm.Class.ofIr (.ofProgram program) ir = .ok cls)
    (distinct : (program.declared.methods.map Method.name).Nodup)
    (found : program.declared.methods[index]? = some method)
    (found' : cls.methods[index]? = some emitted) :
    emitted.name = method.name ∧
      emitted.descriptor = methodDescriptor
        (SymbolTable.ofProgram program).classNames
        (method.signature.params.map Symbol.ty) method.returnTy := by
  obtain ⟨method', before, behind, source, same, hmethod, translated⟩ :=
    becomes.emits h h' found found'
  obtain ⟨name, descriptor, _⟩ := Jvm.Method.ofIr_header translated
  have known := method?_ofProgram distinct (List.mem_of_getElem? found)
  obtain ⟨isNamed, noConstructor, params, returnTy, _⟩ :=
    Method.lower_header hmethod (same.method? known)
  rw [name, descriptor, params, returnTy, Jvm.Method.targetName,
    noConstructor, isNamed, same.declared]
  exact ⟨rfl, rfl⟩

/-- The calls that are emitted are those from before it was simplified. -/
theorem Becomes.linksOwnCalls (becomes : program.Becomes program')
    (h : program'.lower (.ofProgram program) supply = .ok ir after)
    (h' : Jvm.Class.ofIr (.ofProgram program) ir = .ok cls)
    (distinct : (program.declared.methods.map Method.name).Nodup) :
    program.LinksOwnCalls cls := by
  obtain ⟨className, count⟩ := lower_fields h
  constructor
  · rw [← (Jvm.Class.ofIr_eq_ok h').length_eq, count,
      becomes.methods.length_eq]
  · intro caller method emitted found found'
    obtain ⟨method', before, behind, source, same, hmethod, translated⟩ :=
      becomes.emits h h' found found'
    have keeps : KeepsCalls { table := .ofProgram program, method := "" }
        (Stmt.callsAll method.body) (Stmt.callsAll method'.body) :=
      same.keepsCalls
    rw [Jvm.Method.ofIr_countP translated (Method.lower_calls hmethod),
      keeps.length_eq]
  · intro index callee header found found'
    exact becomes.header h h' distinct found found'
  · intro caller method emitted place site index callee header found found'
      isSite own isCallee isHeader isNamed takes
    obtain ⟨method', before, behind, source, same, hmethod, translated⟩ :=
      becomes.emits h h' found found'
    obtain ⟨site', isSite', stays⟩ :=
      exists_getElem?_of_forall₂ same.keepsCalls isSite
    obtain ⟨name, descriptor⟩ := becomes.header h h' distinct isCallee isHeader
    have known := method?_ofProgram distinct (List.mem_of_getElem? isCallee)
    rw [isNamed] at known name
    have sameName : method'.name = method.name := by rw [same.declared]
    exact Jvm.Method.ofIr_linkedCall translated (Method.lower_calls hmethod)
      isSite' stays (className.trans (by rw [becomes.declared]; rfl))
      (by rw [sameName]; exact own) known takes
      (by rw [Jvm.Class.ofIr_name h']; rfl) name descriptor

end Becomes

/--
Calls of methods that a class declares link to them, however the program is
compiled.
-/
theorem compile_links_own_calls {options : Options} {result : Compilation}
    (h : program.compile options = .ok result)
    (distinct : (program.declared.methods.map Method.name).Nodup) :
    program.LinksOwnCalls result.assembly := by
  obtain ⟨after, lowered, emitted⟩ := compileWith_eq_ok h
  exact (becomes_prepare program options).linksOwnCalls lowered emitted
    distinct

def pick : Method where
  name := "pick"
  returnTy := .int
  params := [{ name := "first", ty := .int }, { name := "rest", ty := .vararg }]
  body := [.ret {} (some (.var ⟨.int, {}⟩ "first"))]

def caller : Method where
  name := "run"
  returnTy := .void
  params := [{ name := "other", ty := .object "Picker" }]
  locals := [{ name := "count", ty := .int }]
  body := [
    .assign {} (.var ⟨.int, {}⟩ "count")
      (.call ⟨.int, {}⟩ (.self ⟨.object "Picker", {}⟩) "pick"
        [.int ⟨.int, {}⟩ 1, .int ⟨.int, {}⟩ 2, .int ⟨.int, {}⟩ 3]),
    .expr {} (.call ⟨.int, {}⟩ (.var ⟨.object "Picker", {}⟩ "other") "pick"
      [.var ⟨.int, {}⟩ "count"]),
    .expr {} (.call ⟨.void, {}⟩ (.self ⟨.object "Picker", {}⟩) "run"
      [.var ⟨.object "Picker", {}⟩ "other"])]

def picker : Program where
  declared := { name := "Picker", methods := [pick, caller] }

theorem compile_links_own_calls_picker :
    ∃ result, picker.compile { optimize := true } = .ok result ∧
      ((Stmt.callsAll caller.body).map fun site =>
        (site.method, site.args.length, site.isDropped,
          site.isOwn { table := .ofProgram picker, method := "run" })) =
        [("pick", 3, false, true), ("pick", 1, true, true),
          ("run", 1, true, true)] ∧
      picker.LinksOwnCalls result.assembly := by
  have known : (picker.compile { optimize := true }).isOk = true := by
    decide +kernel
  have distinct : (picker.declared.methods.map Method.name).Nodup := by decide
  cases compiled : picker.compile { optimize := true } with
  | error cause => simp [compiled, Except.isOk, Except.toBool] at known
  | ok result =>
      exact ⟨result, rfl, by decide,
        compile_links_own_calls compiled distinct⟩

end Tree.Program

end JavaMinus
