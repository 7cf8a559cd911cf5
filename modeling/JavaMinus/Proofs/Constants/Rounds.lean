import JavaMinus.Compilation
import JavaMinus.Proofs.Constants.Folding
import JavaMinus.Proofs.Constants.Propagation

/-!
# Simplification keeps the meaning

A round changes nothing but the bodies of methods, and these do the same
afterwards.  So do the bodies after any number of rounds.
-/

namespace JavaMinus.Tree

/-! ## Settings of methods -/

def Program.scope (program : Program) (method : Method) : Scope where
  table :=
    { SymbolTable.ofProgram program with methods := [method.signature] }
  method := method.name

def Program.setting (program : Program) (method : Method) (self : Value)
    (oracle : Oracle) : Setting where
  className := program.declared.name
  self
  resolve := (program.scope method).resolve
  typeOf := Expr.ty
  method? := (SymbolTable.ofProgram program).method?
  oracle

structure Setting.Suits (setting : Setting) (method : Method) : Prop where
  typed : setting.typeOf = Expr.ty
  declared : ∀ name ∈ method.tracked, ∀ symbol,
    setting.resolve name ≠ .field symbol

theorem exists_find? {symbols : List Symbol} {decl : Variable}
    (member : decl.symbol ∈ symbols) :
    ∃ symbol, symbols.find? (fun symbol => symbol.name = decl.name) =
      some symbol :=
  Option.isSome_iff_exists.mp (List.find?_isSome.mpr
    ⟨decl.symbol, member, by simp [Variable.symbol]⟩)

theorem Program.setting_suits (program : Program) (method : Method)
    (self : Value) (oracle : Oracle) :
    (program.setting method self oracle).Suits method := by
  refine ⟨rfl, fun name isTracked symbol isField => ?_⟩
  have own : (program.scope method).table.method? method.name =
      some method.signature := by
    simp [SymbolTable.method?, scope, Method.signature]
  have tracked : ∃ decl, (decl ∈ method.params ∨ decl ∈ method.locals) ∧
      decl.name = name := by
    simp only [Method.tracked, List.mem_map, List.mem_filter,
      List.mem_append] at isTracked
    obtain ⟨decl, ⟨member, _⟩, named⟩ := isTracked
    exact ⟨decl, member, named⟩
  obtain ⟨decl, member, rfl⟩ := tracked
  change (program.scope method).resolve decl.name = _ at isField
  simp only [Scope.resolve, SymbolTable.locals, SymbolTable.params,
    show (program.scope method).method = method.name from rfl, own,
    Option.map_some, Option.getD_some] at isField
  split at isField
  · contradiction
  · split at isField
    · contradiction
    next noLocal =>
      split at isField
      · contradiction
      next noParam =>
        rcases member with member | member
        · have isParam : decl.symbol ∈ method.signature.params := by
            have some_params : method.params.isEmpty = false := by
              simpa using List.ne_nil_of_mem member
            simpa [Method.signature, some_params] using ⟨decl, member, rfl⟩
          obtain ⟨symbol, found⟩ := exists_find? isParam
          exact noParam symbol found
        · have isLocal : decl.symbol ∈ method.signature.locals :=
            List.mem_map_of_mem member
          obtain ⟨symbol, found⟩ := exists_find? isLocal
          exact noLocal symbol found

/-! ## Methods -/

structure Method.Equivalent (method method' : Method) : Prop where
  declared : method' = { method with body := method'.body }
  plain : Stmt.PlainAll method'.body
  run : ∀ setting : Setting, setting.Suits method → ∀ fuel,
    method'.run setting fuel = method.run setting fuel

namespace Method.Equivalent

variable {first second third method : Method}

theorem refl (plain : Stmt.PlainAll method.body) : method.Equivalent method :=
  ⟨rfl, plain, fun _ _ _ => rfl⟩

theorem tracked (h : first.Equivalent second) :
    second.tracked = first.tracked := by
  rw [h.declared]
  rfl

theorem signature (h : first.Equivalent second) :
    second.signature = first.signature := by
  rw [h.declared]
  rfl

theorem trans (h : first.Equivalent second) (h' : second.Equivalent third) :
    first.Equivalent third where
  declared := by
    rw [h'.declared, h.declared]
  plain := h'.plain
  run setting suits fuel := by
    have suits' : setting.Suits second :=
      ⟨suits.typed, h.tracked ▸ suits.declared⟩
    rw [h'.run setting suits' fuel, h.run setting suits fuel]

theorem fold (plain : Stmt.PlainAll method.body) :
    method.Equivalent method.fold.value where
  declared := rfl
  plain := Stmt.plainAll_foldAll fun stmt member =>
    Stmt.plain_fold (plain stmt member)
  run setting suits fuel := by
    funext state
    exact Action.bind_congr (Stmt.execAll_foldAll (fun stmt member =>
      Stmt.exec_fold suits.typed fuel (plain stmt member)) state)
      fun _ _ _ => rfl

theorem propagate (plain : Stmt.PlainAll method.body) :
    method.Equivalent method.propagate.value where
  declared := rfl
  plain := Stmt.plainAll_propagateAll (fun stmt member facts =>
    Stmt.plain_propagate (plain stmt member) facts) []
  run setting suits fuel := by
    funext state
    have carries : Carries setting []
        (Stmt.execAll setting fuel method.body) _ _ :=
      Stmt.carries_propagateAll (fun stmt member facts =>
        Stmt.carries_propagate suits.typed suits.declared (plain stmt member)
          facts) []
    exact Action.bind_congr (carries (fun _ member => by simp at member)).1
      fun _ _ _ => rfl

end Method.Equivalent

/-! ## Programs -/

def Program.Plain (program : Program) : Prop :=
  ∀ method ∈ program.declared.methods, Stmt.PlainAll method.body

structure Program.Equivalent (first second : Program) : Prop where
  declared : second = { first with
    declared := { first.declared with methods := second.declared.methods } }
  length : second.declared.methods.length = first.declared.methods.length
  methods : ∀ (index : Nat) (method : Method),
    first.declared.methods[index]? = some method →
      ∃ method', second.declared.methods[index]? = some method' ∧
        method.Equivalent method'

theorem Method.foldAll_value (methods : List Method) :
    (foldAll methods).value = methods.map fun method => method.fold.value := by
  induction methods with
  | nil => rfl
  | cons method rest ih => simp [foldAll, ih]

theorem Method.propagateAll_value (methods : List Method) :
    (propagateAll methods).value =
      methods.map fun method => method.propagate.value := by
  induction methods with
  | nil => rfl
  | cons method rest ih => simp [propagateAll, ih]

namespace Program

theorem Equivalent.plain {first second : Program}
    (h : first.Equivalent second) : second.Plain := by
  intro method' member
  obtain ⟨index, bound, rfl⟩ := List.mem_iff_getElem.mp member
  have inside : index < first.declared.methods.length := h.length ▸ bound
  obtain ⟨found, known, equivalent⟩ :=
    h.methods index _ (List.getElem?_eq_getElem inside)
  rw [List.getElem?_eq_getElem bound] at known
  cases known
  exact equivalent.plain

theorem round_equivalent {program : Program} (plain : program.Plain) :
    program.Equivalent program.round.program where
  declared := rfl
  length := by
    simp [round, fold, propagate, Method.foldAll_value,
      Method.propagateAll_value]
  methods index method known := by
    have folded := Method.Equivalent.fold
      (plain method (List.mem_of_getElem? known))
    refine ⟨method.fold.value.propagate.value, ?_,
      folded.trans (.propagate folded.plain)⟩
    simp [round, fold, propagate, Method.foldAll_value,
      Method.propagateAll_value, known]

theorem Equivalent.trans {first second third : Program}
    (h : first.Equivalent second) (h' : second.Equivalent third) :
    first.Equivalent third where
  declared := by rw [h'.declared, h.declared]
  length := h'.length.trans h.length
  methods index method known := by
    obtain ⟨method', known', equivalent⟩ := h.methods index method known
    obtain ⟨method'', known'', equivalent'⟩ := h'.methods index method' known'
    exact ⟨method'', known'', equivalent.trans equivalent'⟩

theorem rounds_equivalent {program : Program} (plain : program.Plain)
    (more : Nat) : program.Equivalent (program.rounds more).program := by
  induction more generalizing program with
  | zero => exact round_equivalent plain
  | succ more ih =>
      have first := round_equivalent plain
      rw [rounds]
      split
      · exact first
      · exact first.trans (ih first.plain)

theorem Equivalent.table {first second : Program}
    (h : first.Equivalent second) :
    SymbolTable.ofProgram second = SymbolTable.ofProgram first := by
  have signatures : second.declared.methods.map Method.signature =
      first.declared.methods.map Method.signature := by
    refine List.ext_getElem? fun index => ?_
    rw [List.getElem?_map, List.getElem?_map]
    cases known : first.declared.methods[index]? with
    | none =>
        have outside : second.declared.methods[index]? = none := by
          rw [List.getElem?_eq_none_iff, h.length]
          exact List.getElem?_eq_none_iff.mp known
        rw [outside]
    | some method =>
        obtain ⟨method', known', equivalent⟩ := h.methods index method known
        rw [known', Option.map_some, Option.map_some, equivalent.signature]
  rw [h.declared]
  simp only [SymbolTable.ofProgram, signatures]

theorem Equivalent.setting {first second : Program} {method method' : Method}
    (h : first.Equivalent second) (h' : method.Equivalent method')
    (self : Value) (oracle : Oracle) :
    second.setting method' self oracle = first.setting method self oracle := by
  have className : second.declared.name = first.declared.name := by
    rw [h.declared]
  have name : method'.name = method.name := by
    rw [h'.declared]
  simp only [Program.setting, scope, h.table, h'.signature, className, name]

theorem prepare_equivalent {program : Program} (plain : program.Plain)
    (options : Options) :
    program.Equivalent (program.prepare options).program := by
  rw [prepare]
  split
  · exact rounds_equivalent plain _
  · exact ⟨rfl, rfl, fun _ method known => ⟨method, known,
      .refl (plain method (List.mem_of_getElem? known))⟩⟩

/--
A method of the simplified program ends exactly where the method that it was
made of ends: from every state, with every oracle, in the same way, with the
same variables and after the same events.
-/
theorem prepare_ends {program : Program} (plain : program.Plain)
    (options : Options) :
    (program.prepare options).program.declared.methods.length =
        program.declared.methods.length ∧
      ∀ (index : Nat) (method : Method),
        program.declared.methods[index]? = some method →
        ∃ method',
          (program.prepare options).program.declared.methods[index]? =
            some method' ∧
          ∀ self oracle start exit final,
            method'.Ends ((program.prepare options).program.setting method'
                self oracle) start exit final ↔
              method.Ends (program.setting method self oracle) start exit
                final := by
  have equivalent := prepare_equivalent plain options
  refine ⟨equivalent.length, fun index method known => ?_⟩
  obtain ⟨method', known', same⟩ := equivalent.methods index method known
  refine ⟨method', known', fun self oracle start exit final => ?_⟩
  have suits := program.setting_suits method self oracle
  rw [equivalent.setting same self oracle, Method.Ends, Method.Ends]
  simp only [same.run _ suits]

def adding : Method where
  name := "adding"
  returnTy := .int
  locals := [{ name := "x", ty := .int }, { name := "y", ty := .int }]
  body := [
    .assign {} (.var ⟨.int, {}⟩ "x")
      (.binary ⟨.int, {}⟩ .mul (.int ⟨.int, {}⟩ 2) (.int ⟨.int, {}⟩ 3)),
    .assign {} (.var ⟨.int, {}⟩ "y")
      (.binary ⟨.int, {}⟩ .add (.var ⟨.int, {}⟩ "x") (.int ⟨.int, {}⟩ 1)),
    .loop {}
      (.binary ⟨.boolean, {}⟩ .lt (.var ⟨.int, {}⟩ "y")
        (.int ⟨.int, {}⟩ 10))
      (.assign {} (.var ⟨.int, {}⟩ "y")
        (.binary ⟨.int, {}⟩ .add (.var ⟨.int, {}⟩ "y")
          (.var ⟨.int, {}⟩ "x"))),
    .ret {} (some (.var ⟨.int, {}⟩ "y"))]

def adder : Program where
  declared := { name := "Adder", methods := [adding] }

theorem prepare_ends_adding :
    ∃ method' final,
      (adder.prepare { optimize := true }).program.declared.methods[0]? =
        some method' ∧
      method'.Ends
        ((adder.prepare { optimize := true }).program.setting method' .null
          fun _ _ world => (.ok .null, world.toMemory))
        ⟨fun _ => none, ⟨⟨fun _ _ => .null, []⟩, []⟩⟩
        (.returned (some (.word 13))) final := by
  have plain : adder.Plain := by
    simp [Program.Plain, Stmt.PlainAll, adder, adding, Stmt.hasPlainTarget,
      Stmt.Plain, Stmt.preorder]
  obtain ⟨method', known, ends⟩ :=
    (prepare_ends plain { optimize := true }).2 0 adding rfl
  exact ⟨method', _, known, (ends _ _ _ _ _).mpr ⟨by decide, 3, rfl⟩⟩

end Program

end JavaMinus.Tree
