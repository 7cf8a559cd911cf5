import JavaMinus.Proofs.Lowering.Settled

/-!
# Temporaries of lowered code

Every temporary is assigned before it is read, on every path through its
method.  Between statements only the variables count as set, so that a loop
can come back to its condition.
-/

namespace JavaMinus

open Ir (Operand Instr Fragment)
open Lowering

/-! ## Statements -/

namespace Lowering

variable {scope : Scope} {supply after : Supply} {code : List Fragment}

theorem increment?_reads {name other : String} {ty : Ty} {value : Tree.Expr}
    {step : Instr} (h : increment? name ty value = some step)
    (isRead : other ∈ step.reads) : other = name := by
  obtain ⟨_, _, _, _, _, _, _, _, ⟨_, _, rfl⟩ | ⟨_, _, rfl⟩⟩ :=
    increment?_eq_some h <;>
    simpa [Instr.reads, Operand.int, Operand.variables] using isRead

theorem assignElement_secures {before first second : Supply}
    {known : Set String} {name : String} {ty : Ty} {place op : Operand}
    {arrayCode placeCode valueCode : List Fragment}
    (onArray : Secures before first known arrayCode
      (known ∪ uses (.var name ty)))
    (onPlace : Secures first second (known ∪ uses (.var name ty)) placeCode
      (known ∪ uses (.var name ty) ∪ uses place))
    (onValue : Secures second after
      (known ∪ uses (.var name ty) ∪ uses place) valueCode
      (known ∪ uses (.var name ty) ∪ uses place ∪ uses op)) :
    Secures before after known
      (arrayCode ++ placeCode ++ valueCode ++
        [.instr (.store (.element name place) (.single op))]) known := by
  refine (((onArray.append onPlace).append onValue).andInstr (.refl after)
    rfl fun other isRead => ?_).mono subset_rfl
    (Set.subset_union_left.trans (Set.subset_union_left.trans
      (Set.subset_union_left.trans Set.subset_union_left)))
  simp only [Instr.reads, Instr.store, List.cons_append, List.mem_cons,
    List.mem_append] at isRead
  rcases isRead with rfl | isRead | isRead
  · exact .inl (.inl (.inr (by simp)))
  · exact .inl (.inr isRead)
  · exact .inr isRead

theorem ret_secures {before : Supply} {known : Set String} {ty : Ty}
    {op : Operand}
    (onValue : Secures before after known code (known ∪ uses op)) :
    Secures before after known (code ++ [.instr (.ret ty (some op))])
      known := by
  obtain ⟨marks, certified, sets⟩ := onValue.certified
  refine ⟨onValue.toDraws.append (.of_straight (.refl _) rfl rfl), marks,
    certified_append.mpr ⟨certified, ⟨?_, ?_⟩, trivial⟩, ?_⟩
  · exact (Set.union_subset_iff.mp sets).2
  · simp [Instr.target?]
  · simp [Fragment.after, Instr.isJump]

theorem certified_thenGoto {marks : Marks} {known : Set String}
    {label : String} (h : Certified marks known code)
    (marked : marks label ⊆ settled marks known code) :
    Certified marks known (thenGoto label code) ∧
      settled marks known (thenGoto label code) = Set.univ := by
  rw [thenGoto]
  split
  · refine ⟨certified_append.mpr ⟨h, ⟨?_, ?_⟩, trivial⟩, ?_⟩
    · simp [Instr.reads]
    · simpa [Instr.target?] using marked
    · simp [Fragment.after, Instr.isJump]
  next jumps =>
    refine ⟨h, ?_⟩
    rw [fallsThrough] at jumps
    split at jumps
    next instr last =>
      obtain ⟨front, rfl⟩ := List.getLast?_eq_some_iff.mp last
      have isJump : instr.isJump = true := by simpa using jumps
      simp [Fragment.after, isJump]
    · exact absurd rfl jumps

end Lowering

namespace Tree.Stmt

variable {scope : Scope} {supply after : Supply} {code : List Fragment}

private theorem conditional_secures
    {before first second third fourth : Supply}
    {condCode falseCode trueCode : List Fragment} {op : Operand}
    {thenLabel endLabel : String} {known : Set String}
    (onCond : Secures before first known condCode (known ∪ uses op))
    (hthen : Lower.label "then" first = .ok thenLabel second)
    (hend : Lower.label "endif" second = .ok endLabel third)
    (onFalse : Secures third fourth known falseCode known)
    (onTrue : Secures fourth after known trueCode known) :
    Secures before after known
      (thenGoto endLabel
        (condCode ++ .instr (.branch op thenLabel) :: falseCode) ++
        .label thenLabel :: trueCode ++ [.label endLabel]) known := by
  have draws := conditional_draws op onCond.toDraws hthen hend onFalse.toDraws
    onTrue.toDraws
  have distinct := draws.labelled.distinct
  simp only [labelNames_append, labelNames_thenGoto, labelNames_instr,
    labelNames_label, labelNames_nil, List.nodup_append, List.nodup_cons,
    List.mem_append, List.mem_cons] at distinct
  obtain ⟨all, atOwn, each⟩ := exists_marks (fun _ => known)
    [(condCode, known ∪ uses op), (falseCode, known), (trueCode, known)]
    (by simpa using ⟨⟨_, _, onCond⟩, ⟨_, _, onFalse⟩, _, _, onTrue⟩)
    (by simp; grind [List.Disjoint])
  simp only [List.forall_mem_cons, List.not_mem_nil, false_implies,
    implies_true, and_true] at atOwn each
  obtain ⟨⟨condFits, condSets⟩, ⟨falseFits, falseSets⟩, trueFits, trueSets⟩ :=
    each
  have atThen : all thenLabel = known := atOwn thenLabel (by grind)
  have atEnd : all endLabel = known := atOwn endLabel (by grind)
  obtain ⟨condKeeps, condUses⟩ := Set.union_subset_iff.mp condSets
  have upper : Certified all known
        (condCode ++ .instr (.branch op thenLabel) :: falseCode) ∧
      known ⊆ settled all known
        (condCode ++ .instr (.branch op thenLabel) :: falseCode) := by
    have keeps : known ⊆ Fragment.after all (settled all known condCode)
        (.instr (.branch op thenLabel)) := by
      simpa [Fragment.after, Instr.isJump] using
        condKeeps.trans Set.subset_union_left
    constructor
    · refine certified_append.mpr
        ⟨condFits, ⟨condUses, ?_⟩, falseFits.mono keeps⟩
      simpa [Instr.target?, atThen] using condKeeps
    · rw [settled_append, settled_cons]
      exact falseSets.trans (settled_mono keeps)
  obtain ⟨upperFits, nothing⟩ :=
    certified_thenGoto upper.1 (atEnd.trans_subset upper.2)
  refine ⟨draws, all, ?_, ?_⟩
  · rw [certified_append, certified_append]
    refine ⟨⟨upperFits, ?_⟩, ?_⟩
    · rw [nothing]
      refine ⟨Set.subset_univ _, ?_⟩
      simpa [Fragment.after, atThen] using trueFits
    · refine ⟨?_, trivial⟩
      simpa [nothing, Fragment.Fits, Fragment.after, atThen, atEnd]
        using trueSets
  · simp [Fragment.after, atEnd]

private theorem loop_secures {before first second third fourth : Supply}
    {condCode bodyCode : List Fragment} {op : Operand}
    {condLabel bodyLabel endLabel : String} {known : Set String}
    (hcond : Lower.label "whileCond" before = .ok condLabel first)
    (hbody : Lower.label "whileBody" first = .ok bodyLabel second)
    (hend : Lower.label "whileEnd" second = .ok endLabel third)
    (onCond : Secures third fourth known condCode (known ∪ uses op))
    (onBody : Secures fourth after known bodyCode known) :
    Secures before after known
      (thenGoto condLabel
        (.label condLabel :: condCode ++
          [.instr (.branch op bodyLabel), .instr (.goto endLabel),
            .label bodyLabel] ++ bodyCode) ++ [.label endLabel]) known := by
  have draws := loop_draws op hcond hbody hend onCond.toDraws onBody.toDraws
  have distinct := draws.labelled.distinct
  simp only [labelNames_append, labelNames_thenGoto, labelNames_instr,
    labelNames_label, labelNames_nil, List.nodup_append, List.nodup_cons,
    List.mem_append, List.mem_cons] at distinct
  -- The jump back needs no more than the variables either.
  obtain ⟨all, atOwn, each⟩ := exists_marks (fun _ => known)
    [(condCode, known ∪ uses op), (bodyCode, known)]
    (by simpa using ⟨⟨_, _, onCond⟩, _, _, onBody⟩)
    (by simp; grind [List.Disjoint])
  simp only [List.forall_mem_cons, List.not_mem_nil, false_implies,
    implies_true, and_true] at atOwn each
  obtain ⟨⟨condFits, condSets⟩, bodyFits, bodySets⟩ := each
  have atCond : all condLabel = known := atOwn condLabel (by grind)
  have atBody : all bodyLabel = known := atOwn bodyLabel (by grind)
  have atEnd : all endLabel = known := atOwn endLabel (by grind)
  obtain ⟨condKeeps, condUses⟩ := Set.union_subset_iff.mp condSets
  have inside : Certified all known
        (.label condLabel :: condCode ++
          [.instr (.branch op bodyLabel), .instr (.goto endLabel),
            .label bodyLabel] ++ bodyCode) ∧
      known ⊆ settled all known
        (.label condLabel :: condCode ++
          [.instr (.branch op bodyLabel), .instr (.goto endLabel),
            .label bodyLabel] ++ bodyCode) := by
    constructor
    · have leaves : known ⊆ settled all known condCode ∪
          { name | (Instr.branch op bodyLabel).sets? = some name } :=
        condKeeps.trans Set.subset_union_left
      simpa [certified_append, Certified, Fragment.Fits, Fragment.after,
        Instr.reads, Instr.target?, Instr.isJump, atCond, atBody, atEnd,
        condFits, bodyFits] using And.intro ⟨condUses, condKeeps⟩ leaves
    · simpa [Fragment.after, atCond, atBody] using bodySets
  obtain ⟨fits, nothing⟩ :=
    certified_thenGoto inside.1 (atCond.trans_subset inside.2)
  refine ⟨draws, all, certified_append.mpr ⟨fits, ?_⟩, ?_⟩
  · rw [nothing]
    exact ⟨Set.subset_univ _, trivial⟩
  · simp [Fragment.after, atEnd]

theorem lower_secures {stmt : Stmt}
    (h : stmt.lower scope supply = .ok code after)
    (resolves : stmt.resolves scope = true) :
    Secures supply after scope.declared code scope.declared := by
  induction h using lower_induction with
  | nil => exact .nil _ _
  | cons _ _ onFirst onRest =>
      simp only [Stmt.resolves, resolvesAll, Bool.and_eq_true]
        at resolves onRest
      exact (onFirst resolves.1).append (onRest resolves.2)
  | increment _ origin hstep =>
      refine (Secures.single (.refl _) rfl ?_).mono subset_rfl
        Set.subset_union_left
      intro other isRead
      rw [increment?_reads hstep isRead]
      exact ⟨_, origin⟩
  | assignVar _ _ hvalue | assignField _ _ hvalue =>
      simp only [Stmt.resolves, Bool.and_eq_true] at resolves
      have onValue := Expr.lower_secures hvalue resolves.2 subset_rfl
      exact (onValue.andInstr (.refl _) rfl fun _ => .inr).mono subset_rfl
        (Set.subset_union_left.trans Set.subset_union_left)
  | assignElement form harray hposition hvalue =>
      simp only [Stmt.resolves, Bool.and_eq_true] at resolves
      obtain ⟨onTarget, resolves⟩ := resolves
      rw [← Expr.resolves_skipParens, Expr.isName, form] at onTarget
      simp only [Expr.resolves, Bool.false_or, Bool.and_eq_true] at onTarget
      exact assignElement_secures
        (Expr.lower_secures harray onTarget.1 subset_rfl)
        (Expr.lower_secures hposition onTarget.2 Set.subset_union_left)
        (Expr.lower_secures hvalue resolves
          (Set.subset_union_left.trans Set.subset_union_left))
  | expr hvalue =>
      rw [Stmt.resolves] at resolves
      exact Expr.lower_secures_discarded hvalue resolves
  | retVoid =>
      refine ⟨.of_straight (.refl _) rfl rfl, fun _ => ∅, ?_, ?_⟩
      · simp [Certified, Fragment.Fits, Instr.reads, Instr.target?]
      · simp [Fragment.after, Instr.isJump]
  | ret hvalue =>
      rw [Stmt.resolves] at resolves
      exact ret_secures (Expr.lower_secures hvalue resolves subset_rfl)
  | ifThen hcond hthen hend _ ih =>
      simp only [Stmt.resolves, Bool.and_eq_true] at resolves
      exact conditional_secures
        (Expr.lower_secures hcond resolves.1 subset_rfl) hthen hend
        (.nil _ _) (ih resolves.2)
  | ifElse hcond hthen hend _ _ ihFalse ihTrue =>
      simp only [Stmt.resolves, Bool.and_eq_true] at resolves
      exact conditional_secures
        (Expr.lower_secures hcond resolves.1.1 subset_rfl) hthen hend
        (ihFalse resolves.2) (ihTrue resolves.1.2)
  | loop hcondLabel hbodyLabel hendLabel hcond _ ih =>
      simp only [Stmt.resolves, Bool.and_eq_true] at resolves
      exact loop_secures hcondLabel hbodyLabel hendLabel
        (Expr.lower_secures hcond resolves.1 subset_rfl) (ih resolves.2)

theorem lowerAll_secures {stmts : List Stmt}
    (h : lowerAll scope stmts supply = .ok code after)
    (resolves : resolvesAll scope stmts = true) :
    Secures supply after scope.declared code scope.declared :=
  lower_secures (lower_of_lowerAll h) (by rwa [Stmt.resolves])

end Tree.Stmt

/-! ## Temporaries -/

namespace Supply

def drawn (before after : Supply) : List String :=
  ((List.range' before.nextTemp (after.nextTemp - before.nextTemp)).map
    tempName).filter fun name => !after.reserved.contains name

variable {before after : Supply} {name : String}

theorem mem_drawn :
    name ∈ before.drawn after ↔ name ∉ after.reserved ∧
      ∃ number, before.nextTemp ≤ number ∧ number < after.nextTemp ∧
        name = tempName number := by
  simp only [drawn, List.mem_filter, List.mem_map, List.mem_range'_1,
    Bool.not_eq_true', List.contains_eq_mem, decide_eq_false_iff_not]
  constructor
  · rintro ⟨⟨number, ⟨low, high⟩, rfl⟩, free⟩
    exact ⟨free, number, low, by omega, rfl⟩
  · rintro ⟨free, number, low, high, rfl⟩
    exact ⟨⟨number, ⟨low, by omega⟩, rfl⟩, free⟩

theorem Drawn.mem_drawn (h : before.Drawn after name) :
    name ∈ before.drawn after := by
  have free : name ∉ after.reserved := fun member =>
    h.isNew (.inl (h.reserved ▸ member))
  obtain ⟨number, high, rfl⟩ := h.kept.resolve_left free
  refine Supply.mem_drawn.mpr ⟨free, number, ?_, high, rfl⟩
  by_contra low
  exact h.isNew (.inr ⟨number, by omega, rfl⟩)

end Supply

namespace Tree

def Method.temporaries (table : SymbolTable) (method : Method) :
    Lower (List String) := do
  let before ← get
  let _ ← method.fragments table
  pure (before.drawn (← get))

def Method.temporariesAll (table : SymbolTable) :
    List Method → Lower (List (List String))
  | [] => pure []
  | method :: rest => do
      let temps ← method.temporaries table
      let others ← temporariesAll table rest
      pure (temps :: others)

def Program.temporaries (table : SymbolTable) (program : Program) :
    Lower (List (List String)) := do
  let temps ← Method.temporariesAll table program.declared.methods
  pure (temps ++ [[]])

end Tree

theorem Lowering.Executes.sets? {scope : Scope} {written : String → Prop}
    {before after : Supply} {instr : Instr} {name : String}
    (h : Executes scope written before after instr)
    (sets : instr.sets? = some name) :
    name ∈ before.drawn after ∨ scope.IsVariable name := by
  cases h with
  | evaluates h =>
      cases h with
      | store drawn _ =>
          cases sets
          exact .inl drawn.mem_drawn
      | element | start | invoke | branch | goto => cases sets
  | assign isVariable _ _ =>
      cases sets
      exact .inr isVariable
  | assignElement | putField | ret | retVoid => cases sets

structure UsesTemps (table : SymbolTable) (temps : List String)
    (method : Ir.Method) : Prop where
  assigned : ∀ passed index code name, method.Path passed index →
    method.instrs[index]? = some code → name ∈ code.reads → name ∈ temps →
    ∃ earlier ∈ passed, earlier.sets? = some name
  apart : ∀ name ∈ temps,
    name ∉ (table.params method.name).map Symbol.name ∧
      name ∉ (table.locals method.name).map Symbol.name
  all : ∀ code ∈ method.instrs, ∀ name, code.sets? = some name →
    name ∈ temps ∨
      ({ table, method := method.name } : Scope).IsVariable name

namespace Tree

variable {table : SymbolTable} {supply after : Supply}

/-- The variables of a method, also those that others hide, are reserved. -/
theorem Method.mem_reservedNames {method : Method} {name : String}
    (h : name ∈ (table.params method.name).map Symbol.name ∨
      name ∈ (table.locals method.name).map Symbol.name) :
    name ∈ reservedNames table method := by
  simp only [reservedNames, List.mem_append]
  rcases h with member | member
  · rw [SymbolTable.params] at member
    cases known : table.method? method.name with
    | none => simp [known] at member
    | some signature =>
        rw [known] at member
        exact .inl (.inl member)
  · exact .inl (.inr member)

theorem Method.lower_name {method : Method} {lowered : Ir.Method}
    (h : method.lower table supply = .ok lowered after) :
    lowered.name = method.name := by
  obtain ⟨_, reserved, hreserve, h⟩ := Action.bind_eq_ok.mp h
  obtain ⟨code, mid, hcode, h⟩ := Action.bind_eq_ok.mp h
  obtain ⟨rfl, rfl⟩ := Action.pure_eq_ok.mp h
  rfl

theorem Method.lower_temporaries {method : Method} {lowered : Ir.Method}
    (h : method.lower table supply = .ok lowered after) :
    method.temporaries table supply = .ok (supply.drawn after) after := by
  obtain ⟨code, hcode, _⟩ := lower_eq_ok h
  have fragments : method.fragments table supply = .ok code after := hcode
  change (method.fragments table >>= fun _ => _) supply = _
  rw [Action.bind_of_ok fragments]
  rfl

theorem Method.lower_usesTemps {method : Method} {lowered : Ir.Method}
    (h : method.lower table supply = .ok lowered after)
    (resolves : Stmt.resolvesAll { table, method := method.name } method.body =
      true) :
    supply.nextTemp ≤ after.nextTemp ∧
      UsesTemps table (supply.drawn after) lowered := by
  obtain ⟨code, hcode, labels, body⟩ := lower_eq_ok h
  have secures := Stmt.lowerAll_secures hcode resolves
  obtain ⟨marks, certified, _⟩ := secures.certified
  have reserved : after.reserved = reservedNames table method :=
    secures.reserved
  have well : WellLabelled code lowered := by
    refine wellLabelled secures.labelled.distinct secures.closed labels ?_
    rw [(lower_fields h).returnTy]
    exact body
  refine ⟨secures.temp, ?_, ?_, ?_⟩
  · intro passed index instr name path fetch reads isTemp
    rcases certified.reads_of_path well body path fetch reads with
      isVariable | assigned
    · have member := reserved_of_variable supply name isVariable
      exact absurd (reserved ▸ member) (Supply.mem_drawn.mp isTemp).1
    · exact assigned
  · intro name isTemp
    have free := (Supply.mem_drawn.mp isTemp).1
    rw [reserved] at free
    rw [lower_name h]
    exact ⟨fun isParam => free (mem_reservedNames (.inl isParam)),
      fun isLocal => free (mem_reservedNames (.inr isLocal))⟩
  · intro instr member name sets
    rw [body] at member
    rcases mem_close member with isOld | rfl
    · rw [lower_name h]
      exact ((Stmt.lowerAll_implements hcode).each instr isOld).sets? sets
    · simp [Instr.sets?] at sets

/-- Temporaries of later methods have higher numbers. -/
theorem Method.lowerAll_usesTemps {methods : List Method}
    {lowered : List Ir.Method}
    (h : Method.lowerAll table methods supply = .ok lowered after)
    (resolves : ∀ method ∈ methods,
      Stmt.resolvesAll { table, method := method.name } method.body = true) :
    ∃ temps, temporariesAll table methods supply = .ok temps after ∧
      supply.nextTemp ≤ after.nextTemp ∧
      (∀ names ∈ temps, ∀ name ∈ names, ∃ number,
        supply.nextTemp ≤ number ∧ name = Supply.tempName number) ∧
      temps.Pairwise List.Disjoint ∧
      List.Forall₂ (UsesTemps table) temps lowered := by
  induction methods generalizing supply lowered with
  | nil =>
      obtain ⟨rfl, rfl⟩ := Action.pure_eq_ok.mp h
      exact ⟨[], rfl, Nat.le_refl _, by simp, .nil, .nil⟩
  | cons method methods ih =>
      obtain ⟨first, mid, hfirst, h⟩ := Action.bind_eq_ok.mp h
      obtain ⟨rest, last, hrest, h⟩ := Action.bind_eq_ok.mp h
      obtain ⟨rfl, rfl⟩ := Action.pure_eq_ok.mp h
      obtain ⟨more, usesTemps⟩ := lower_usesTemps hfirst
        (resolves method (by simp))
      obtain ⟨temps, htemps, more', later, apart, usesRest⟩ := ih hrest
        fun method member => resolves method (by simp [member])
      refine ⟨supply.drawn mid :: temps, ?_, Nat.le_trans more more', ?_,
        .cons ?_ apart, .cons usesTemps usesRest⟩
      · rw [temporariesAll, Action.bind_of_ok (lower_temporaries hfirst),
          Action.bind_of_ok htemps]
        rfl
      · intro names member name isTemp
        rcases List.mem_cons.mp member with rfl | member
        · obtain ⟨_, number, low, _, rfl⟩ := Supply.mem_drawn.mp isTemp
          exact ⟨number, low, rfl⟩
        · obtain ⟨number, low, rfl⟩ := later names member name isTemp
          exact ⟨number, Nat.le_trans more low, rfl⟩
      · intro names member name isFirst isLater
        obtain ⟨_, number, _, high, rfl⟩ := Supply.mem_drawn.mp isFirst
        obtain ⟨other, low, same⟩ := later names member _ isLater
        have := Supply.tempName_injective same
        omega

theorem constructor_usesTemps (className : String) :
    UsesTemps table [] (defaultConstructor className) := by
  constructor <;> simp [defaultConstructor, Instr.sets?]

/--
Where every name that is used as a value has one, temporaries are assigned
before they are read, on every path.  They are called like no variable of
their method, and no two methods share one.
-/
theorem Program.lower_assigns_temporaries {program : Program} {cls : Ir.Class}
    (h : program.lower table supply = .ok cls after)
    (resolves : program.resolves table = true) :
    ∃ temps, program.temporaries table supply = .ok temps after ∧
      temps.Pairwise List.Disjoint ∧
      List.Forall₂ (UsesTemps table) temps cls.methods := by
  obtain ⟨lowered, mid, hlowered, h⟩ := Action.bind_eq_ok.mp h
  obtain ⟨rfl, rfl⟩ := Action.pure_eq_ok.mp h
  obtain ⟨temps, htemps, _, _, apart, usesTemps⟩ :=
    Method.lowerAll_usesTemps hlowered (List.all_eq_true.mp resolves)
  refine ⟨temps ++ [[]], ?_, ?_, ?_⟩
  · rw [temporaries, Action.bind_of_ok htemps]
    rfl
  · refine List.pairwise_append.mpr ⟨apart, List.pairwise_singleton _ _, ?_⟩
    simp
  · exact List.rel_append usesTemps (.cons (constructor_usesTemps _) .nil)

def checking : Program where
  declared := { name := "A", methods := [
    { name := "f"
      returnTy := .boolean
      params := [{ name := "a", ty := .int }, { name := "b", ty := .boolean }]
      body := [
        .ret {} (some (.binary ⟨.boolean, {}⟩ .and (.var ⟨.boolean, {}⟩ "b")
          (.binary ⟨.boolean, {}⟩ .lt (.var ⟨.int, {}⟩ "a")
            (.int ⟨.int, {}⟩ 1))))] },
    { name := "g"
      returnTy := .boolean
      params := [{ name := "tmp2", ty := .int }]
      body := [
        .ret {} (some (.call ⟨.boolean, {}⟩ (.self ⟨.object "A", {}⟩) "f"
          [.var ⟨.int, {}⟩ "tmp2", .bool ⟨.boolean, {}⟩ true]))] }] }

theorem lower_assigns_temporaries_checking :
    ∃ cls after temps, checking.lower (.ofProgram checking) {} = .ok cls after ∧
      temps = [["tmp0", "tmp1"], ["tmp3"], []] ∧
      List.Forall₂ (UsesTemps (.ofProgram checking)) temps cls.methods := by
  have known : (match checking.lower (.ofProgram checking) {},
        checking.temporaries (.ofProgram checking) {} with
      | .ok _ _, .ok temps _ => some temps
      | _, _ => none) = some [["tmp0", "tmp1"], ["tmp3"], []] := by
    decide +kernel
  cases lowered : checking.lower (.ofProgram checking) {} with
  | error cause after => simp [lowered] at known
  | ok cls after =>
      obtain ⟨temps, drawn, _, usesTemps⟩ :=
        Program.lower_assigns_temporaries lowered (by decide)
      simp only [lowered, drawn, Option.some.injEq] at known
      exact ⟨cls, after, temps, rfl, known, usesTemps⟩

end Tree

end JavaMinus
