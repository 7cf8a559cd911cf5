import JavaMinus.Proofs.Emission.Mirroring
import JavaMinus.Proofs.Emission.Targets
import JavaMinus.Proofs.Lowering.Supplies

/-!
# Programs under other names

Code that was lowered from two supplies is emitted as the same lines.  Only
the labels are called differently, and those at one place may come in another
order, since it is the order of their names.
-/

namespace JavaMinus

open Ir (Instr Labels Registers)
open Lowering

/-! ## Methods -/

namespace Jvm.Gen

variable {names : Ir.Renaming}

theorem labels_eq (list : List String) (frame : Frame) :
    labels list frame = .ok () { frame with
      code := { frame.code with
        lines := frame.code.lines ++ (list.map Line.label).toArray } } := by
  induction list generalizing frame with
  | nil => simp [labels, Action.pure_eq_ok]
  | cons name list ih =>
      have first : emit (.label name) frame = .ok () { frame with
          code := { frame.code with
            lines := frame.code.lines.push (.label name) } } := rfl
      rw [labels, Action.bind_of_ok first, ih]
      simp

theorem labels_mirrors {list list' : List String}
    (h : (list.map names.labels).Perm list') :
    Mirrors (Frame.Renamed names) (labels list) (labels list') := by
  intro frame frame' isRenamed
  rw [labels_eq]
  refine ⟨_, labels_eq list' frame', isRenamed.registers,
    isRenamed.comparisons, isRenamed.code.depth, isRenamed.code.peak, ?_⟩
  have shuffled := isRenamed.code.lines.append (Shuffled.of_perm h)
  simpa [Function.comp_def, Line.relabel] using shuffled

theorem before_rename {place place' : Labels}
    (h : (place.rename names).Perm place') (index : Nat) :
    ((place.before index).map names.labels).Perm (place'.before index) := by
  have filtered := (h.filter fun entry => entry.2 = index).map Prod.fst
  rw [Ir.Labels.rename, List.filter_map, List.map_map] at filtered
  rw [Ir.Labels.before, List.map_map]
  exact filtered

theorem body_mirrors (linkage : Linkage)
    (fixes : KeepsComparisons names.labels) {place place' : Labels}
    (h : (place.rename names).Perm place') (method : String) (index : Nat)
    (instrs : List Instr) :
    Mirrors (Frame.Renamed names) (body linkage place method index instrs)
      (body linkage place' method index
        (instrs.map (Instr.rename names))) := by
  induction instrs generalizing index with
  | nil => exact labels_mirrors (before_rename h index)
  | cons code rest ih =>
      refine (labels_mirrors (before_rename h index)).bind fun _ => ?_
      refine (instr_mirrors linkage fixes code).bind fun _ => ?_
      refine (dropResult_mirrors code).bind fun _ => ?_
      refine depth_mirrors.bind fun left => ?_
      split
      · exact .throw _ _
      · exact ih (index + 1)

theorem method_mirrors (linkage : Linkage)
    (fixes : KeepsComparisons names.labels) {source source' : Ir.Method}
    (h : source.Renamed names source') (name : String) :
    Mirrors (Frame.Renamed names) (method linkage name source)
      (method linkage name source') := by
  have returnTy : source'.returnTy = source.returnTy := by rw [h.rest]
  have ends : source'.endsWithReturn = source.endsWithReturn := by
    rw [Ir.Method.endsWithReturn, Ir.Method.endsWithReturn, h.instrs,
      List.getLast?_map]
    cases source.instrs.getLast? <;> simp
  rw [method, method, returnTy, ends, h.instrs]
  refine (body_mirrors linkage fixes h.labels name 0 source.instrs).bind
    fun _ => ?_
  split
  · exact emit_mirrors (Emit.plain_mirrors .vreturn)
  · exact .pure ()

end Jvm.Gen

def Alike {ε α : Type} (related : α → α → Prop) :
    Except ε α → Except ε α → Prop
  | .ok value, .ok value' => related value value'
  | .error _, .error _ => True
  | _, _ => False

theorem Alike.bind {ε α β : Type} {related : α → α → Prop}
    {related' : β → β → Prop} {first first' : Except ε α}
    {second second' : α → Except ε β} (h : Alike related first first')
    (h' : ∀ value value', related value value' →
      Alike related' (second value) (second' value')) :
    Alike related' (first >>= second) (first' >>= second') := by
  cases first with
  | ok value =>
      cases first' with
      | ok value' => exact h' value value' h
      | error cause' => exact h.elim
  | error cause =>
      cases first' with
      | ok value' => exact h.elim
      | error cause' => trivial

namespace Jvm

structure Method.Relabelled (labels : Equiv.Perm String)
    (method method' : Method) : Prop where
  lines : Shuffled (method.lines.map (Line.relabel labels)) method'.lines
  rest : method' = { method with lines := method'.lines }

structure Class.Relabelled (labels : Equiv.Perm String)
    (cls cls' : Class) : Prop where
  methods : List.Forall₂ (Method.Relabelled labels) cls.methods cls'.methods
  rest : cls' = { cls with methods := cls'.methods }

theorem localCount_rename {names : Ir.Renaming} {source source' : Ir.Method}
    (h : source.Renamed names source') {registers registers' : Registers}
    (renamed : registers'.names = registers.names.map names.vars) :
    localCount source' registers' = localCount source registers := by
  have params : source'.params = source.params := by rw [h.rest]
  have isStatic : source'.isStatic = source.isStatic := by rw [h.rest]
  have member : "this" ∈ registers.names.map names.vars ↔
      "this" ∈ registers.names := by
    conv_lhs => rw [← h.self]
    exact List.mem_map_of_injective names.vars.injective
  have receiver : registers'.contains "this" = registers.contains "this" := by
    simp only [Registers.contains, renamed, List.contains_eq_mem, member]
  rw [localCount, localCount, params, isStatic, receiver, Registers.size,
    Registers.size, renamed, List.length_map]

theorem Method.ofIr_renamed {names : Ir.Renaming} {source source' : Ir.Method}
    (linkage : Linkage)
    (fixes : KeepsComparisons names.labels) (h : source.Renamed names source') :
    Alike (Relabelled names.labels) (ofIr linkage source)
      (ofIr linkage source') := by
  have start : Frame.Renamed names { registers := source.registers }
      { registers := source'.registers } := by
    refine ⟨?_, rfl, rfl, rfl, .refl []⟩
    have same : source'.registers = source.registers := by rw [h.rest]
    rw [same]
    exact ((List.map_congr_left h.kept).trans (List.map_id _)).symm
  have name : targetName source' = targetName source := by
    rw [targetName, targetName, h.rest]
  have outcome := Gen.method_mirrors linkage fixes h (targetName source) _ _
    start
  rw [ofIr, ofIr]
  dsimp only
  rw [name]
  cases ran : Gen.method linkage (targetName source) source
      { registers := source.registers } with
  | error cause frame =>
      rw [ran] at outcome
      obtain ⟨cause', frame', ran'⟩ := outcome
      rw [ran']
      trivial
  | ok _ frame =>
      rw [ran] at outcome
      obtain ⟨frame', ran', renamed⟩ := outcome
      rw [ran']
      dsimp only
      rw [localCount_rename h renamed.registers]
      by_cases many : Jvm.maxLocals < localCount source frame.registers
      · rw [if_pos many, if_pos many]
        trivial
      · rw [if_neg many, if_neg many]
        refine ⟨renamed.code.lines, ?_⟩
        rw [h.rest, renamed.code.peak]

theorem Method.ofIrAll_renamed {table : SymbolTable}
    {labels : Equiv.Perm String} {temps temps' : List (List String)}
    {methods methods' : List Ir.Method} (linkage : Linkage)
    (fixes : KeepsComparisons labels)
    (h : Ir.RenamedAll table labels temps temps' methods methods') :
    Alike (List.Forall₂ (Relabelled labels)) (ofIrAll linkage methods)
      (ofIrAll linkage methods') := by
  induction h with
  | nil => exact List.Forall₂.nil
  | cons vars _ _ renamed _ ih =>
      refine (ofIr_renamed linkage fixes renamed).bind
        fun method method' relabelled => ?_
      exact ih.bind fun rest rest' relabelledAll =>
        List.Forall₂.cons relabelled relabelledAll

end Jvm

/--
Classes that differ in the names of labels, and in those of the temporaries
that each method draws.
-/
structure Ir.Class.Renamed (table : SymbolTable)
    (labels : Equiv.Perm String) (temps temps' : List (List String))
    (cls cls' : Ir.Class) : Prop where
  methods : Ir.RenamedAll table labels temps temps' cls.methods cls'.methods
  rest : cls' = { cls with methods := cls'.methods }

theorem Jvm.Class.ofIr_renamed {table : SymbolTable}
    {labels : Equiv.Perm String} {temps temps' : List (List String)}
    {source source' : Ir.Class} (keeps : KeepsStems labels)
    (h : source.Renamed table labels temps temps' source')
    (linked : SymbolTable) :
    Alike (Jvm.Class.Relabelled labels) (Jvm.Class.ofIr linked source)
      (Jvm.Class.ofIr linked source') := by
  have fixes : Jvm.KeepsComparisons labels := fun number name isComparison =>
    keeps.other name fun _ isLabel => isLabel.not_isComparison isComparison
  have name : source'.name = source.name := by rw [h.rest]
  have superclass : source'.superclass = source.superclass := by rw [h.rest]
  have fields : source'.fields = source.fields := by rw [h.rest]
  rw [ofIr, ofIr, name, superclass, fields]
  exact (Jvm.Method.ofIrAll_renamed _ fixes h.methods).bind
    fun methods methods' relabelled => ⟨relabelled, rfl⟩

/-! ## Programs -/

namespace Tree

variable {table : SymbolTable} {program : Program} {cls : Ir.Class}
  {first second supply after : Supply}

theorem constructor_renamed (labels : Equiv.Perm String)
    (className : String) :
    Ir.RenamedAll table labels [[]] [[]] [defaultConstructor className]
      [defaultConstructor className] :=
  .cons (Equiv.refl _) ⟨rfl, fun _ _ _ => rfl⟩ (fun _ _ => rfl)
    ⟨rfl, .refl _, rfl, rfl, fun _ _ => rfl⟩ .nil

theorem Method.temporariesAll_nodup {methods : List Method}
    {temps : List (List String)}
    (h : temporariesAll table methods supply = .ok temps after) :
    ∀ names ∈ temps, names.Nodup := by
  induction methods generalizing supply temps with
  | nil =>
      obtain ⟨rfl, rfl⟩ := Action.pure_eq_ok.mp h
      simp
  | cons method methods ih =>
      obtain ⟨names, mid, hnames, h⟩ := Action.bind_eq_ok.mp h
      obtain ⟨others, last, hothers, h⟩ := Action.bind_eq_ok.mp h
      obtain ⟨rfl, rfl⟩ := Action.pure_eq_ok.mp h
      refine List.forall_mem_cons.mpr ⟨?_, ih hothers⟩
      change (method.fragments table >>= fun _ => _) supply = _ at hnames
      obtain ⟨code, mid', _, hnames⟩ := Action.bind_eq_ok.mp hnames
      cases hnames
      exact Supply.drawn_nodup supply mid

theorem Program.temporaries_nodup {temps : List (List String)}
    (resolves : program.resolves table = true)
    (h : program.lower table supply = .ok cls after)
    (drawn : program.temporaries table supply = .ok temps after) :
    temps.flatten.Nodup := by
  obtain ⟨lowered, mid, hlowered, h⟩ := Action.bind_eq_ok.mp h
  obtain ⟨rfl, rfl⟩ := Action.pure_eq_ok.mp h
  obtain ⟨temps', htemps, _, _, apart, _⟩ :=
    Method.lowerAll_usesTemps hlowered (List.all_eq_true.mp resolves)
  rw [temporaries, Action.bind_of_ok htemps] at drawn
  cases drawn
  have distinct : temps'.flatten.Nodup :=
    List.nodup_flatten.mpr ⟨Method.temporariesAll_nodup htemps, apart⟩
  simpa using distinct

theorem Program.lower_fails {cause : Breach}
    (resolves : program.resolves table = true)
    (h : program.lower table first = .error cause after) :
    ∃ after', program.lower table second = .error cause after' := by
  rw [lower] at h ⊢
  cases hmethods : Method.lowerAll table program.declared.methods first with
  | ok methods mid =>
      rw [Action.bind_of_ok hmethods] at h
      cases h
  | error cause' mid =>
      rw [Action.bind_of_error hmethods] at h
      cases h
      obtain ⟨after', hmethods'⟩ := Method.lowerAll_fails hmethods
        (List.all_eq_true.mp resolves)
      exact ⟨after', Action.bind_of_error hmethods'⟩

theorem Program.lower_renamed (resolves : program.resolves table = true)
    (h : program.lower table first = .ok cls after) (second : Supply) :
    ∃ cls' after' labels temps temps',
      program.lower table second = .ok cls' after' ∧ KeepsStems labels ∧
      program.temporaries table first = .ok temps after ∧
      program.temporaries table second = .ok temps' after' ∧
      cls.Renamed table labels temps temps' cls' := by
  obtain ⟨methods, mid, hmethods, h⟩ := Action.bind_eq_ok.mp h
  obtain ⟨rfl, rfl⟩ := Action.pure_eq_ok.mp h
  obtain ⟨labels, shifts, keeps⟩ := exists_shift first.nextLabel
    second.nextLabel (mid.nextLabel - first.nextLabel)
  obtain ⟨methods', after', temps, temps', hmethods', htemps, htemps',
    renamed⟩ := Method.lowerAll_renamed hmethods
      (List.all_eq_true.mp resolves) shifts
  refine ⟨_, after', labels, temps ++ [[]], temps' ++ [[]],
    Action.bind_of_ok hmethods', keeps, ?_, ?_,
    renamed.append (constructor_renamed labels _), rfl⟩
  · rw [temporaries, Action.bind_of_ok htemps]
    rfl
  · rw [temporaries, Action.bind_of_ok htemps']
    rfl

/--
Where the counters of a supply stand does not matter, nor which names it has
reserved.  Either lowering fails for the same reason, or it gives the same
code, with temporaries and labels exchanged one to one and labels at the same
places; and either that code cannot be emitted, or it is emitted as the same
lines, but for the names of labels and the order of those at one place.
-/
theorem Program.lower_ignores_supply
    (resolves : program.resolves table = true) (first second : Supply) :
    match program.lower table first, program.lower table second with
    | .ok cls after, .ok cls' after' =>
        ∃ labels temps temps', KeepsStems labels ∧
          program.temporaries table first = .ok temps after ∧
          program.temporaries table second = .ok temps' after' ∧
          temps.flatten.Nodup ∧ temps'.flatten.Nodup ∧
          cls.Renamed table labels temps temps' cls' ∧
          ∀ linked, Alike (Jvm.Class.Relabelled labels)
            (Jvm.Class.ofIr linked cls) (Jvm.Class.ofIr linked cls')
    | .error cause _, .error cause' _ => cause = cause'
    | _, _ => False := by
  cases lowered : program.lower table first with
  | error cause after =>
      obtain ⟨after', lowered'⟩ := Program.lower_fails resolves lowered
      rw [lowered']
  | ok cls after =>
      obtain ⟨cls', after', labels, temps, temps', lowered', keeps, drawn,
        drawn', renamed⟩ := Program.lower_renamed resolves lowered second
      rw [lowered']
      exact ⟨labels, temps, temps', keeps, drawn, drawn',
        temporaries_nodup resolves lowered drawn,
        temporaries_nodup resolves lowered' drawn', renamed,
        Jvm.Class.ofIr_renamed keeps renamed⟩

/--
One conditional in another, so that two labels of the same stem stand at one
place.  From `endif9` and `endif11` on, their order is not that of `endif1`
and `endif3`, and a parameter is called like a temporary.
-/
def nested : Program where
  declared := { name := "A", methods := [
    { name := "f"
      returnTy := .boolean
      params := [{ name := "tmp9", ty := .boolean }]
      body := [
        .ifThen {} (.var ⟨.boolean, {}⟩ "tmp9")
          (.ifThen {} (.var ⟨.boolean, {}⟩ "tmp9") (.block {} [])),
        .ret {} (some (.not ⟨.boolean, {}⟩
          (.var ⟨.boolean, {}⟩ "tmp9")))] }] }

theorem lower_ignores_supply_nested :
    ∃ cls cls' after after' labels target target',
      nested.lower (.ofProgram nested) {} = .ok cls after ∧
      nested.lower (.ofProgram nested) { nextTemp := 9, nextLabel := 8 } =
        .ok cls' after' ∧
      cls.Renamed (.ofProgram nested) labels [["tmp0"], []] [["tmp10"], []]
        cls' ∧
      Jvm.Class.ofIr (.ofProgram nested) cls = .ok target ∧
      Jvm.Class.ofIr (.ofProgram nested) cls' = .ok target' ∧
      target.Relabelled labels target' := by
  have known : (match nested.lower (.ofProgram nested) {},
        nested.lower (.ofProgram nested) { nextTemp := 9, nextLabel := 8 },
        nested.temporaries (.ofProgram nested) {},
        nested.temporaries (.ofProgram nested)
          { nextTemp := 9, nextLabel := 8 } with
      | .ok cls _, .ok _ _, .ok temps _, .ok temps' _ =>
          some (temps, temps',
            (Jvm.Class.ofIr (.ofProgram nested) cls).isOk)
      | _, _, _, _ => none) =
        some ([["tmp0"], []], [["tmp10"], []], true) := by
    decide +kernel
  have agree := Program.lower_ignores_supply
    (by decide : nested.resolves (.ofProgram nested) = true) {}
    { nextTemp := 9, nextLabel := 8 }
  cases lowered : nested.lower (.ofProgram nested) {} with
  | error cause after => simp [lowered] at known
  | ok cls after =>
      cases lowered' : nested.lower (.ofProgram nested)
          { nextTemp := 9, nextLabel := 8 } with
      | error cause after' => simp [lowered, lowered'] at known
      | ok cls' after' =>
          rw [lowered, lowered'] at agree
          obtain ⟨labels, temps, temps', _, drawn, drawn', _, _, renamed,
            emitted⟩ := agree
          simp only [lowered, lowered', drawn, drawn', Option.some.injEq,
            Prod.mk.injEq] at known
          obtain ⟨rfl, rfl, isOk⟩ := known
          have alike := emitted (.ofProgram nested)
          cases made : Jvm.Class.ofIr (.ofProgram nested) cls with
          | error cause => simp [made, Except.isOk, Except.toBool] at isOk
          | ok target =>
              cases made' : Jvm.Class.ofIr (.ofProgram nested) cls' with
              | error cause =>
                  rw [made, made'] at alike
                  exact alike.elim
              | ok target' =>
                  rw [made, made'] at alike
                  exact ⟨cls, cls', after, after', labels, target, target',
                    rfl, rfl, renamed, made, made', alike⟩

end Tree

end JavaMinus
