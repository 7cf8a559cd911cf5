import JavaMinus.Proofs.Lowering.Renaming
import JavaMinus.Proofs.Lowering.Temporaries
import Mathlib.Data.List.ProdSigma
import Mathlib.Logic.Equiv.Basic

/-!
# Where the counters start

Names are numbered from wherever a supply stands.  The names that two runs
draw can be exchanged for each other, and all other names kept: two supplies
lead to the same code, up to such an exchange.
-/

namespace JavaMinus

open Ir (Instr Fragment Labels)
open Lowering

/-! ## Exchanging names -/

/--
Distinct names can be exchanged for other distinct names.  What holds of both
names of every pair, or of none, holds after the exchange as before.
-/
theorem exists_exchange (pairs : List (String × String))
    (distinct : (pairs.map Prod.fst).Nodup)
    (distinct' : (pairs.map Prod.snd).Nodup) :
    ∃ exchange : Equiv.Perm String,
      (∀ pair ∈ pairs, exchange pair.1 = pair.2) ∧
      ∀ holds : String → Prop, (∀ pair ∈ pairs, holds pair.1 ↔ holds pair.2) →
        ∀ name, holds (exchange name) ↔ holds name := by
  induction pairs with
  | nil => exact ⟨Equiv.refl _, by simp, fun _ _ _ => Iff.rfl⟩
  | cons pair rest ih =>
      obtain ⟨name, name'⟩ := pair
      simp only [List.map_cons, List.nodup_cons] at distinct distinct'
      obtain ⟨exchange, takes, keeps⟩ := ih distinct.2 distinct'.2
      -- Wherever `name` goes so far, the pair is completed by one more swap.
      refine ⟨exchange.trans (Equiv.swap (exchange name) name'), ?_, ?_⟩
      · intro pair member
        rcases List.mem_cons.mp member with rfl | member
        · simp
        · have other : pair.1 ≠ name := fun same =>
            distinct.1 (same ▸ List.mem_map_of_mem member)
          have other' : pair.2 ≠ name' := fun same =>
            distinct'.1 (same ▸ List.mem_map_of_mem member)
          rw [Equiv.trans_apply, takes pair member,
            Equiv.swap_apply_of_ne_of_ne ?_ other']
          rw [← takes pair member]
          exact exchange.injective.ne other
      · intro holds same other
        have before := keeps holds fun pair member =>
          same pair (List.mem_cons_of_mem _ member)
        have ends : holds (exchange name) ↔ holds name' :=
          (before name).trans (same _ List.mem_cons_self)
        rw [Equiv.trans_apply, Equiv.swap_apply_def]
        split
        next here => rw [← ends, ← here, before other]
        next =>
          split
          next here => rw [ends, ← here, before other]
          next => exact before other

/-! ## Labels -/

structure KeepsStems (labels : Equiv.Perm String) : Prop where
  stem : ∀ stem ∈ labelStems, ∀ number : Nat, ∃ number' : Nat,
    labels (stem ++ toString number) = stem ++ toString number'
  other : ∀ name, (∀ number, ¬ IsLabel number name) → labels name = name

theorem ShiftsLabels.drop {labels : Equiv.Perm String}
    {first second count : Nat} (h : ShiftsLabels labels first second count)
    (passed : Nat) :
    ShiftsLabels labels (first + passed) (second + passed)
      (count - passed) := by
  intro stem member index small
  rw [Nat.add_assoc, Nat.add_assoc]
  exact h stem member (passed + index) (by omega)

theorem label_injective {stem stem' : String} {number number' : Nat}
    (member : stem ∈ labelStems) (member' : stem' ∈ labelStems)
    (h : stem ++ toString number = stem' ++ toString number') :
    stem = stem' ∧ number = number' := by
  have isLabel : IsLabel number (stem ++ toString number) :=
    ⟨stem, member, rfl⟩
  have isLabel' : IsLabel number' (stem ++ toString number) :=
    ⟨stem', member', h⟩
  obtain rfl := isLabel.numbered.unique isLabel'.numbered
  refine ⟨String.toList_injective ?_, rfl⟩
  have chars := congrArg String.toList h
  simpa using chars

theorem exists_shift (first second count : Nat) :
    ∃ labels, ShiftsLabels labels first second count ∧ KeepsStems labels := by
  let spots := labelStems.product (List.range count)
  let label (start : Nat) (spot : String × Nat) : String :=
    spot.1 ++ toString (start + spot.2)
  have distinct (start : Nat) : (spots.map (label start)).Nodup := by
    have stems : labelStems.Nodup := by decide
    refine List.Nodup.map_on ?_ (stems.product List.nodup_range)
    intro spot member spot' member' same
    have member := (List.pair_mem_product.mp member).1
    have member' := (List.pair_mem_product.mp member').1
    obtain ⟨stem, number⟩ := label_injective member member' same
    exact Prod.ext stem (Nat.add_left_cancel number)
  obtain ⟨labels, takes, keeps⟩ := exists_exchange
    (spots.map fun spot => (label first spot, label second spot))
    (by simpa [Function.comp_def] using distinct first)
    (by simpa [Function.comp_def] using distinct second)
  refine ⟨labels, fun stem member index small => ?_,
    ⟨fun stem member number => ?_, fun name other => ?_⟩⟩
  · exact takes (label first (stem, index), label second (stem, index))
      (List.mem_map_of_mem
        (List.pair_mem_product.mpr ⟨member, List.mem_range.mpr small⟩))
  · refine (keeps (fun name => ∃ number' : Nat,
      name = stem ++ toString number') ?_ _).mpr ⟨number, rfl⟩
    intro pair inside
    obtain ⟨spot, isSpot, rfl⟩ := List.mem_map.mp inside
    have member' := (List.pair_mem_product.mp isSpot).1
    have other {start : Nat} (start' : Nat) :
        (∃ number' : Nat, label start spot = stem ++ toString number') →
          ∃ number' : Nat, label start' spot = stem ++ toString number' := by
      rintro ⟨number', same⟩
      obtain ⟨isStem, _⟩ := label_injective member' member same
      exact ⟨start' + spot.2, by rw [← isStem]⟩
    exact ⟨other second, other first⟩
  · refine (keeps (· = name) ?_ name).mpr rfl
    intro pair inside
    obtain ⟨spot, isSpot, rfl⟩ := List.mem_map.mp inside
    have member := (List.pair_mem_product.mp isSpot).1
    have isLabel (start : Nat) : label start spot ≠ name := by
      rintro rfl
      exact other _ ⟨spot.1, member, rfl⟩
    exact iff_of_false (isLabel first) (isLabel second)

/-! ## Temporaries -/

namespace Supply

variable (supply : Supply)

theorem skip_extends {count count' : Nat} (h : count ≤ count') :
    Extends (supply.skip count) (supply.skip count') := by
  induction h with
  | refl => exact .refl _
  | step _ ih => exact ih.trans (freshTemp_drawn _).toExtends

theorem skip_strictMono :
    StrictMono fun count => (supply.skip count).nextTemp :=
  strictMono_nat_of_lt_succ fun _ => Nat.lt_succ_of_le (le_firstFree _ _ _)

theorem advance_injective {temps temps' labels labels' : Nat}
    (h : supply.advance temps labels = supply.advance temps' labels') :
    temps = temps' ∧ labels = labels' := by
  have sameTemp := congrArg nextTemp h
  have sameLabel := congrArg nextLabel h
  exact ⟨supply.skip_strictMono.injective sameTemp,
    Nat.add_left_cancel sameLabel⟩

theorem temporary_injective : Function.Injective supply.temporary := by
  have apart {index index' : Nat} (earlier : index < index') :
      supply.temporary index ≠ supply.temporary index' := by
    intro same
    have kept := (freshTemp_drawn (supply.skip index)).kept
    refine (freshTemp_drawn (supply.skip index')).isNew ?_
    rw [temporary, temporary] at same
    rw [← same]
    exact (supply.skip_extends earlier).kept kept
  intro index index' same
  rcases Nat.lt_trichotomy index index' with earlier | here | later
  · exact absurd same (apart earlier)
  · exact here
  · exact absurd same.symm (apart later)

theorem drawn_nodup (before after : Supply) : (before.drawn after).Nodup :=
  .filter _ (.map (fun _ _ => tempName_injective) List.nodup_range')

theorem drawn_freshTemp {before : Supply} (later : before.Extends supply) :
    before.drawn supply.freshTemp.2 =
      before.drawn supply ++ [supply.freshTemp.1] := by
  have low := le_firstFree supply.reserved supply.reserved.length
    supply.nextTemp
  have passed := @mem_of_lt_firstFree supply.reserved supply.reserved.length
    supply.nextTemp
  have free : tempName _ ∉ supply.reserved := fun member =>
    (freshTemp_drawn supply).isNew (.inl member)
  simp only [drawn, freshTemp]
  generalize firstFree supply.reserved supply.reserved.length
    supply.nextTemp = number at low passed free
  obtain ⟨drawn, isLater⟩ := Nat.le.dest later.temp
  obtain ⟨skipped, isNumber⟩ := Nat.le.dest low
  have span : number + 1 - before.nextTemp = drawn + (skipped + 1) := by omega
  have span' : supply.nextTemp - before.nextTemp = drawn := by omega
  have none : ((List.range' supply.nextTemp skipped).map tempName).filter
      (fun name => !supply.reserved.contains name) = [] := by
    rw [List.filter_eq_nil_iff]
    intro name member
    obtain ⟨other, inside, rfl⟩ := List.mem_map.mp member
    obtain ⟨low, high⟩ := List.mem_range'_1.mp inside
    simpa using passed low (isNumber ▸ high)
  rw [span, span', ← List.range'_append_1, isLater, List.range'_1_concat,
    isNumber, List.map_append, List.map_append, List.filter_append,
    List.filter_append, none]
  simp [free]

theorem drawn_skip (count : Nat) :
    supply.drawn (supply.skip count) =
      (List.range count).map supply.temporary := by
  induction count with
  | zero => simp [drawn, skip]
  | succ count ih =>
      have later : supply.Extends (supply.skip count) :=
        supply.skip_extends (Nat.zero_le count)
      rw [List.range_succ, List.map_append, ← ih, skip,
        (supply.skip count).drawn_freshTemp later]
      rfl

end Supply

structure Exchanges (vars : Equiv.Perm String) (temps temps' : List String) :
    Prop where
  takes : temps.map vars = temps'
  other : ∀ name, name ∉ temps → name ∉ temps' → vars name = name

theorem Supply.exists_exchange (first second : Supply) (count : Nat) :
    ∃ vars,
      (∀ index < count,
        vars (first.temporary index) = second.temporary index) ∧
      Exchanges vars (first.drawn (first.skip count))
        (second.drawn (second.skip count)) := by
  have distinct (supply : Supply) :
      ((List.range count).map supply.temporary).Nodup :=
    List.nodup_range.map supply.temporary_injective
  obtain ⟨vars, takes, keeps⟩ := JavaMinus.exists_exchange
    ((List.range count).map fun index =>
      (first.temporary index, second.temporary index))
    (by simpa [Function.comp_def] using distinct first)
    (by simpa [Function.comp_def] using distinct second)
  have takes (index : Nat) (small : index < count) :
      vars (first.temporary index) = second.temporary index :=
    takes _ (List.mem_map.mpr ⟨index, List.mem_range.mpr small, rfl⟩)
  refine ⟨vars, takes, ?_, fun name isOther isOther' => ?_⟩
  · rw [drawn_skip, drawn_skip, List.map_map]
    exact List.map_congr_left fun index member =>
      takes index (List.mem_range.mp member)
  · rw [drawn_skip] at isOther isOther'
    refine (keeps (· = name) ?_ name).mpr rfl
    intro pair inside
    obtain ⟨index, member, rfl⟩ := List.mem_map.mp inside
    refine iff_of_false ?_ ?_
    · rintro rfl
      exact isOther (List.mem_map_of_mem member)
    · rintro rfl
      exact isOther' (List.mem_map_of_mem member)

/-! ## Label tables -/

theorem Ir.Labels.perm_place {labels : Labels} {name : String}
    (absent : name ∉ labels.map Prod.fst) (index : Nat) :
    (labels.place name index).Perm ((name, index) :: labels) := by
  induction labels with
  | nil => simp [place]
  | cons entry rest ih =>
      obtain ⟨other, spot⟩ := entry
      simp only [List.map_cons, List.mem_cons, not_or] at absent
      rw [place]
      split
      · exact .refl _
      · rw [if_neg absent.1]
        exact ((ih absent.2).cons _).trans (.swap _ _ _)

def Ir.Labels.rename (names : Ir.Renaming) (labels : Labels) : Labels :=
  labels.map (Prod.map names.labels id)

namespace Lowering

variable {names : Ir.Renaming}

theorem instrs_rename (code : List Fragment) :
    instrs (code.map (Fragment.rename names)) =
      (instrs code).map (Instr.rename names) := by
  induction code with
  | nil => rfl
  | cons fragment rest ih =>
      cases fragment with
      | label name => exact ih
      | instr instr => simp [Fragment.rename, ih]

theorem placeLabels_rename {code : List Fragment} {labels labels' : Labels}
    (distinct : (labelNames code ++ labels.map Prod.fst).Nodup)
    (h : (labels.rename names).Perm labels') (count : Nat) :
    ((placeLabels count code labels).rename names).Perm
      (placeLabels count (code.map (Fragment.rename names)) labels') := by
  induction code generalizing count labels labels' with
  | nil => exact h
  | cons fragment rest ih =>
      cases fragment with
      | instr instr => exact ih distinct h (count + 1)
      | label name =>
          simp only [labelNames_label, List.cons_append, List.nodup_cons,
            List.mem_append, not_or] at distinct
          obtain ⟨⟨later, absent⟩, distinct⟩ := distinct
          have placed := Ir.Labels.perm_place absent count
          have absent' : names.labels name ∉ labels'.map Prod.fst := by
            rw [← (h.map Prod.fst).mem_iff]
            simpa [Ir.Labels.rename] using absent
          have placed' := Ir.Labels.perm_place absent' count
          refine ih ?_ ?_ count
          · have moved : (labelNames rest ++
                (labels.place name count).map Prod.fst).Perm
                (name :: (labelNames rest ++ labels.map Prod.fst)) :=
              ((placed.map Prod.fst).append_left _).trans List.perm_middle
            exact moved.nodup_iff.mpr (by simp_all)
          · exact (placed.map _).trans ((h.cons _).trans placed'.symm)

theorem pruneLabels_rename {labels labels' : Labels} (code : List Instr)
    (h : (labels.rename names).Perm labels') :
    ((pruneLabels code labels).rename names).Perm
      (pruneLabels (code.map (Instr.rename names)) labels') := by
  refine List.Perm.trans (.of_eq ?_) (h.filter _)
  rw [pruneLabels, Ir.Labels.rename, Ir.Labels.rename, List.filter_map]
  congr 2
  funext entry
  simp [Instr.target?_rename, Function.comp_def]

theorem close_rename {labels labels' : Labels} (returnTy : Ty)
    (code : List Instr) (h : (labels.rename names).Perm labels') :
    close returnTy (code.map (Instr.rename names)) labels' =
      (close returnTy code labels).map (Instr.rename names) := by
  have labelled : labels'.any (fun entry => entry.2 = code.length) =
      labels.any fun entry => entry.2 = code.length := by
    rw [← h.any_eq]
    simp [Ir.Labels.rename, Function.comp_def]
  simp only [close, List.getLast?_map, List.length_map, labelled]
  cases code.getLast? with
  | none =>
      simp only [Option.map_none]
      split
      · simp [Instr.rename]
      · rfl
  | some last =>
      simp only [Option.map_some, Instr.isReturn_rename]
      split
      · simp [Instr.rename]
      · rfl

end Lowering

/-! ## Methods -/

/--
Two methods with the same code, under other names.  The receiver and the
parameters keep theirs, and each label stands where it stood.
-/
structure Ir.Method.Renamed (names : Ir.Renaming)
    (method method' : Ir.Method) : Prop where
  instrs : method'.instrs = method.instrs.map (Instr.rename names)
  labels : (method.labels.rename names).Perm method'.labels
  rest : method' =
    { method with instrs := method'.instrs, labels := method'.labels }
  self : names.vars "this" = "this"
  kept : ∀ name ∈ method.registers.names, names.vars name = name

namespace Lower

variable {α : Type}

theorem finish_injective {supply supply' : Supply}
    {outcome outcome' : Except Breach α}
    (h : finish supply outcome = finish supply' outcome') :
    supply = supply' ∧ outcome = outcome' := by
  cases outcome <;> cases outcome' <;> simp_all [finish]

theorem finish_eq_ok {supply after : Supply} {outcome : Except Breach α}
    {value : α} (h : finish supply outcome = .ok value after) :
    outcome = .ok value ∧ supply = after := by
  cases outcome <;> simp_all [finish]

end Lower

namespace Tree.Method

variable {table : SymbolTable} {method : Method}

def assemble (table : SymbolTable) (method : Method) (code : List Fragment) :
    Ir.Method :=
  let params := match table.method? method.name with
    | some signature => signature.params
    | none => method.params.map Variable.symbol
  let body := instrs code
  let labels := pruneLabels body (placeLabels 0 code [])
  { name := method.name
    isPublic := method.isPublic
    isStatic := method.isStatic
    isFinal := method.isFinal
    params
    returnTy := method.returnTy
    instrs := close method.returnTy body labels
    labels
    registers := .ofMethod method.isStatic (params.map Symbol.name) }

theorem lower_eq (table : SymbolTable) (method : Method) :
    method.lower table = (do
      let code ← method.fragments table
      pure (method.assemble table code)) := rfl

def start (table : SymbolTable) (method : Method) (supply : Supply) :
    Supply :=
  supply.reserve (reservedNames table method)

def firstTemporaries (table : SymbolTable) (method : Method)
    (supply : Supply) (count : Nat) : List String :=
  (method.start table supply).drawn ((method.start table supply).skip count)

theorem not_mem_firstTemporaries {supply : Supply} {count : Nat}
    {name : String} (member : name ∈ reservedNames table method) :
    name ∉ method.firstTemporaries table supply count := by
  intro isTemp
  have free := (Supply.mem_drawn.mp isTemp).1
  rw [((method.start table supply).skip_extends
    (Nat.zero_le count)).reserved] at free
  exact free member

theorem this_not_mem_firstTemporaries (supply : Supply) (count : Nat) :
    "this" ∉ method.firstTemporaries table supply count := by
  intro isTemp
  obtain ⟨_, number, _, _, same⟩ := Supply.mem_drawn.mp isTemp
  exact Supply.tempName_ne_this number same.symm

theorem fixes_reserved {first second : Supply} {count : Nat}
    {vars : Equiv.Perm String} (h : Exchanges vars
      (method.firstTemporaries table first count)
      (method.firstTemporaries table second count)) {name : String}
    (member : name ∈ reservedNames table method) : vars name = name :=
  h.other name (not_mem_firstTemporaries member)
    (not_mem_firstTemporaries member)

theorem fixes_variables {first second : Supply} {count : Nat}
    {vars : Equiv.Perm String} (h : Exchanges vars
      (method.firstTemporaries table first count)
      (method.firstTemporaries table second count)) :
    ({ table, method := method.name } : Scope).Keeps vars :=
  fun name isVariable =>
    fixes_reserved h (reserved_of_variable {} name isVariable)

theorem fragments_inStep (first second : Supply)
    (resolves : Stmt.resolvesAll { table, method := method.name } method.body =
      true) :
    ∃ temps count outcome,
      method.fragments table first = Lower.finish
        ((method.start table first).advance temps count) outcome ∧
      ∀ labels, ShiftsLabels labels first.nextLabel second.nextLabel count →
        ∃ vars,
          Exchanges vars (method.firstTemporaries table first temps)
            (method.firstTemporaries table second temps) ∧
          method.fragments table second = Lower.finish
            ((method.start table second).advance temps count)
            (outcome.map (List.map (Fragment.rename ⟨vars, labels⟩))) := by
  -- How much is drawn does not depend on the renaming, so it is known first.
  obtain ⟨temps, count, outcome, _, _, ran, _⟩ :=
    Stmt.lowerAll_inStep ⟨Equiv.refl _, Equiv.refl _⟩
      (method.start table first) (method.start table second)
      (fun _ _ => rfl) resolves 0 0
  refine ⟨temps, count, outcome, ran, fun labels shifts => ?_⟩
  obtain ⟨vars, takes, exchanges⟩ :=
    (method.start table first).exists_exchange (method.start table second)
      temps
  refine ⟨vars, exchanges, ?_⟩
  obtain ⟨temps', count', outcome', _, _, ran', follows⟩ :=
    Stmt.lowerAll_inStep ⟨vars, labels⟩ (method.start table first)
      (method.start table second) (fixes_variables exchanges) resolves 0 0
  obtain ⟨same, rfl⟩ := Lower.finish_injective (ran.symm.trans ran')
  obtain ⟨rfl, rfl⟩ := Supply.advance_injective _ same
  exact follows ⟨takes, shifts⟩

theorem assemble_renamed {names : Ir.Renaming} {code : List Fragment}
    (distinct : (labelNames code).Nodup)
    (self : names.vars "this" = "this")
    (fixes : ∀ name ∈ reservedNames table method, names.vars name = name) :
    (method.assemble table code).Renamed names
      (method.assemble table (code.map (Fragment.rename names))) := by
  have placed : ((placeLabels 0 code []).rename names).Perm
      (placeLabels 0 (code.map (Fragment.rename names)) []) :=
    placeLabels_rename (by simpa using distinct) (.refl _) 0
  have tables := pruneLabels_rename (instrs code) placed
  rw [← instrs_rename] at tables
  refine ⟨?_, tables, rfl, self, fun name member => ?_⟩
  · have closed := close_rename method.returnTy (instrs code) tables
    rw [← instrs_rename] at closed
    exact closed
  · have member := ((Jvm.met_ofMethod _ _).members name).mp member
    rcases member with member | member
    · simp at member
    rcases List.mem_append.mp member with isSelf | isParam
    · cases isStatic : method.isStatic with
      | true => simp [isStatic] at isSelf
      | false => simp_all [assemble]
    · refine fixes name ?_
      simp only [reservedNames, List.mem_append]
      exact .inl (.inl isParam)

/--
A method that can be lowered from one supply can be lowered from any other,
and only the names differ.
-/
theorem lower_renamed {first second after : Supply} {lowered : Ir.Method}
    {labels : Equiv.Perm String}
    (h : method.lower table first = .ok lowered after)
    (resolves : Stmt.resolvesAll { table, method := method.name } method.body =
      true)
    (shifts : ShiftsLabels labels first.nextLabel second.nextLabel
      (after.nextLabel - first.nextLabel)) :
    ∃ lowered' after' vars,
      method.lower table second = .ok lowered' after' ∧
      after'.nextLabel =
        second.nextLabel + (after.nextLabel - first.nextLabel) ∧
      Exchanges vars (first.drawn after) (second.drawn after') ∧
      ({ table, method := method.name } : Scope).Keeps vars ∧
      lowered.Renamed ⟨vars, labels⟩ lowered' := by
  obtain ⟨temps, count, outcome, ran, follows⟩ :=
    fragments_inStep first second resolves
  rw [lower_eq] at h ⊢
  obtain ⟨code, mid, hcode, h⟩ := Action.bind_eq_ok.mp h
  obtain ⟨rfl, rfl⟩ := Action.pure_eq_ok.mp h
  obtain ⟨rfl, rfl⟩ := Lower.finish_eq_ok (ran.symm.trans hcode)
  have isCount : ((method.start table first).advance temps count).nextLabel -
      first.nextLabel = count :=
    Nat.add_sub_cancel_left _ _
  rw [isCount] at shifts ⊢
  obtain ⟨vars, exchanges, ran'⟩ := follows labels shifts
  refine ⟨_, _, vars, Action.bind_of_ok ran', rfl, exchanges,
    fixes_variables exchanges, ?_⟩
  exact assemble_renamed (Stmt.lowerAll_draws hcode).labelled.distinct
    (exchanges.other "this" (this_not_mem_firstTemporaries _ _)
      (this_not_mem_firstTemporaries _ _))
    fun _ member => fixes_reserved exchanges member

theorem lower_fails {first second after : Supply} {cause : Breach}
    (h : method.lower table first = .error cause after)
    (resolves : Stmt.resolvesAll { table, method := method.name } method.body =
      true) :
    ∃ after', method.lower table second = .error cause after' := by
  obtain ⟨temps, count, outcome, ran, follows⟩ :=
    fragments_inStep first second resolves
  obtain ⟨labels, shifts, _⟩ :=
    exists_shift first.nextLabel second.nextLabel count
  obtain ⟨vars, _, ran'⟩ := follows labels shifts
  rw [lower_eq] at h ⊢
  cases outcome with
  | ok code =>
      rw [Action.bind_of_ok ran] at h
      cases h
  | error cause' =>
      rw [Action.bind_of_error ran] at h
      cases h
      exact ⟨_, Action.bind_of_error ran'⟩

end Tree.Method

/--
The methods of two classes, with the temporaries of each.  Method by method
the temporaries are exchanged, and all variables keep their names.
-/
inductive Ir.RenamedAll (table : SymbolTable) (labels : Equiv.Perm String) :
    List (List String) → List (List String) → List Ir.Method →
    List Ir.Method → Prop where
  | nil : RenamedAll table labels [] [] [] []
  | cons {names names' : List String} {temps temps' : List (List String)}
      {method method' : Ir.Method} {methods methods' : List Ir.Method}
      (vars : Equiv.Perm String) (exchanges : Exchanges vars names names')
      (kept : ({ table, method := method.name } : Scope).Keeps vars)
      (renamed : method.Renamed ⟨vars, labels⟩ method')
      (rest : RenamedAll table labels temps temps' methods methods') :
      RenamedAll table labels (names :: temps) (names' :: temps')
        (method :: methods) (method' :: methods')

theorem Ir.RenamedAll.append {table : SymbolTable}
    {labels : Equiv.Perm String} {temps temps' more more' : List (List String)}
    {methods methods' others others' : List Ir.Method}
    (h : Ir.RenamedAll table labels temps temps' methods methods')
    (h' : Ir.RenamedAll table labels more more' others others') :
    Ir.RenamedAll table labels (temps ++ more) (temps' ++ more')
      (methods ++ others) (methods' ++ others') := by
  induction h with
  | nil => exact h'
  | cons vars exchanges kept renamed _ ih =>
      exact .cons vars exchanges kept renamed ih

namespace Tree

variable {table : SymbolTable}

theorem Method.lowerAll_renamed {methods : List Method}
    {first second after : Supply} {lowered : List Ir.Method}
    {labels : Equiv.Perm String}
    (h : Method.lowerAll table methods first = .ok lowered after)
    (resolves : ∀ method ∈ methods,
      Stmt.resolvesAll { table, method := method.name } method.body = true)
    (shifts : ShiftsLabels labels first.nextLabel second.nextLabel
      (after.nextLabel - first.nextLabel)) :
    ∃ lowered' after' temps temps',
      Method.lowerAll table methods second = .ok lowered' after' ∧
      temporariesAll table methods first = .ok temps after ∧
      temporariesAll table methods second = .ok temps' after' ∧
      Ir.RenamedAll table labels temps temps' lowered lowered' := by
  induction methods generalizing first second lowered with
  | nil =>
      obtain ⟨rfl, rfl⟩ := Action.pure_eq_ok.mp h
      exact ⟨[], second, [], [], rfl, rfl, rfl, .nil⟩
  | cons method methods ih =>
      obtain ⟨code, mid, hfirst, h⟩ := Action.bind_eq_ok.mp h
      obtain ⟨codes, last, hrest, h⟩ := Action.bind_eq_ok.mp h
      obtain ⟨rfl, rfl⟩ := Action.pure_eq_ok.mp h
      obtain ⟨_, _, _, more, _⟩ := lower_wellLabelled hfirst
      obtain ⟨_, _, _, more', _⟩ := lowerAll_wellLabelled hrest
      obtain ⟨code', mid', vars, hfirst', counted, exchanges, kept,
        renamed⟩ := lower_renamed hfirst (resolves method (by simp))
          (shifts.take (by omega))
      rw [← lower_name hfirst] at kept
      obtain ⟨codes', last', temps, temps', hrest', htemps, htemps',
        renamedAll⟩ := ih hrest
          (fun method member => resolves method (by simp [member])) (by
            have later := shifts.drop (mid.nextLabel - first.nextLabel)
            rwa [← counted, Nat.add_sub_cancel' more,
              Nat.sub_sub_sub_cancel_right more] at later)
      refine ⟨code' :: codes', last', first.drawn mid :: temps,
        second.drawn mid' :: temps', ?_, ?_, ?_,
        .cons vars exchanges kept renamed renamedAll⟩
      · rw [lowerAll, Action.bind_of_ok hfirst', Action.bind_of_ok hrest']
        rfl
      · rw [temporariesAll, Action.bind_of_ok (lower_temporaries hfirst),
          Action.bind_of_ok htemps]
        rfl
      · rw [temporariesAll, Action.bind_of_ok (lower_temporaries hfirst'),
          Action.bind_of_ok htemps']
        rfl

theorem Method.lowerAll_fails {methods : List Method}
    {first second after : Supply} {cause : Breach}
    (h : Method.lowerAll table methods first = .error cause after)
    (resolves : ∀ method ∈ methods,
      Stmt.resolvesAll { table, method := method.name } method.body = true) :
    ∃ after', Method.lowerAll table methods second = .error cause after' := by
  induction methods generalizing first second with
  | nil => cases h
  | cons method methods ih =>
      rw [lowerAll] at h ⊢
      cases hfirst : method.lower table first with
      | error cause' mid =>
          rw [Action.bind_of_error hfirst] at h
          cases h
          obtain ⟨after', hfirst'⟩ := lower_fails hfirst
            (resolves method (by simp))
          exact ⟨after', Action.bind_of_error hfirst'⟩
      | ok code mid =>
          rw [Action.bind_of_ok hfirst] at h
          obtain ⟨labels, shifts, _⟩ := exists_shift first.nextLabel
            second.nextLabel (mid.nextLabel - first.nextLabel)
          obtain ⟨code', mid', _, hfirst', _⟩ := lower_renamed hfirst
            (resolves method (by simp)) shifts
          rw [Action.bind_of_ok hfirst']
          cases hrest : Method.lowerAll table methods mid with
          | ok codes last =>
              rw [Action.bind_of_ok hrest] at h
              cases h
          | error cause' last =>
              rw [Action.bind_of_error hrest] at h
              cases h
              obtain ⟨after', hrest'⟩ := ih hrest
                fun method member => resolves method (by simp [member])
              exact ⟨after', Action.bind_of_error hrest'⟩

end Tree

end JavaMinus
