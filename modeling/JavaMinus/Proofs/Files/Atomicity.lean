import JavaMinus.Files.Compile
import JavaMinus.Proofs.Emission.Linking
import JavaMinus.Proofs.Files.Changes
import JavaMinus.Proofs.Tree.RoundTrip

/-!
# Compiling files is all or nothing

Unless a file cannot be read or written, a compilation that fails leaves the
store as it was.  One that succeeds leaves its texts in the files that it names
and has made the directories that were missing on the way to them, and has
changed nothing else.
-/

namespace JavaMinus.Files

namespace Store

variable {store after : Store} {place : Place}

/-! ## Writing -/

theorem write_cases (store : Store) (path content : String) :
    store.write path content = (false, store) ∨
      ∃ place, store.locate? path = some place ∧
        store.get? place ≠ some .directory ∧
        store.write path content = (true, store.put place (.file content)) := by
  unfold write
  split
  next place located =>
    split
    · exact .inl rfl
    next notDirectory => exact .inr ⟨place, located, notDirectory, rfl⟩
  next => exact .inl rfl

/-- A file can replace a file, but no directory. -/
theorem sameWays_put (notDirectory : store.get? place ≠ some .directory)
    (content : String) : SameWays store (store.put place (.file content)) where
  workingDirectory := rfl
  directories other := by
    by_cases here : other = place
    · subst here
      simp [get?_put_self (ne_root_of_get? notDirectory), notDirectory]
    · rw [get?_put_of_ne here]

structure Rewrites (paths : List String) (store after : Store) : Prop
    extends SameWays store after where
  places : ∀ place, after.get? place = store.get? place ∨
    ∃ path ∈ paths, store.locate? path = some place

theorem read?_eq_some {path content : String}
    (located : store.locate? path = some place)
    (found : store.get? place = some (.file content)) :
    store.read? path = some content := by
  have entry : store.entry? path = some (.file content) := by
    rw [Store.entry?, located]
    exact found
  rw [read?, entry]

end Store

open Store (Grows OnWay Rewrites SameWays)

section Operations

variable (path content : String) (store : Store)

theorem kind?_run : (FileSystem.kind? path : StateM Store _).run store =
    ((store.entry? path).map Entry.kind, store) := rfl

theorem read?_run : (FileSystem.read? path : StateM Store _).run store =
    (store.read? path, store) := rfl

theorem makeDirectories_run :
    (FileSystem.makeDirectories path : StateM Store _).run store =
      store.makeDirectories path := rfl

theorem write_run : (FileSystem.write path content : StateM Store _).run store =
    store.write path content := rfl

theorem run_bind {α β : Type} (first : StateM Store α)
    (second : α → StateM Store β) :
    (first >>= second).run store =
      (second (first.run store).1).run (first.run store).2 := rfl

end Operations

theorem writeAll_cons_run (path content : String)
    (rest : List (String × String)) (store : Store) :
    (writeAll ((path, content) :: rest) : StateM Store Bool).run store =
      if (store.write path content).1 then
        (writeAll rest : StateM Store Bool).run (store.write path content).2
      else (false, (store.write path content).2) := by
  rw [writeAll, run_bind, write_run]
  split <;> rfl

theorem writeAll_rewrites (files : List (String × String)) (store : Store) :
    Rewrites (files.map Prod.fst) store
      ((writeAll files : StateM Store Bool).run store).2 := by
  induction files generalizing store with
  | nil => exact ⟨.refl store, fun _ => .inl rfl⟩
  | cons file rest ih =>
      obtain ⟨path, content⟩ := file
      rw [writeAll_cons_run]
      rcases store.write_cases path content with
        failed | ⟨place, located, notDirectory, written⟩
      · rw [failed]
        exact ⟨.refl store, fun _ => .inl rfl⟩
      · rw [written]
        have sameWays := Store.sameWays_put notDirectory content
        have others := ih (store.put place (.file content))
        refine ⟨sameWays.trans others.toSameWays, fun other => ?_⟩
        rcases others.places other with same | ⟨path', member, located'⟩
        · by_cases here : other = place
          · subst here
            exact .inr ⟨path, by simp, located⟩
          · exact .inl (same.trans (Store.get?_put_of_ne here _))
        · rw [sameWays.locate?] at located'
          exact .inr ⟨path', by simp [member], located'⟩

theorem writeAll_holds {files : List (String × String)} {store after : Store}
    (h : (writeAll files : StateM Store Bool).run store = (true, after))
    (apart : files.Pairwise fun first second => ∀ place,
      store.locate? first.1 = some place →
      store.locate? second.1 ≠ some place) :
    ∀ file ∈ files, after.read? file.1 = some file.2 := by
  induction files generalizing store with
  | nil => simp
  | cons file rest ih =>
      obtain ⟨path, content⟩ := file
      rw [writeAll_cons_run] at h
      rcases store.write_cases path content with
        failed | ⟨place, located, notDirectory, written⟩
      · rw [failed] at h
        cases h
      · rw [written] at h
        have sameWays := Store.sameWays_put notDirectory content
        have others := writeAll_rewrites rest (store.put place (.file content))
        change (writeAll rest : StateM Store Bool).run _ = _ at h
        rw [h] at others
        obtain ⟨here, later⟩ := List.pairwise_cons.mp apart
        intro file member
        rcases List.mem_cons.mp member with rfl | member
        · -- No later file takes the place of this one.
          have kept : after.get? place = some (.file content) := by
            rcases others.places place with same | ⟨path', isLater, located'⟩
            · rw [same]
              exact Store.get?_put_self (Store.ne_root_of_get? notDirectory) _
            · obtain ⟨file, isFile, rfl⟩ := List.mem_map.mp isLater
              rw [sameWays.locate?] at located'
              exact absurd located' (here file isFile place located)
          refine Store.read?_eq_some ?_ kept
          rw [others.locate?, sameWays.locate?, located]
        · refine ih h (later.imp fun apart place => ?_) file member
          simpa only [sameWays.locate?] using apart place

/-! ## The files of a compilation -/

theorem locate?_ending {store : Store} {path ending : String} {char : Char}
    {place : Place} (plain : '/' ∉ ending.toList)
    (ends : ending.toList.getLast? = some char) (notDot : char ≠ '.')
    (h : store.locate? (path ++ ending) = some place) :
    ∃ parent name, place = Place.enter parent name ∧
      name.toList.getLast? = some char := by
  obtain ⟨front, last, split⟩ := names_append path plain
  have named : (last ++ ending).toList.getLast? = some char := by
    rw [String.toList_append, List.getLast?_append, ends]
    rfl
  have leads : ∀ name ∈ ["", ".", ".."], last ++ ending ≠ name := by
    rintro name member rfl
    have dots : ∀ name ∈ ["", ".", ".."], name.toList.getLast? = none ∨
        name.toList.getLast? = some '.' := by decide
    rcases dots _ member with none | dot
    · rw [none] at named
      cases named
    · exact notDot (Option.some.inj (named.symm.trans dot))
  refine ⟨(store.start (path ++ ending)).follow front, last ++ ending, ?_,
    named⟩
  rw [Store.locate?_eq_some h, split, Place.follow_append]
  simp only [List.mem_cons, List.not_mem_nil, or_false, ne_eq, forall_eq_or_imp,
    forall_eq] at leads
  simp [Place.follow, leads]

theorem assembly_mem_outputs (options : Options) (directory : String)
    (compilation : Compilation) :
    (join directory (compilation.ir.name ++ ".j"), compilation.assemblyText) ∈
      outputs options directory compilation :=
  List.mem_cons_self

theorem ir_mem_outputs {options : Options} (emits : options.emitIr = true)
    (directory : String) (compilation : Compilation) :
    (join directory (compilation.ir.name ++ ".ollir"), compilation.irText) ∈
      outputs options directory compilation := by
  rw [outputs, if_pos emits]
  exact List.mem_cons_of_mem _ List.mem_cons_self

theorem map_outputs (options : Options) (directory : String)
    (compilation : Compilation) :
    (outputs options directory compilation).map Prod.fst =
      join directory (compilation.ir.name ++ ".j") ::
        (if options.emitIr then
          [join directory (compilation.ir.name ++ ".ollir")]
        else []) := by
  rw [outputs]
  split <;> rfl

theorem outputs_apart (options : Options) (directory : String)
    (compilation : Compilation) (store : Store) :
    (outputs options directory compilation).Pairwise fun first second =>
      ∀ place, store.locate? first.1 = some place →
        store.locate? second.1 ≠ some place := by
  rw [outputs]
  split
  · simp only [List.pairwise_cons, List.mem_singleton, forall_eq,
      List.not_mem_nil, false_imp_iff, implies_true, List.Pairwise.nil,
      and_true]
    intro place located located'
    obtain ⟨path, isPath⟩ := join_append directory compilation.ir.name ".j"
    obtain ⟨path', isPath'⟩ :=
      join_append directory compilation.ir.name ".ollir"
    rw [isPath] at located
    rw [isPath'] at located'
    obtain ⟨parent, name, here, ends⟩ :=
      locate?_ending (by decide) (by decide : _ = some 'j') (by decide) located
    obtain ⟨parent', name', here', ends'⟩ := locate?_ending (by decide)
      (by decide : _ = some 'r') (by decide) located'
    rw [Place.name_eq_of_enter (here.symm.trans here'), ends'] at ends
    exact absurd ends (by decide)
  · simp

theorem compile_name {program : Tree.Program} {options : Options}
    {compilation : Compilation}
    (h : program.compile options = .ok compilation) :
    compilation.ir.name = program.declared.name := by
  obtain ⟨after, lowered, _⟩ := Tree.Program.compileWith_eq_ok h
  rw [(Tree.Program.lower_fields lowered).1,
    (program.becomes_prepare options).declared]

theorem compileText_eq_ok {options : Options} {text : String}
    {compilation : Compilation}
    (h : compileText options text = .ok compilation) :
    ∃ program, Tree.Program.parse? text = some program ∧
      program.compile options = .ok compilation := by
  unfold compileText at h
  split at h
  next program parsed => exact ⟨program, parsed, h⟩
  next => cases h

/-! ## Outcomes -/

theorem deliver_cases {directory : String} {files : List (String × String)}
    {store after : Store} {result : Except Error (List String)}
    (h : (deliver directory files : StateM Store _).run store =
      (result, after)) :
    result = .error .inaccessible ∨
      ∃ mid, store.makeDirectories directory = (true, mid) ∧
        (writeAll files : StateM Store Bool).run mid = (true, after) ∧
        result = .ok (files.map Prod.fst) := by
  rw [deliver, run_bind, makeDirectories_run] at h
  rcases making : store.makeDirectories directory with ⟨made, mid⟩
  rw [making] at h
  cases made with
  | false =>
      cases h
      exact .inl rfl
  | true =>
      rw [if_pos rfl, run_bind] at h
      rcases writing : (writeAll files : StateM Store Bool).run mid with
        ⟨written, last⟩
      rw [writing] at h
      cases written with
      | false =>
          cases h
          exact .inl rfl
      | true =>
          cases h
          exact .inr ⟨mid, rfl, writing, rfl⟩

theorem deliver_run {directory : String} {files : List (String × String)}
    {store mid after : Store}
    (making : store.makeDirectories directory = (true, mid))
    (writing : (writeAll files : StateM Store Bool).run mid = (true, after)) :
    (deliver directory files : StateM Store _).run store =
      (.ok (files.map Prod.fst), after) := by
  rw [deliver, run_bind, makeDirectories_run, making, if_pos rfl, run_bind,
    writing]
  rfl

theorem compileFile_cases {options : Options} {input directory : String}
    {store after : Store} {result : Except Error (List String)}
    (h : (compileFile options input directory : StateM Store _).run store =
      (result, after)) :
    (result = .error (.notDirectory directory) ∧ after = store ∧
      ∃ content, store.entry? directory = some (.file content)) ∨
    (result = .error .inaccessible ∧ after = store ∧
      store.read? input = none) ∨
    ∃ text, store.read? input = some text ∧
      ((∃ error, compileText options text = .error error ∧
          result = .error error ∧ after = store) ∨
        ∃ compilation, compileText options text = .ok compilation ∧
          (deliver directory (outputs options directory compilation) :
            StateM Store _).run store = (result, after)) := by
  rw [compileFile, run_bind, kind?_run] at h
  split at h
  next isFile =>
    cases h
    cases found : store.entry? directory with
    | none => simp [found] at isFile
    | some entry =>
        cases entry with
        | file content => exact .inl ⟨rfl, rfl, content, rfl⟩
        | directory => simp [found, Entry.kind] at isFile
  next =>
    rw [run_bind, read?_run] at h
    cases reading : store.read? input with
    | none =>
        rw [reading] at h
        cases h
        exact .inr (.inl ⟨rfl, rfl, rfl⟩)
    | some text =>
        rw [reading] at h
        refine .inr (.inr ⟨text, rfl, ?_⟩)
        cases compiling : compileText options text with
        | error error =>
            simp only [compiling] at h
            cases h
            exact .inl ⟨error, rfl, rfl, rfl⟩
        | ok compilation =>
            simp only [compiling] at h
            exact .inr ⟨compilation, rfl, h⟩

theorem deliver_places {directory : String} {files : List (String × String)}
    {store mid after : Store}
    (making : store.makeDirectories directory = (true, mid))
    (writing : (writeAll files : StateM Store Bool).run mid = (true, after)) :
    after.workingDirectory = store.workingDirectory ∧
    ∀ place, after.get? place = store.get? place ∨
      (∃ path ∈ files.map Prod.fst, after.locate? path = some place) ∨
      store.OnWay directory place ∧ store.get? place = none ∧
        after.get? place = some .directory := by
  have grows : Grows (store.OnWay directory) store mid := by
    simpa only [making] using store.makeDirectories_grows directory
  have rewrites : Rewrites (files.map Prod.fst) mid after := by
    simpa only [writing] using writeAll_rewrites files mid
  refine ⟨rewrites.workingDirectory.trans grows.workingDirectory,
    fun place => ?_⟩
  rcases rewrites.places place with same | ⟨path, member, located⟩
  · rw [same]
    exact (grows.places place).imp_right .inr
  · rw [← rewrites.locate?] at located
    exact .inr (.inl ⟨path, member, located⟩)

/--
A compilation that fails leaves the store as it was, unless a file could not be
read or written: the output path is a file, or what the input holds cannot be
compiled.  One that succeeds names the file with the assembler text and, if
asked for, the one with the three-address code, and these hold what the tree in
the input is compiled to.  All else that has changed is that directories were
made where there was nothing on the way to the output directory.
-/
theorem compileFile_atomic {options : Options} {input directory : String}
    {store after : Store} {result : Except Error (List String)}
    (h : (compileFile options input directory : StateM Store _).run store =
      (result, after)) :
    (∀ error, result = .error error → error ≠ .inaccessible →
      after = store ∧
      ((error = .notDirectory directory ∧
          ∃ content, store.entry? directory = some (.file content)) ∨
        ∃ text, store.read? input = some text ∧
          compileText options text = .error error)) ∧
    ∀ written, result = .ok written →
      ∃ text program compilation,
        store.read? input = some text ∧
        Tree.Program.parse? text = some program ∧
        program.compile options = .ok compilation ∧
        written = join directory (program.declared.name ++ ".j") ::
          (if options.emitIr then
            [join directory (program.declared.name ++ ".ollir")]
          else []) ∧
        after.read? (join directory (program.declared.name ++ ".j")) =
          some compilation.assemblyText ∧
        (options.emitIr = true →
          after.read? (join directory (program.declared.name ++ ".ollir")) =
            some compilation.irText) ∧
        after.workingDirectory = store.workingDirectory ∧
        ∀ place, after.get? place = store.get? place ∨
          (∃ path ∈ written, after.locate? path = some place) ∨
          store.OnWay directory place ∧ store.get? place = none ∧
            after.get? place = some .directory := by
  rcases compileFile_cases h with ⟨rfl, rfl, isFile⟩ | ⟨rfl, rfl, _⟩ |
    ⟨text, reading, ⟨error, failed, rfl, rfl⟩ | ⟨compilation, compiled, h⟩⟩
  · refine ⟨?_, nofun⟩
    rintro _ ⟨⟩ _
    exact ⟨rfl, .inl ⟨rfl, isFile⟩⟩
  · refine ⟨?_, nofun⟩
    rintro _ ⟨⟩ other
    exact absurd rfl other
  · refine ⟨?_, nofun⟩
    rintro _ ⟨⟩ _
    exact ⟨rfl, .inr ⟨text, reading, failed⟩⟩
  · rcases deliver_cases h with rfl | ⟨mid, making, writing, rfl⟩
    · refine ⟨?_, nofun⟩
      rintro _ ⟨⟩ other
      exact absurd rfl other
    · refine ⟨nofun, ?_⟩
      rintro _ ⟨⟩
      obtain ⟨program, parsed, compiled⟩ := compileText_eq_ok compiled
      have holds := writeAll_holds writing
        (outputs_apart options directory compilation mid)
      obtain ⟨sameStart, places⟩ := deliver_places making writing
      have assembly := holds _ (assembly_mem_outputs options directory _)
      have ir (emits : options.emitIr = true) :=
        holds _ (ir_mem_outputs emits directory compilation)
      have paths := map_outputs options directory compilation
      rw [compile_name compiled] at assembly ir paths
      exact ⟨text, program, compilation, reading, parsed, compiled, paths,
        assembly, ir, sameStart, places⟩

def calculator : Tree.Program where
  declared := {
    name := "Calc"
    methods := [{
      name := "calc"
      returnTy := .int
      body := [.ret {} (some (.int ⟨.int, {}⟩ 20))] }] }

def oneFile (text : String) : Store where
  entries := [(.ofNames ["tree.json"], .file text)]

theorem deliver_oneFile (text assembly ir : String) :
    ∃ after, (deliver "out/deep" [("out/deep/Calc.j", assembly),
      ("out/deep/Calc.ollir", ir)] : StateM Store _).run (oneFile text) =
        (.ok ["out/deep/Calc.j", "out/deep/Calc.ollir"], after) := by
  let mid : Store :=
    ((oneFile text).put (.ofNames ["out"]) .directory).put
      (.ofNames ["out", "deep"]) .directory
  let next := mid.put (.ofNames ["out", "deep", "Calc.j"]) (.file assembly)
  have making : (oneFile text).makeDirectories "out/deep" = (true, mid) := rfl
  have first : mid.write "out/deep/Calc.j" assembly = (true, next) := rfl
  let last := next.put (.ofNames ["out", "deep", "Calc.ollir"]) (.file ir)
  have second : next.write "out/deep/Calc.ollir" ir = (true, last) := rfl
  refine ⟨last, deliver_run making ?_⟩
  rw [writeAll_cons_run, first, if_pos rfl, writeAll_cons_run, second]
  rfl

/-- The text itself is never looked at, only the tree that it describes. -/
theorem compileFile_oneFile {text : String}
    (parsed : Tree.Program.parse? text = some calculator) :
    ∃ after, (compileFile { emitIr := true } "tree.json" "out/deep" :
      StateM Store _).run (oneFile text) =
        (.ok ["out/deep/Calc.j", "out/deep/Calc.ollir"], after) := by
  rcases h : (compileFile { emitIr := true } "tree.json" "out/deep" :
    StateM Store _).run (oneFile text) with ⟨result, after⟩
  have reads : (oneFile text).read? "tree.json" = some text := rfl
  have absent : Store.entry? (oneFile text) "out/deep" = none := rfl
  have known : (calculator.compile { emitIr := true }).isOk = true := by
    decide +kernel
  rcases compileFile_cases h with ⟨_, _, _, isFile⟩ | ⟨_, _, unread⟩ |
    ⟨text, reading, ⟨error, failed, _⟩ | ⟨compilation, compiled, delivers⟩⟩
  · simp [absent] at isFile
  · simp [reads] at unread
  · cases reading
    rw [compileText, parsed] at failed
    simp [failed, Except.isOk, Except.toBool] at known
  · cases reading
    rw [compileText, parsed] at compiled
    have files : outputs { emitIr := true } "out/deep" compilation =
        [("out/deep/Calc.j", compilation.assemblyText),
          ("out/deep/Calc.ollir", compilation.irText)] := by
      simp only [outputs, compile_name compiled]
      rfl
    obtain ⟨last, delivered⟩ :=
      deliver_oneFile text compilation.assemblyText compilation.irText
    rw [files, delivered] at delivers
    exact ⟨last, delivers.symm⟩

theorem compileFile_atomic_nested :
    ∃ after compilation,
      (compileFile { emitIr := true } "tree.json" "out/deep" :
        StateM Store _).run (oneFile calculator.toJson.render) =
          (.ok ["out/deep/Calc.j", "out/deep/Calc.ollir"], after) ∧
      calculator.compile { emitIr := true } = .ok compilation ∧
      after.read? "out/deep/Calc.j" = some compilation.assemblyText ∧
      after.read? "out/deep/Calc.ollir" = some compilation.irText := by
  have parsed : Tree.Program.parse? calculator.toJson.render =
      some calculator := by
    rw [Tree.Program.parse?, Json.parse?_render]
    exact (calculator.decodes Json.maxDepth).trans (if_pos (by decide))
  generalize calculator.toJson.render = text at parsed ⊢
  obtain ⟨after, ran⟩ := compileFile_oneFile parsed
  obtain ⟨_, program, compilation, reading, parsed', compiled, _, assembly,
    ir, _⟩ := (compileFile_atomic ran).2 _ rfl
  cases reading
  obtain rfl := Option.some.inj (parsed.symm.trans parsed')
  exact ⟨after, compilation, ran, compiled, assembly, ir rfl⟩

end JavaMinus.Files
