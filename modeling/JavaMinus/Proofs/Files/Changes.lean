import JavaMinus.Files.Store

/-!
# Changes to a store

Making directories only adds missing ones, on the way that a path takes.
Writing replaces what is at the place that a path leads to.  Where a path leads
depends on the directories alone, so no write of a file makes another path lead
elsewhere.
-/

namespace JavaMinus.Files

/-! ## Ways -/

namespace Place

/-- The place that names lead to if nothing is in the way. -/
def follow : Place → List String → Place
  | place, [] => place
  | place, name :: rest =>
      if name = "" ∨ name = "." then place.follow rest
      else if name = ".." then place.leave.follow rest
      else (place.enter name).follow rest

theorem follow_append (place : Place) (first second : List String) :
    place.follow (first ++ second) = (place.follow first).follow second := by
  fun_induction follow place first with
  | case1 => rfl
  | case2 place name rest blank ih => simp [follow, blank, ih]
  | case3 place rest up ih => simp [follow, ih]
  | case4 place name rest plain notUp ih => simp [follow, plain, notUp, ih]

theorem follow_filter {keep : String → Bool}
    (onlyBlank : ∀ name, keep name = false → name = "" ∨ name = ".")
    (place : Place) (names : List String) :
    place.follow (names.filter keep) = place.follow names := by
  induction names generalizing place with
  | nil => rfl
  | cons name rest ih =>
      cases kept : keep name with
      | true => simp only [List.filter_cons, kept, if_true, follow, ih]
      | false =>
          have blank := onlyBlank name kept
          simp [kept, follow, blank, ih]

theorem name_eq_of_enter {place place' : Place} {name name' : String}
    (h : place.enter name = place'.enter name') : name = name' := by
  have names := congrArg Place.names h
  simp only [enter, List.cons.injEq] at names
  exact names.1

end Place

/-! ## Names in paths -/

theorem splitOn_append_of_not_mem (chars : List Char) {more : List Char}
    {char : Char} (plain : char ∉ more) :
    ∃ front last, chars.splitOn char = front ++ [last] ∧
      (chars ++ more).splitOn char = front ++ [last ++ more] := by
  induction chars with
  | nil => exact ⟨[], [], by simp, by simp [List.splitOn_eq_singleton plain]⟩
  | cons head rest ih =>
      obtain ⟨front, last, alone, extended⟩ := ih
      rw [List.cons_append, List.splitOn_cons_eq_if_modifyHead,
        List.splitOn_cons_eq_if_modifyHead, alone, extended]
      split
      · exact ⟨[] :: front, last, rfl, rfl⟩
      · cases front with
        | nil => exact ⟨[], head :: last, rfl, rfl⟩
        | cons first front => exact ⟨(head :: first) :: front, last, rfl, rfl⟩

theorem names_append (path : String) {ending : String}
    (plain : '/' ∉ ending.toList) :
    ∃ front last, names (path ++ ending) = front ++ [last ++ ending] := by
  obtain ⟨front, last, _, extended⟩ :=
    splitOn_append_of_not_mem path.toList plain
  refine ⟨front.map String.ofList, String.ofList last, ?_⟩
  rw [names, String.toList_append, extended, List.map_append]
  simp

theorem join_append (directory name ending : String) :
    ∃ path, join directory (name ++ ending) = path ++ ending := by
  rw [join]
  split
  · exact ⟨name, rfl⟩
  · split
    · exact ⟨directory ++ name, by rw [String.append_assoc]⟩
    · exact ⟨directory ++ "/" ++ name, by simp only [String.append_assoc]⟩

namespace Store

variable {store after : Store} {place target : Place}

/-! ## Entries -/

@[simp] theorem get?_root (store : Store) :
    store.get? .root = some .directory := if_pos rfl

theorem ne_root_of_get? (h : store.get? place ≠ some .directory) :
    place ≠ .root := by
  rintro rfl
  exact h store.get?_root

theorem lookup_filter_ne {entries : List (Place × Entry)} {other : Place}
    (apart : other ≠ place) :
    (entries.filter fun (key, _) => key ≠ place).lookup other =
      entries.lookup other := by
  induction entries with
  | nil => rfl
  | cons entry rest ih =>
      obtain ⟨key, value⟩ := entry
      by_cases same : key = place
      · subst same
        simpa [List.lookup_cons, beq_eq_false_iff_ne.mpr apart] using ih
      · simp only [List.filter_cons, ne_eq, same, not_false_eq_true,
          decide_true, if_true, List.lookup_cons, ← ih]

theorem get?_put_self (notRoot : place ≠ .root) (entry : Entry) :
    (store.put place entry).get? place = some entry := by
  simp [get?, put, notRoot]

theorem get?_put_of_ne {other : Place} (apart : other ≠ place)
    (entry : Entry) : (store.put place entry).get? other = store.get? other := by
  simp only [get?, put, List.lookup_cons, beq_eq_false_iff_ne.mpr apart,
    lookup_filter_ne apart]

/-! ## Walks -/

theorem walk_eq_some {names : List String}
    (h : store.walk place names = some target) :
    target = place.follow names := by
  fun_induction walk store place names with
  | case1 => exact (Option.some.inj h).symm
  | case2 => cases h
  | case3 place name rest _ blank ih => simpa [Place.follow, blank] using ih h
  | case4 place rest _ _ ih => simpa [Place.follow] using ih h
  | case5 place name rest _ plain notUp _ ih =>
      simpa [Place.follow, plain, notUp] using ih h
  | case6 => cases h

theorem locate?_eq_some {path : String}
    (h : store.locate? path = some target) :
    target = (store.start path).follow (names path) := by
  rw [locate?] at h
  split at h
  · exact walk_eq_some h
  · cases h

structure SameWays (store after : Store) : Prop where
  workingDirectory : after.workingDirectory = store.workingDirectory
  directories : ∀ place, after.get? place = some .directory ↔
    store.get? place = some .directory

namespace SameWays

theorem refl (store : Store) : SameWays store store :=
  ⟨rfl, fun _ => Iff.rfl⟩

theorem trans {first second third : Store} (h : SameWays first second)
    (h' : SameWays second third) : SameWays first third :=
  ⟨h'.workingDirectory.trans h.workingDirectory,
    fun place => (h'.directories place).trans (h.directories place)⟩

theorem walk (h : SameWays store after) (place : Place)
    (names : List String) : after.walk place names = store.walk place names := by
  fun_induction Store.walk store place names with
  | case1 => rfl
  | case2 place name rest notDirectory =>
      simp [Store.walk, h.directories, notDirectory]
  | case3 place name rest isDirectory blank ih =>
      rw [Decidable.not_not] at isDirectory
      simp [Store.walk, h.directories, isDirectory, blank, ih]
  | case4 place rest isDirectory blank ih =>
      rw [Decidable.not_not] at isDirectory
      simp [Store.walk, h.directories, isDirectory, ih]
  | case5 place name rest isDirectory plain notUp isName ih =>
      rw [Decidable.not_not] at isDirectory
      simp [Store.walk, h.directories, isDirectory, plain, notUp, isName, ih]
  | case6 place name rest isDirectory plain notUp notName =>
      simp [Store.walk, plain, notUp, notName]

theorem locate? (h : SameWays store after) (path : String) :
    after.locate? path = store.locate? path := by
  simp only [Store.locate?, start, h.workingDirectory, h.walk]

end SameWays

/-! ## Making directories -/

/--
Nothing has changed, but that directories were made at certain places where
there was nothing.
-/
structure Grows (may : Place → Prop) (store after : Store) : Prop where
  workingDirectory : after.workingDirectory = store.workingDirectory
  places : ∀ place, after.get? place = store.get? place ∨
    may place ∧ store.get? place = none ∧ after.get? place = some .directory

namespace Grows

variable {may may' : Place → Prop}

theorem refl (store : Store) : Grows may store store :=
  ⟨rfl, fun _ => .inl rfl⟩

theorem trans {first second third : Store} (h : Grows may first second)
    (h' : Grows may second third) : Grows may first third where
  workingDirectory := h'.workingDirectory.trans h.workingDirectory
  places place := by
    rcases h'.places place with same | ⟨allowed, wasNone, isMade⟩
    · rw [same]
      exact h.places place
    · rcases h.places place with same | ⟨_, _, isMade'⟩
      · exact .inr ⟨allowed, same ▸ wasNone, isMade⟩
      · rw [wasNone] at isMade'
        cases isMade'

theorem start (h : Grows may store after) (path : String) :
    after.start path = store.start path := by
  rw [Store.start, Store.start, h.workingDirectory]

theorem mono (h : Grows may store after)
    (more : ∀ place, may place → may' place) : Grows may' store after :=
  ⟨h.workingDirectory, fun place =>
    (h.places place).imp_right (.imp_left (more place))⟩

theorem put (allowed : may place) (free : store.get? place = none) :
    Grows may store (store.put place .directory) where
  workingDirectory := rfl
  places other := by
    by_cases here : other = place
    · subst here
      have notRoot : other ≠ .root := by
        rintro rfl
        simp at free
      exact .inr ⟨allowed, free, get?_put_self notRoot _⟩
    · exact .inl (get?_put_of_ne here _)

end Grows

theorem makeWay_grows {names : List String}
    (plain : ∀ name ∈ names, name ≠ "" ∧ name ≠ ".") (store : Store)
    (place : Place) :
    Grows (fun other => ∃ front, front <+: names ∧ other = place.follow front)
      store (store.makeWay place names).2 := by
  -- What the names behind the first lead to, all the names lead to.
  have later {name : String} {rest : List String} {place next : Place}
      (step : ∀ front, place.follow (name :: front) = next.follow front)
      (other : Place) :
      (∃ front, front <+: rest ∧ other = next.follow front) →
      ∃ front, front <+: name :: rest ∧ other = place.follow front := by
    rintro ⟨front, isFront, rfl⟩
    exact ⟨name :: front, List.cons_prefix_cons.mpr ⟨rfl, isFront⟩,
      (step front).symm⟩
  fun_induction makeWay store place names with
  | case1 store place => exact .refl store
  | case2 store place rest ih =>
      refine (ih fun name member => plain name (by simp [member])).mono
        (later fun front => ?_)
      simp [Place.follow]
  | case3 store place name rest notUp tooLong => exact .refl store
  | case4 store place name rest notUp isName isDirectory ih =>
      have isPlain := plain name (by simp)
      refine (ih fun name member => plain name (by simp [member])).mono
        (later fun front => ?_)
      simp [Place.follow, notUp, isPlain]
  | case5 store place name rest notUp isName content isFile =>
      exact .refl store
  | case6 store place name rest notUp isName free ih =>
      have isPlain := plain name (by simp)
      have step (front : List String) :
          place.follow (name :: front) = (place.enter name).follow front := by
        simp [Place.follow, notUp, isPlain]
      refine (Grows.put ?_ free).trans
        ((ih fun name member => plain name (by simp [member])).mono
          (later step))
      exact ⟨[name], by simp, (step []).symm⟩

def OnWay (store : Store) (path : String) (place : Place) : Prop :=
  ∃ front, front <+: names path ∧ place = (store.start path).follow front

theorem onWay_of_filter {path : String} {keep : String → Bool}
    (onlyBlank : ∀ name, keep name = false → name = "" ∨ name = ".")
    {front : List String} (isFront : front <+: (names path).filter keep) :
    store.OnWay path ((store.start path).follow front) := by
  obtain ⟨rest, split⟩ := isFront
  obtain ⟨front', rest', whole, rfl, _⟩ :=
    List.filter_eq_append_iff.mp split.symm
  exact ⟨front', ⟨rest', whole.symm⟩, Place.follow_filter onlyBlank _ _⟩

theorem makeDirectory_grows (store : Store) (path : String) :
    Grows (store.OnWay path) store (store.makeDirectory path).2 := by
  rw [makeDirectory]
  split
  next place located =>
    split
    · exact .refl store
    · exact .refl store
    next free =>
      refine Grows.put ?_ free
      rw [site?] at located
      split at located
      · rw [walk_eq_some located]
        exact onWay_of_filter (by simp) (List.prefix_refl _)
      · cases located
  next => exact .refl store

theorem makeDirectories_grows (store : Store) (path : String) :
    Grows (store.OnWay path) store (store.makeDirectories path).2 := by
  rw [makeDirectories]
  split
  · exact .refl store
  · split
    · have way : Grows (store.OnWay path) store
          (store.makeWay (store.start path) (leadingNames path)).2 := by
        refine (makeWay_grows (fun name member => ?_) store _).mono ?_
        · have kept := (List.mem_filter.mp (List.dropLast_subset _ member)).2
          simpa using kept
        · rintro _ ⟨front, isFront, rfl⟩
          refine onWay_of_filter ?_
            (isFront.trans (List.dropLast_prefix _))
          simp [Classical.or_iff_not_imp_left]
      dsimp only
      split
      · have last := makeDirectory_grows (store.makeWay (store.start path)
          (leadingNames path)).2 path
        refine way.trans (last.mono ?_)
        rintro place ⟨front, isFront, rfl⟩
        exact ⟨front, isFront, by rw [way.start]⟩
      · exact way
    · exact .refl store

end Store

end JavaMinus.Files
