import JavaMinus.Files.FileSystem
import JavaMinus.Files.Path
import JavaMinus.Files.Place

/-!
# A file system in memory

Files and directories by their places.  A path that does not start at the
root starts at the working directory.  Only what exists can be entered on the
way along a path.
-/

namespace JavaMinus.Files

inductive Entry where
  | file (content : String)
  | directory
  deriving DecidableEq

def Entry.kind : Entry → Kind
  | .file _ => .file
  | .directory => .directory

structure Store where
  -- Entries by their place; a later one at the same place does not count.
  entries : List (Place × Entry) := []
  workingDirectory : Place := .root

namespace Store

def get? (store : Store) (place : Place) : Option Entry :=
  if place = .root then some .directory else store.entries.lookup place

def put (place : Place) (entry : Entry) (store : Store) : Store :=
  { store with
    entries := (place, entry) :: store.entries.filter fun (other, _) =>
      other ≠ place }

def start (store : Store) (path : String) : Place :=
  if isAbsolute path then .root else store.workingDirectory

def walk (store : Store) : Place → List String → Option Place
  | place, [] => some place
  | place, name :: rest =>
      if store.get? place ≠ some .directory then none
      else if name = "" ∨ name = "." then store.walk place rest
      else if name = ".." then store.walk place.leave rest
      else if isName name then store.walk (place.enter name) rest
      else none

def locate? (store : Store) (path : String) : Option Place :=
  if isPath path then store.walk (store.start path) (names path)
  else none

def entry? (store : Store) (path : String) : Option Entry := do
  store.get? (← store.locate? path)

def read? (store : Store) (path : String) : Option String :=
  match store.entry? path with
  | some (.file content) => some content
  | _ => none

def write (path content : String) (store : Store) : Bool × Store :=
  match store.locate? path with
  | some place =>
      if store.get? place = some .directory then (false, store)
      else (true, store.put place (.file content))
  | none => (false, store)

/--
The place that a directory is made at.  Slashes at the end of its path ask
for nothing.
-/
def site? (store : Store) (path : String) : Option Place :=
  if isPath path then
    store.walk (store.start path) ((names path).filter (· ≠ ""))
  else none

/-- Makes a directory in one that is there.  It may be there already. -/
def makeDirectory (path : String) (store : Store) : Bool × Store :=
  match store.site? path with
  | some place =>
      match store.get? place with
      | some .directory => (true, store)
      | some (.file _) => (false, store)
      | none => (true, store.put place .directory)
  | none => (false, store)

def makeWay (store : Store) : Place → List String → Bool × Store
  | _, [] => (true, store)
  | place, name :: rest =>
      if name = ".." then store.makeWay place.leave rest
      else if !isName name then (false, store)
      else match store.get? (place.enter name) with
        | some .directory => store.makeWay (place.enter name) rest
        | some (.file _) => (false, store)
        | none =>
            (store.put (place.enter name) .directory).makeWay
              (place.enter name) rest

def makeDirectories (path : String) (store : Store) : Bool × Store :=
  if path.isEmpty then (true, store)
  else if isPath path then
    let (made, store) := store.makeWay (store.start path) (leadingNames path)
    if made then store.makeDirectory path else (false, store)
  else (false, store)

end Store

instance : FileSystem (StateM Store) where
  kind? path := do
    let store ← get
    pure ((store.entry? path).map Entry.kind)
  read? path := do
    let store ← get
    pure (store.read? path)
  makeDirectories path := modifyGet (Store.makeDirectories path)
  write path content := modifyGet (Store.write path content)

end JavaMinus.Files
