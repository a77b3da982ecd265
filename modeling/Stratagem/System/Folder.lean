import Stratagem.System.Refusal
import Stratagem.Text.Blank
import Stratagem.Text.Parts

/-!
# Folders

A tree of directories and files in memory, with the rules by which a path leads through it.
`Folder.read`, `Folder.names` and `Folder.write` answer as a file system answers whose current
directory is the root of the tree. Outside the tree there are only directories with nothing in them.
-/

namespace Stratagem

/-- The names on the way from the root of a folder. -/
abbrev Location := List String

/-- What a name in a directory stands for. -/
inductive Item
  /-- A file; there is no content if its bytes are no text. -/
  | file (content : Option String)
  | directory
  deriving DecidableEq, Repr

/-- The items below a root by their locations. -/
structure Folder where
  items : List (Location × Item)
  deriving Repr

namespace Folder

/-! ## Building -/

/-- A folder with nothing in it. -/
def empty : Folder := ⟨[]⟩

/-- The item at a location. The root is a directory. -/
def item? (f : Folder) (l : Location) : Option Item :=
  if l.isEmpty then some .directory else f.items.lookup l

/-- The folder with another item at a location. -/
def put (f : Folder) (l : Location) (i : Item) : Folder :=
  ⟨(l, i) :: f.items.filter fun p => p.1 != l⟩

/-- The folder with a directory at a location, if there is nothing yet, and those on the way. -/
def makeDirectories (f : Folder) (l : Location) : Folder :=
  (List.range l.length).foldl
    (fun f n =>
      let d := l.take (n + 1)
      if (f.item? d).isSome then f else f.put d .directory) f

/-- The names in a path. -/
def steps (path : String) : List String :=
  ((Text.parts '/' path.toList).filter fun p => !p.isEmpty).map String.ofList

/-- The location that a path without dots names. -/
def location (path : String) : Location := (steps path).filter fun name => name != "."

/-- The folder with a directory at a path. -/
def addDirectory (f : Folder) (path : String) : Folder := f.makeDirectories (location path)

/-- The folder with a file at a path. -/
def addFile (f : Folder) (path : String) (content : Option String) : Folder :=
  let l := location path
  (f.makeDirectories l.dropLast).put l (.file content)

/-! ## Paths -/

/-- The most bytes of a name. -/
def maxName : Nat := 255

/-- The least number of bytes of a path that is too long. -/
def pathLimit : Nat := 4096

/-- A place that a path leads to. -/
inductive Place
  /-- A directory outside the tree. -/
  | outside
  | inside (l : Location)

/-- What is at a place. -/
def itemAt? (f : Folder) : Place → Option Item
  | .outside => some .directory
  | .inside l => f.item? l

/-- One step from a directory. -/
def step (p : Place) (name : String) : Except Refusal Place :=
  match p with
  | .outside => if name == "." || name == ".." then .ok .outside else .error .notFound
  | .inside l =>
    if name == "." then .ok p
    else if name == ".." then .ok (if l.isEmpty then .outside else .inside l.dropLast)
    else if maxName < name.utf8ByteSize then .error .nameTooLong
    else .ok (.inside (l ++ [name]))

/-- The place that names lead to; all but the last must lead to directories. -/
def walk (f : Folder) : Place → List String → Except Refusal Place
  | p, [] => .ok p
  | p, name :: rest =>
    match f.itemAt? p with
    | none => .error .notFound
    | some (.file _) => .error .notADirectory
    | some .directory =>
      match step p name with
      | .error e => .error e
      | .ok p => f.walk p rest

/-- Where a path leads to. -/
def resolve (f : Folder) (path : String) : Except Refusal Place :=
  if path.toList.contains '\x00' then .error .badName
  else if path.isEmpty then .error .notFound
  else if pathLimit ≤ path.utf8ByteSize then .error .nameTooLong
  else f.walk (if path.startsWith "/" then .outside else .inside []) (steps path)

/-! ## Operations -/

/-- The text of a file. -/
def read (f : Folder) (path : String) : Except Refusal String := do
  match f.itemAt? (← f.resolve path) with
  | none => throw .notFound
  | some .directory => throw .isADirectory
  | some (.file content) =>
    if path.endsWith "/" then throw .notADirectory
    else
      match content with
      | some text => return text
      | none => throw .notText

/-- The name of an item that lies directly in a directory. -/
def nameIn? (l : Location) (item : Location) : Option String :=
  if item.dropLast == l then item.getLast? else none

/-- The names in a directory. -/
def names (f : Folder) (path : String) : Except Refusal (List String) := do
  let place ← f.resolve path
  match f.itemAt? place, place with
  | none, _ => throw .notFound
  | some (.file _), _ => throw .notADirectory
  | some .directory, .outside => return []
  | some .directory, .inside l => return f.items.filterMap fun p => nameIn? l p.1

/-- The folder after a text has been written to a file, which is made if need be: at its end, or in
place of what it held. -/
def write (f : Folder) (path : String) (append : Bool) (text : String) : Except Refusal Folder := do
  match ← f.resolve path with
  | .outside => throw .isADirectory
  | .inside l =>
    if path.endsWith "/" then throw .isADirectory
    match f.item? l with
    | some .directory => throw .isADirectory
    | some (.file content) =>
      let kept := if append then content else some ""
      return f.put l (.file (kept.map fun k => k ++ text))
    | none => return f.put l (.file (some text))

end Folder

end Stratagem
