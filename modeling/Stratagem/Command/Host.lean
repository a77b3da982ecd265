import Stratagem.Failure
import Stratagem.System.Folder

/-!
# Hosts

What commands need from the system they run on (`Host`), and a system in memory (`Rehearsal`) on
which a command leaves a folder, an output and a transcript for the user.
-/

namespace Stratagem

/-- Access to files and to the user. -/
structure Host (m : Type → Type) where
  /-- The text of a file. -/
  read : String → m (Except Refusal String)
  /-- Writes a text to a file, at its end or in place of what it holds. -/
  write : (path : String) → (append : Bool) → (text : String) → m (Except Refusal Unit)
  /-- Gives out a result. -/
  print : String → m Unit
  /-- Tells the user a line. -/
  report : String → m Unit

/-- Something that a command does: it ends with a value or fails. -/
abbrev Action (m : Type → Type) := ExceptT Failure m

namespace Host

variable {m : Type → Type} [Monad m]

/-- Tells the user a line. -/
def say (host : Host m) (line : String) : Action m Unit := ExceptT.lift (host.report line)

/-- Gives out a result. -/
def give (host : Host m) (text : String) : Action m Unit := ExceptT.lift (host.print text)

/-- The text of a file that must be there. -/
def load (host : Host m) (path : String) : Action m String := do
  match ← ExceptT.lift (host.read path) with
  | .ok text => return text
  | .error e => throw (.system e.describe)

/-- Writes to a file that must be writable. -/
def store (host : Host m) (path : String) (append : Bool) (text : String) : Action m Unit := do
  match ← ExceptT.lift (host.write path append text) with
  | .ok () => return ()
  | .error e => throw (.system e.describe)

end Host

/-- A system in memory. -/
structure Rehearsal where
  folder : Folder
  output : String
  /-- What the user has been told. -/
  transcript : String

namespace Rehearsal

/-- A system with nothing but a folder. -/
def ofFolder (folder : Folder) : Rehearsal := ⟨folder, "", ""⟩

/-- The host of a system in memory. -/
def host : Host (StateM Rehearsal) where
  read := fun path s => (s.folder.read path, s)
  write := fun path append text s =>
    match s.folder.write path append text with
    | .ok folder => (.ok (), { s with folder })
    | .error e => (.error e, s)
  print := fun text s => ((), { s with output := s.output ++ text })
  report := fun line s => ((), { s with transcript := s.transcript ++ line ++ "\n" })

end Rehearsal

end Stratagem
