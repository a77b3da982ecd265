import Stratagem.Market.History
import Stratagem.System.Refusal

/-!
# Archives

An archive is a directory with a file for every stored history. Its functions take what the system
answers to the request for a file or for the names in the directory, and how a file is split into
records.
-/

namespace Stratagem

/-- A directory of stored histories. -/
structure Archive where
  directory : String
  deriving DecidableEq, Repr

namespace Archive

/-- The path of a name in a directory. An absolute path stands for itself. -/
def join (directory name : String) : String :=
  if name.startsWith "/" || directory.isEmpty then name
  else if directory.endsWith "/" then directory ++ name
  else directory ++ "/" ++ name

/-- The path of the history of a market. -/
def path (a : Archive) (symbol interval : String) : String :=
  join a.directory (History.fileName symbol interval)

/-- The history of a market, given the answer to the request for its file. -/
def bars (a : Archive) (symbol interval : String) (answer : Except Refusal String)
    (split : String → List Record := Record.ofText) : Except FeedError (List Bar) :=
  match answer with
  | .ok text => History.ofText split text
  | .error .notFound => .error (.unknownSymbol symbol interval)
  | .error e =>
    let path := a.path symbol interval
    .error (.unavailable s!"failed to read {path}: {e.describe}")

/-- The latest bars of a market, given the answer to the request for its file. -/
def latest (a : Archive) (symbol interval : String) (count : Nat)
    (answer : Except Refusal String) (split : String → List Record := Record.ofText) :
    Except FeedError (List Bar) := do
  let bars ← a.bars symbol interval answer split
  History.latest (a.path symbol interval) count bars

/-- The symbols with a history at an interval, given the names in the directory. -/
def symbols (a : Archive) (interval : String) (answer : Except Refusal (List String)) :
    Except FeedError (List String) :=
  match answer with
  | .ok names => .ok (History.symbols interval names)
  | .error e => .error (.unavailable s!"failed to read directory {a.directory}: {e.describe}")

end Archive

end Stratagem
