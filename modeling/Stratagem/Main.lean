import Stratagem.Command.Help
import Stratagem.Command.Run

/-!
# The program

The host that commands run on: the files and the streams of the system.
-/

namespace Stratagem

/-- The number of an error of the system, which may be given with a minus sign. -/
def errorNumber (code : UInt32) : Nat :=
  if code.toNat < Nat.pow 2 31 then code.toNat else Nat.pow 2 32 - code.toNat

/-- What an error of the system says about a file. -/
def Refusal.ofError (e : IO.Error) : Refusal :=
  match e with
  | .noFileOrDirectory _ _ _ => .notFound
  | .inappropriateType _ code _ | .invalidArgument _ code _ | .otherError code _ =>
    match errorNumber code with
    | 20 => .notADirectory
    | 21 => .isADirectory
    | 36 => .nameTooLong
    | _ => .other e.toString
  | _ => .other e.toString

/-- The text of a file. -/
def readFile (path : String) : IO (Except Refusal String) := do
  try
    match String.fromUTF8? (← IO.FS.readBinFile path) with
    | some text => return .ok text
    | none => return .error .notText
  catch e => return .error (.ofError e)

/-- Writes a text to a file. -/
def writeFile (path : String) (append : Bool) (text : String) : IO (Except Refusal Unit) := do
  try
    let file ← IO.FS.Handle.mk path (if append then .append else .write)
    file.putStr text
    file.flush
    return .ok ()
  catch e => return .error (.ofError e)

/-- The host of the program. -/
def Host.system : Host IO where
  read := readFile
  write := writeFile
  print := fun text => do
    let out ← IO.getStdout
    out.putStr text
    out.flush
  report := fun line => do (← IO.getStderr).putStrLn line

end Stratagem

open Stratagem in
/-- Does what the words of the command line say. -/
def main (words : List String) : IO UInt32 := do
  match Command.ofWords words with
  | .ok command => return (← Host.system.run command).toUInt32
  | .error e =>
    if e.exitCode = 0 then IO.println e.message else IO.eprintln e.message
    return e.exitCode.toUInt32
