/-!
# Refusals

Why the system that a program runs on refuses to read or write a file.
-/

namespace Stratagem

/-- Why a file cannot be read or written. -/
inductive Refusal
  | notFound
  | notADirectory
  | isADirectory
  | nameTooLong
  /-- A path with a null character. -/
  | badName
  /-- The file holds bytes that are no UTF-8 text. -/
  | notText
  | other (reason : String)
  deriving DecidableEq, Repr

namespace Refusal

/-- Why the file cannot be read or written, in words. -/
def describe : Refusal → String
  | notFound => "No such file or directory (os error 2)"
  | notADirectory => "Not a directory (os error 20)"
  | isADirectory => "Is a directory (os error 21)"
  | nameTooLong => "File name too long (os error 36)"
  | badName => "file name contained an unexpected NUL byte"
  | notText => "stream did not contain valid UTF-8"
  | other reason => reason

end Refusal

end Stratagem
