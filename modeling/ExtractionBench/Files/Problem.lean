/-!
# What can go wrong with a file

The reasons for which the system refuses to read or write a file, and the one reason for which its
content is refused.
-/

namespace ExtractionBench

/-- Why a file could not be read or written. -/
inductive FileProblem where
  /-- There is nothing under this name, or a directory on the way is missing. -/
  | missing
  /-- Something on the way is a file. -/
  | notDirectory
  /-- It is a directory. -/
  | isDirectory
  /-- A name on the way has too many bytes, or the whole path has. -/
  | nameTooLong
  /-- The name holds a NUL character. -/
  | nulInName
  /-- The content is not UTF-8. -/
  | notText
  deriving DecidableEq, Repr

/-- The wording of a reason. -/
def FileProblem.describe : FileProblem → String
  | .missing => "No such file or directory (os error 2)"
  | .notDirectory => "Not a directory (os error 20)"
  | .isDirectory => "Is a directory (os error 21)"
  | .nameTooLong => "File name too long (os error 36)"
  | .nulInName => "file name contained an unexpected NUL byte"
  | .notText => "stream did not contain valid UTF-8"

end ExtractionBench
