import CodeGroom.Text.Quoted

/-!
# Faults

The ways in which a run can go wrong once its command line is understood, and what is said about each.
-/

namespace CodeGroom

/-- Why a run stops: tab stops that do not move, a lexeme that does not exist, a path that names no file or one that cannot be
read. -/
inductive Fault where
  | moduloByZero
  | divisionByZero
  | noSuchLexeme
  | fileMissing (path : Text)
  | fileIsDirectory (path : Text)
  | parentIsFile (path : Text)
  | nameTooLong (path : Text)
  | nullInPath
  | unreadable (path : Text) (why : String)
deriving DecidableEq, Repr

/-- What is said about a fault. -/
def Fault.message : Fault → String
  | moduloByZero => "integer modulo by zero"
  | divisionByZero => "integer division or modulo by zero"
  | noSuchLexeme => "list index out of range"
  | fileMissing path => s!"[Errno 2] No such file or directory: {path.quoted}"
  | fileIsDirectory path => s!"[Errno 21] Is a directory: {path.quoted}"
  | parentIsFile path => s!"[Errno 20] Not a directory: {path.quoted}"
  | nameTooLong path => s!"[Errno 36] File name too long: {path.quoted}"
  | nullInPath => "embedded null byte"
  | unreadable path why => s!"{why}: {path.quoted}"

end CodeGroom
