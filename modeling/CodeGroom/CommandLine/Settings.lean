import CodeGroom.CommandLine.FilePath
import CodeGroom.Style

/-!
# Settings

What a command line asks for: the files, what to write about them, and the style.
-/

namespace CodeGroom

/-- What a run is to do. Without a language, that of each file follows from its name. -/
structure Settings where
  files : List FilePath := []
  diff : Bool := false
  verbose : Bool := false
  language : Option String := none
  style : Style := {}
deriving DecidableEq, Repr

/-- The languages that can be chosen. -/
def languages : List String := ["c", "cpp", "cs", "java", "d", "oc", "vala", "pawn"]

/-- The language of a file. -/
def Settings.languageOf (s : Settings) (file : FilePath) : String := s.language.getD file.language

end CodeGroom
