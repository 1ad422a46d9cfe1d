import CodeGroom.CommandLine.Settings
import CodeGroom.Diff.Unified
import CodeGroom.Format
import CodeGroom.Lexer.Grammar

/-!
# Jobs

A job formats files one after another and prints each one, or what would change in it. It stops at the first file with a fault;
what was printed before stays.
-/

namespace CodeGroom

/-- Looks up the bytes of a file. -/
abbrev FileReader := FilePath → Except Fault (List UInt8)

/-- What a job printed, what it reported line by line, and the fault that stopped it. -/
structure JobResult where
  printed : List UInt8 := []
  report : List String := []
  fault : Option Fault := none
deriving DecidableEq, Repr

namespace Job

/-- What is printed for a file: the file formatted, or the difference that this makes. `lexers` cuts the text of each language into
tokens. -/
def fileText (lexers : String → Lexer) (settings : Settings) (read : FileReader) (file : FilePath) :
    Except Fault (List UInt8 × Trace) := do
  if file.hasNull then throw .nullInPath
  let bytes ← read file
  let language := settings.languageOf file
  let (formatted, trace) ← Format.bytes (lexers language) settings.style language bytes
  if settings.diff then
    let text := Diff.unified file.toText (Text.decode bytes).fileLines (Text.decode formatted).allLines
    return (Text.encode text, trace)
  else return (formatted, trace)

/-- Goes through the files. -/
def runFiles (lexers : String → Lexer) (settings : Settings) (read : FileReader) : List FilePath → JobResult → JobResult
  | [], result => result
  | file :: files, result =>
    match fileText lexers settings read file with
    | .error e => { result with fault := some e }
    | .ok (text, trace) =>
      let report := if settings.verbose then trace.reverse.map Event.message else []
      runFiles lexers settings read files { result with printed := result.printed ++ text, report := result.report ++ report }

/-- Runs a job, with the lexers for the languages of source files. -/
def run (settings : Settings) (read : FileReader) : JobResult := runFiles sourceTokens settings read settings.files {}

end Job

/-- Files by the parts of their paths, all in one directory tree. -/
abbrev FileTree := List (List Text × List UInt8)

namespace FileTree

/-- The part of a path that goes back up. -/
def upward : Text := Text.ofString ".."

/-- The most bytes that a part of a path may have. -/
def longestPart : Nat := 255

/-- The most bytes that a path may have. -/
def longestPath : Nat := 4095

/-- Looks for a file that is not in the tree: there is none, and no directory but those above. -/
def findOutside (shown : Text) (parts : List Text) : Except Fault (List UInt8) :=
  .error (if parts.all (· = upward) then .fileIsDirectory shown else .fileMissing shown)

/-- Goes down from a directory along the parts of a path. -/
def find (tree : FileTree) (shown : Text) : List Text → List Text → Except Fault (List UInt8)
  | _, [] => .error (.fileIsDirectory shown)
  | here, part :: parts =>
    if part = upward then if here = [] then findOutside shown parts else find tree shown here.dropLast parts
    else if longestPart < (Text.encode part).length then .error (.nameTooLong shown)
    else
      let there := here ++ [part]
      match tree.lookup there with
      | some bytes => if parts = [] then .ok bytes else .error (.parentIsFile shown)
      | none =>
        if tree.any fun (name, _) => there.isPrefixOf name then find tree shown there parts else .error (.fileMissing shown)

/-- Reads files of a tree; a path with a root leads out of it. -/
def reader (tree : FileTree) : FileReader := fun file =>
  if longestPath < (Text.encode file.toText).length then .error (.nameTooLong file.toText)
  else if file.root = 0 then tree.find file.toText [] file.parts
  else findOutside file.toText file.parts

end FileTree

end CodeGroom
