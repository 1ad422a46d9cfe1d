import CodeGroom.CommandLine.Numeral
import CodeGroom.CommandLine.Settings
import CodeGroom.Trace

/-!
# Options

The options of the command line: their names, the value that each takes, and what it changes. And the ways in which a command
line can be wrong, with what is said about them.
-/

namespace CodeGroom.CommandLine

/-- What is known while a command line is read: the settings, and the languages named as not to be grouped. -/
structure Reading where
  settings : Settings := {}
  ungrouped : List String := []
deriving DecidableEq, Repr

/-- What an option does: it asks for help, it switches something on, or it takes a number or a language. -/
inductive Effect where
  | help
  | switch (set : Style → Style)
  | diff
  | verbose
  | number (set : Int → Style → Style)
  | language
  | ungrouped

/-- An option: its names and its effect. -/
structure Opt where
  names : List String
  effect : Effect

/-- Whether an option takes a value. -/
def Opt.takesValue (o : Opt) : Bool :=
  match o.effect with
  | .number _ | .language | .ungrouped => true
  | _ => false

/-- The options, in the order in which they are listed. -/
def options : List Opt :=
  [⟨["-h", "--help"], .help⟩,
    ⟨["-d", "--diff"], .diff⟩,
    ⟨["-v", "--verbose"], .verbose⟩,
    ⟨["--lang"], .language⟩,
    ⟨["--align-calls"], .switch fun s => { s with alignCalls := true }⟩,
    ⟨["--span"], .number fun n s => { s with alignSpan := n }⟩,
    ⟨["--thresh"], .number fun n s => { s with alignThreshold := n }⟩,
    ⟨["--number-right"], .switch fun s => { s with alignNumbersRight := true }⟩,
    ⟨["--on-tabstop"], .switch fun s => { s with alignOnTabStop := true }⟩,
    ⟨["--paren-if-bool"], .switch fun s => { s with groupConditions := true }⟩,
    ⟨["--paren-assign-bool"], .switch fun s => { s with groupAssignments := true }⟩,
    ⟨["--paren-return-bool"], .switch fun s => { s with groupReturns := true }⟩,
    ⟨["--paren-exclude-lang"], .ungrouped⟩,
    ⟨["--input-tab-size"], .number fun n s => { s with inputTabSize := n }⟩,
    ⟨["--output-tab-size"], .number fun n s => { s with outputTabSize := n }⟩,
    ⟨["--indent-with-tabs"], .switch fun s => { s with indentWithTabs := true }⟩]

/-- Every name of an option, with the option. -/
def optionNames : List (Text × Opt) := options.flatMap fun o => o.names.map fun n => (Text.ofString n, o)

/-- The option with a name. -/
def option? (name : Text) : Option Opt := optionNames.lookup name

/-- Why a command line is refused; `helpWanted` if it asks for help instead. -/
inductive UsageError where
  | helpWanted
  | ambiguous (arg : Text) (names : List Text)
  | valueIgnored (names : List String) (value : Text)
  | valueMissing (names : List String)
  | noNumber (names : List String) (value : Text)
  | noLanguage (names : List String) (value : Text)
  | filesMissing
  | unrecognized (args : List Text)
deriving DecidableEq, Repr

namespace UsageError

/-- The names of an option in a message. -/
def nameList (names : List String) : String := "/".intercalate names

/-- What is said about a command line that is refused. -/
def reason : UsageError → String
  | helpWanted => ""
  | ambiguous arg names =>
    let possible := ", ".intercalate (names.map Text.plain)
    s!"ambiguous option: {arg.plain} could match {possible}"
  | valueIgnored names value => s!"argument {nameList names}: ignored explicit argument {value.quoted}"
  | valueMissing names => s!"argument {nameList names}: expected one argument"
  | noNumber names value => s!"argument {nameList names}: invalid int value: {value.quoted}"
  | noLanguage names value =>
    let choices := ", ".intercalate (languages.map fun l => (Text.ofString l).quoted)
    s!"argument {nameList names}: invalid choice: {value.quoted} (choose from {choices})"
  | filesMissing => "the following arguments are required: filepaths"
  | unrecognized args => "unrecognized arguments: " ++ " ".intercalate (args.map Text.plain)

/-- The message for a command line that is refused; there is none where help is wanted. -/
def message : UsageError → String
  | helpWanted => ""
  | e => "tidyc: error: " ++ e.reason

/-- The exit code for a command line that is refused. -/
def exitCode : UsageError → Nat
  | helpWanted => 0
  | _ => 2

end UsageError

/-- Applies an option, with its value if it takes one. -/
def Opt.apply (o : Opt) (value : Text) (r : Reading) : Except UsageError Reading :=
  let language (keep : String → Reading) : Except UsageError Reading :=
    match languages.find? (Text.ofString · = value) with
    | some l => .ok (keep l)
    | none => .error (.noLanguage o.names value)
  let style (set : Style → Style) : Reading := { r with settings := { r.settings with style := set r.settings.style } }
  match o.effect with
  | .help => .error .helpWanted
  | .switch set => .ok (style set)
  | .diff => .ok { r with settings := { r.settings with diff := true } }
  | .verbose => .ok { r with settings := { r.settings with verbose := true } }
  | .number set =>
    match Numeral.parse? value with
    | some n => .ok (style (set n))
    | none => .error (.noNumber o.names value)
  | .language => language fun l => { r with settings := { r.settings with language := some l } }
  | .ungrouped => language fun l => { r with ungrouped := r.ungrouped ++ [l] }

end CodeGroom.CommandLine
