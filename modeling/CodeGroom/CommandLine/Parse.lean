import CodeGroom.CommandLine.Options

/-!
# Reading a command line

Options and files may stand in any order. The arguments are gone through twice: first all options are read and everything else is
left over, then the files are taken from what was left. Behind `--` everything counts as a file, once: a `--` that comes first
among what is not an option is used up in the first round. A long option may be cut short as long as only one option starts that
way, and short options that take no value may share a dash.
-/

namespace CodeGroom.CommandLine

/-- What an argument is: the `--` behind which there are no options, something that is no option, an option with the name it was
given and what is attached to it, or something that looks like an option but is none. -/
inductive Shape where
  | separator
  | plain
  | known (o : Opt) (name : Text) (attached : Option Text)
  | unknown

/-- The part of an argument before its first equals sign, and the part behind it if there is one. -/
def splitEquals (arg : Text) : Text × Option Text :=
  match arg.dropWhile (· ≠ .char '=') with
  | [] => (arg, none)
  | _ :: value => (arg.takeWhile (· ≠ .char '='), some value)

/-- The options that a dash and more may mean: for two dashes those that start in this way, for one dash the short option that
its first letter names, with the rest attached. -/
def candidates (arg : Text) : List (Text × Shape) :=
  match arg with
  | .char '-' :: .char '-' :: _ =>
    let (start, value) := splitEquals arg
    (optionNames.filter fun (n, _) => start.isPrefixOf n).map fun (n, o) => (n, .known o n value)
  | dash :: letter :: rest =>
    (optionNames.filter fun (n, _) => n = [dash, letter]).map fun (n, o) => (n, .known o n (some rest))
  | _ => []

/-- An argument that may be an abbreviated option. -/
def shapeOfDashed (arg : Text) : Except UsageError Shape :=
  match candidates arg with
  | [(_, shape)] => .ok shape
  | [] => .ok (if Numeral.looksNegative arg || arg.contains (.char ' ') then .plain else .unknown)
  | several => .error (.ambiguous arg (several.map (·.1)))

/-- What an argument is, in front of any `--`. -/
def shapeOf (arg : Text) : Except UsageError Shape :=
  if arg.head? ≠ some (.char '-') then .ok .plain
  else match option? arg with
  | some o => .ok (.known o arg none)
  | none =>
    if arg.length = 1 then .ok .plain
    else match splitEquals arg with
      | (name, some value) =>
        match option? name with
        | some o => .ok (.known o name (some value))
        | none => shapeOfDashed arg
      | (_, none) => shapeOfDashed arg

/-- What all arguments are. -/
def shapes : List Text → Except UsageError (List (Text × Shape))
  | [] => .ok []
  | arg :: args => do
    if arg = Text.ofString "--" then return (arg, .separator) :: args.map (·, .plain)
    else
      let shape ← shapeOf arg
      return (arg, shape) :: (← shapes args)

/-- The options that one argument names: those whose values are settled, and one that may still take the next argument as its
value. -/
structure Cluster where
  done : List (Opt × Text) := []
  last : Option Opt := none

/-- The short option that a letter stands for behind another name: there is none behind a long name. -/
def letterOption? (name : Text) (letter : Symbol) : Option Opt :=
  if (Text.ofString "--").isPrefixOf name then none else option? [.char '-', letter]

/-- Reads what is attached to an option: its value, or, behind a short name, the letters of more short options. Whether there was
an equals sign makes no difference. -/
def cluster (o : Opt) (name : Text) (attached : Text) : Except UsageError Cluster :=
  if o.takesValue then .ok { done := [(o, attached)] }
  else match attached with
    | [] => .error (.valueIgnored o.names attached)
    | letter :: rest =>
      match letterOption? name letter with
      | none => .error (.valueIgnored o.names attached)
      | some o' =>
        if rest = [] then .ok { done := [(o, [])], last := some o' }
        else (cluster o' [.char '-', letter] rest).map fun k => { k with done := (o, []) :: k.done }

/-- Applies options in their order. -/
def applyAll : List (Opt × Text) → Reading → Except UsageError Reading
  | [], r => .ok r
  | (o, value) :: more, r => do
    let r ← o.apply value r
    applyAll more r

/-- Whether an argument can be the value of the option before it. -/
def Shape.isPlain : Shape → Bool
  | plain => true
  | _ => false

/-- Whether an argument is or looks like an option. -/
def Shape.isOption : Shape → Bool
  | known _ _ _ | unknown => true
  | _ => false

/-- The state of a round: what was read, what was left over, and whether the place for files has been passed. -/
structure Round where
  reading : Reading := {}
  leftover : List Text := []
  passed : Bool := false

/-- Takes files in a round: those that stand together, without the first `--` among them. In the round for options alone
nothing is taken but a `--` that comes first. The answer is how many arguments are used up. -/
def takeFiles (files : Bool) (items : List (Text × Shape)) (k : Round) : Round × Nat :=
  if k.passed then (k, 0)
  else if files then
    let run := items.takeWhile fun (_, s) => !s.isOption
    if run.any fun (_, s) => s.isPlain then
      let paths := (run.map (·.1)).erase (Text.ofString "--") |>.map FilePath.ofText
      let settings := { k.reading.settings with files := paths }
      ({ k with reading := { k.reading with settings }, passed := true }, run.length)
    else (k, 0)
  else
    match items with
    | (_, .separator) :: _ => ({ k with passed := true }, 1)
    | _ => ({ k with passed := true }, 0)

/-- The last part of a round, behind all options. -/
def finishRound (files : Bool) (items : List (Text × Shape)) (k : Round) : Round :=
  let (k, used) := takeFiles files items k
  { k with leftover := k.leftover ++ (items.drop used).map (·.1) }

/-- Goes through arguments, in at most so many steps. -/
def runRound (files : Bool) : Nat → List (Text × Shape) → Round → Except UsageError Round
  | 0, items, k => .ok (finishRound files items k)
  | n + 1, items, k =>
    if !items.any (·.2.isOption) then .ok (finishRound files items k)
    else match items with
    | (_, .known o name attached) :: rest => do
      let found ←
        match attached with
        | none => .ok { last := some o }
        | some attached => cluster o name attached
      match found.last with
      | none =>
        let reading ← applyAll found.done k.reading
        runRound files n rest { k with reading }
      | some l =>
        if l.takesValue then
          match rest with
          | (value, .plain) :: rest =>
            let reading ← applyAll (found.done ++ [(l, value)]) k.reading
            runRound files n rest { k with reading }
          | _ => .error (.valueMissing l.names)
        else
          let reading ← applyAll (found.done ++ [(l, [])]) k.reading
          runRound files n rest { k with reading }
    | (arg, .unknown) :: rest => runRound files n rest { k with leftover := k.leftover ++ [arg] }
    | _ =>
      let (k, used) := takeFiles files items k
      if 0 < used then runRound files n (items.drop used) k
      else
        let run := items.takeWhile fun (_, s) => !s.isOption
        runRound files n (items.drop run.length) { k with leftover := k.leftover ++ run.map (·.1) }

/-- One round over arguments. -/
def round (files : Bool) (args : List Text) (reading : Reading) : Except UsageError Round := do
  let items ← shapes args
  runRound files (items.length + 1) items { reading }

/-- The settings that were read: languages named as not to be grouped stand instead of the usual one, and a span that is not
positive stands for the usual three lines. -/
def Reading.toSettings (r : Reading) : Settings :=
  let style := r.settings.style
  let style := if r.ungrouped = [] then style else { style with ungroupedLanguages := r.ungrouped.eraseDups }
  let style := if 0 < style.alignSpan then style else { style with alignSpan := 3 }
  { r.settings with style }

/-- Reads a command line. -/
def parse (args : List Text) : Except UsageError Settings := do
  let first ← round false args {}
  let second ← round true first.leftover first.reading
  if !second.passed then throw .filesMissing
  else if second.leftover ≠ [] then throw (.unrecognized second.leftover)
  else return second.reading.toSettings

end CodeGroom.CommandLine
