import CodeGroom.Text.CharClass

/-!
# Numbers on a command line

A whole number is written with an optional sign and decimal digits of any script; single underscores may stand between digits, and
white space around the whole, but not the separators that are control characters.
-/

namespace CodeGroom.Numeral

/-- The value of a digit. -/
def digit? : Symbol → Option Nat
  | .char c => if c.toNat < 128 then (if c.isDigit then some (c.toNat - 48) else none) else digitValue? c.toNat
  | .byte _ => none

/-- The most digits that a number may have. -/
def mostDigits : Nat := 4300

/-- The digits of a number; `more` says that one must follow, as at the start and behind an underscore. -/
def digits? (more : Bool) : Text → Option (List Nat)
  | [] => if more then none else some []
  | x :: rest =>
    match digit? x with
    | some d => (digits? false rest).map (d :: ·)
    | none => if x = .char '_' ∧ !more then digits? true rest else none

/-- The number that a text without sign and white space stands for. -/
def natural? (t : Text) : Option Nat :=
  (digits? true t).bind fun ds => if ds.length ≤ mostDigits then some (ds.foldl (fun n d => n * 10 + d) 0) else none

/-- White space that may stand around a number. -/
def isPadding (x : Symbol) : Bool := x.isBlank && !x.isOneOf "\x1c\x1d\x1e\x1f"

/-- A text without the padding at its two ends. -/
def bare (t : Text) : Text := ((t.dropWhile isPadding).reverse.dropWhile isPadding).reverse

/-- The number that a text stands for. -/
def parse? (t : Text) : Option Int :=
  match bare t with
  | .char '-' :: rest => (natural? rest).map fun n => -(n : Int)
  | .char '+' :: rest => (natural? rest).map fun n => (n : Int)
  | rest => (natural? rest).map fun n => (n : Int)

/-- Whether an argument looks like a negative number, with or without decimals. A line feed at its end does not count. -/
def looksNegative (t : Text) : Bool :=
  let t := if t.getLast? = some Text.lineFeed then t.dropLast else t
  match t with
  | .char '-' :: rest =>
    let whole := rest.takeWhile (·.isDigit)
    match rest.dropWhile (·.isDigit) with
    | [] => !whole.isEmpty
    | .char '.' :: decimals => !decimals.isEmpty && decimals.all (·.isDigit)
    | _ => false
  | _ => false

end CodeGroom.Numeral
