/-!
# Symbols of a source text

A source file is read as a list of symbols: characters, and the bytes that belong to no character. Positions, columns and
widths all count symbols, so an undecodable byte takes one place and comes back out unchanged.
-/

namespace CodeGroom

/-- One place of a source text: a character, or a byte that belongs to no character. -/
inductive Symbol where
  | char (c : Char)
  | byte (b : UInt8)
deriving DecidableEq, Repr, Inhabited

instance : Coe Char Symbol := ⟨.char⟩

/-- A source text, symbol by symbol. -/
abbrev Text := List Symbol

/-- The code point of a character. -/
def Symbol.codePoint? : Symbol → Option Nat
  | .char c => some c.toNat
  | .byte _ => none

/-- Whether the symbol is one of the characters of `s`. -/
def Symbol.isOneOf (x : Symbol) (s : String) : Bool :=
  match x with
  | .char c => s.toList.contains c
  | .byte _ => false

namespace Text

/-- The text whose symbols are the characters of `s`. -/
def ofString (s : String) : Text := s.toList.map .char

/-- The line feed, which alone ends a line of source. -/
def lineFeed : Symbol := .char '\n'

/-- The part of a text from `start` up to but not including `stop`, empty when `stop` does not lie behind `start`. -/
def slice (t : Text) (start stop : Nat) : Text := (t.drop start).take (stop - start)

/-- `n` copies of a symbol, none for a count that is not positive. -/
def copies (n : Int) (x : Symbol) : Text := List.replicate n.toNat x

end Text

end CodeGroom
