import CodeGroom.Lexer.Pattern

/-!
# Pieces of C and C++ source

The patterns that the rules of the C family are made of: names, comments and numbers.
-/

namespace CodeGroom.Fragment

open Pattern

/-- A hexadecimal digit. -/
def hexDigit : Pattern := oneOf "0123456789abcdefABCDEF"

/-- A universal character name. -/
def universalName : Pattern := (lit "\\u" ++ times hexDigit 4 0) <|> (lit "\\U" ++ times hexDigit 8 0)

/-- A symbol of a name. -/
def nameSymbol : Pattern := (wordSymbol <|> lit "$") <|> universalName

/-- A name. -/
def name : Pattern := notFollowedBy digit ++ some1 nameSymbol

/-- A name with qualifiers. -/
def qualifiedName : Pattern := notFollowedBy digit ++ some1 (nameSymbol <|> lit "::")

/-- White space with at most one comment, which must stand on a single line. -/
def spaceWithComment : Pattern := many blank ++ opt (lit "/*" ++ fewest inLine ++ lit "*/" ++ many blank)

/-- A comment to the end of the line; a backslash before a line feed takes the next line in. -/
def lineComment : Pattern := lit "//" ++ many (inLine <|> (behind '\\' ++ lit "\n")) ++ lit "\n"

/-- A backslash before a line feed, or nothing. -/
def splice : Pattern := opt (lit "\\\n")

/-- A comment between its marks. -/
def blockComment : Pattern :=
  lit "/" ++ splice ++ lit "*" ++ many (noneOf "*" <|> (lit "*" ++ notFollowedBy (splice ++ lit "/"))) ++ lit "*" ++ splice ++
    lit "/"

/-- White space and comments. -/
def spaceAndComments : Pattern := many blank ++ many ((lineComment <|> blockComment) ++ many blank)

/-- Digits with single quotes between them. -/
def separated (d : Pattern) : Pattern := d ++ many (opt (lit "'") ++ d)

/-- Hexadecimal digits of a literal. -/
def hexDigits : Pattern := separated hexDigit

/-- Decimal digits of a literal. -/
def digits : Pattern := separated digit

/-- The suffix of an integer literal. -/
def integerSuffix : Pattern :=
  opt (firstOf [opt (oneOf "uU") ++ oneOf "zZ", oneOf "zZ" ++ oneOf "uU", oneOf "uU" ++ times (oneOf "lL") 0 2,
    times (oneOf "lL") 1 1 ++ opt (oneOf "uU")])

/-- A minus sign or nothing. -/
def minus : Pattern := opt (lit "-")

/-- A hexadecimal floating point literal. -/
def hexFloat : Pattern :=
  lit "0" ++ oneOf "xX" ++ firstOf [hexDigits ++ lit "." ++ hexDigits, lit "." ++ hexDigits, hexDigits] ++ oneOf "pP" ++
    opt (oneOf "+-") ++ hexDigits ++ opt (oneOf "lL")

/-- A floating point literal with an exponent. -/
def exponentFloat : Pattern :=
  minus ++ firstOf [digits ++ lit "." ++ digits, lit "." ++ digits, digits] ++ oneOf "eE" ++ opt (oneOf "+-") ++ digits ++
    opt (oneOf "fFlL")

/-- A floating point literal without an exponent. -/
def pointFloat : Pattern :=
  (minus ++ ((digits ++ lit "." ++ opt digits) <|> (lit "." ++ digits)) ++ opt (oneOf "fFlL")) <|> (digits ++ oneOf "fFlL")

/-- A hexadecimal integer literal. -/
def hexInteger : Pattern := minus ++ lit "0" ++ oneOf "xX" ++ hexDigits ++ integerSuffix

/-- A binary integer literal. -/
def binaryInteger : Pattern := minus ++ lit "0" ++ oneOf "bB" ++ separated (oneOf "01") ++ integerSuffix

/-- An octal integer literal. -/
def octalInteger : Pattern := minus ++ lit "0" ++ some1 (opt (lit "'") ++ oneOf "01234567") ++ integerSuffix

/-- A decimal integer literal. -/
def decimalInteger : Pattern := minus ++ digits ++ integerSuffix

/-- The mark of the encoding of a string or character literal. -/
def encodingMark : Pattern := opt (oneOf "LuU" <|> lit "u8")

/-- A character of a character literal. -/
def characterBody : Pattern :=
  firstOf [lit "\\" ++ inLine, lit "\\" ++ times (oneOf "01234567") 1 2, lit "\\x" ++ times hexDigit 1 1, noneOf "\\'\n"]

/-- An escape in a string literal. -/
def stringEscape : Pattern :=
  lit "\\" ++ firstOf [oneOf "\\abfnrtv\"'", lit "x" ++ times hexDigit 2 2, lit "u" ++ times hexDigit 4 0,
    lit "U" ++ times hexDigit 8 0, times (oneOf "01234567") 1 2]

end CodeGroom.Fragment
