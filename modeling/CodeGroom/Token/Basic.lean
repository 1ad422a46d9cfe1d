import CodeGroom.Text.Symbol

/-!
# Tokens

A lexer cuts a text into tokens: a place, a class and the symbols there. Before they are read further, tokens are cut at line
feeds, and neighbouring tokens are joined again where a lexer cuts too finely: operators and punctuation, and the parts of a
string.
-/

namespace CodeGroom

/-- The class of a token, from the general to the particular. -/
structure TokenClass where
  path : List String
deriving DecidableEq, Repr, Inhabited

namespace TokenClass

/-- The class with a dotted name. -/
def ofLabel (s : String) : TokenClass := ⟨s.splitOn "."⟩

/-- The dotted name of a class. -/
def label (c : TokenClass) : String := ".".intercalate c.path

/-- Whether a class is `d` or a part of it. -/
def within (c d : TokenClass) : Bool := d.path.isPrefixOf c.path

def comment : TokenClass := ⟨["Comment"]⟩
def commentSingle : TokenClass := ⟨["Comment", "Single"]⟩
def commentMultiline : TokenClass := ⟨["Comment", "Multiline"]⟩
def directive : TokenClass := ⟨["Comment", "Preproc"]⟩
def directiveFile : TokenClass := ⟨["Comment", "PreprocFile"]⟩
def error : TokenClass := ⟨["Error"]⟩
def keyword : TokenClass := ⟨["Keyword"]⟩
def keywordPseudo : TokenClass := ⟨["Keyword", "Pseudo"]⟩
def keywordReserved : TokenClass := ⟨["Keyword", "Reserved"]⟩
def keywordType : TokenClass := ⟨["Keyword", "Type"]⟩
def name : TokenClass := ⟨["Name"]⟩
def nameAttribute : TokenClass := ⟨["Name", "Attribute"]⟩
def nameBuiltin : TokenClass := ⟨["Name", "Builtin"]⟩
def nameClass : TokenClass := ⟨["Name", "Class"]⟩
def nameConstant : TokenClass := ⟨["Name", "Constant"]⟩
def nameDecorator : TokenClass := ⟨["Name", "Decorator"]⟩
def nameFunction : TokenClass := ⟨["Name", "Function"]⟩
def nameLabel : TokenClass := ⟨["Name", "Label"]⟩
def nameNamespace : TokenClass := ⟨["Name", "Namespace"]⟩
def number : TokenClass := ⟨["Literal", "Number"]⟩
def numberBin : TokenClass := ⟨["Literal", "Number", "Bin"]⟩
def numberFloat : TokenClass := ⟨["Literal", "Number", "Float"]⟩
def numberHex : TokenClass := ⟨["Literal", "Number", "Hex"]⟩
def numberInteger : TokenClass := ⟨["Literal", "Number", "Integer"]⟩
def numberOct : TokenClass := ⟨["Literal", "Number", "Oct"]⟩
def operator : TokenClass := ⟨["Operator"]⟩
def punctuation : TokenClass := ⟨["Punctuation"]⟩
def string : TokenClass := ⟨["Literal", "String"]⟩
def stringAffix : TokenClass := ⟨["Literal", "String", "Affix"]⟩
def stringChar : TokenClass := ⟨["Literal", "String", "Char"]⟩
def stringDelimiter : TokenClass := ⟨["Literal", "String", "Delimiter"]⟩
def stringEscape : TokenClass := ⟨["Literal", "String", "Escape"]⟩
def text : TokenClass := ⟨["Text"]⟩
def whitespace : TokenClass := ⟨["Text", "Whitespace"]⟩

end TokenClass

/-- A token: where it starts, its class and its symbols. -/
structure Token where
  start : Nat
  cls : TokenClass
  text : Text
deriving DecidableEq, Repr, Inhabited

namespace Token

/-- The place behind the token. -/
def stop (t : Token) : Nat := t.start + t.text.length

/-- The parts of a text at a place: each line feed by itself, and each run of other symbols. -/
def cutText : Nat → Text → List (Nat × Text)
  | _, [] => []
  | pos, x :: rest =>
    if x = Text.lineFeed then (pos, [x]) :: cutText (pos + 1) rest
    else match cutText (pos + 1) rest with
      | [] => [(pos, [x])]
      | (p, t) :: more => if t = [Text.lineFeed] then (pos, [x]) :: (p, t) :: more else (pos, x :: t) :: more

/-- Cuts tokens at their line feeds; a token without symbols vanishes. -/
def cutLines (ts : List Token) : List Token :=
  ts.flatMap fun t => (cutText t.start t.text).map fun (pos, part) => ⟨pos, t.cls, part⟩

/-- What a token may be joined to: operators and punctuation to each other, parts of strings to each other. -/
inductive Joint where
  | operators
  | strings
deriving DecidableEq, Repr

/-- The joint of a token, none for a line feed. -/
def joint? (t : Token) : Option Joint :=
  if t.text = [Text.lineFeed] then none
  else if t.cls.within .operator || t.cls.within .punctuation then some .operators
  else if t.cls.within .string then some .strings
  else none

/-- Whether `u` continues `t`: it starts where `t` stops, and they have the same joint. -/
def joins (t u : Token) : Bool := t.joint?.isSome && t.joint? = u.joint? && t.stop = u.start

/-- Joins a token with those of the following ones that continue it, and so on through the list. -/
def mergeFrom (t : Token) : List Token → List Token
  | [] => [t]
  | u :: us => if t.joins u then mergeFrom { t with text := t.text ++ u.text } us else t :: mergeFrom u us

/-- Joins each token with those that continue it. -/
def mergeRuns : List Token → List Token
  | [] => []
  | t :: ts => mergeFrom t ts

end Token

end CodeGroom
