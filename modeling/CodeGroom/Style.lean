import CodeGroom.Layout.Page

/-!
# Styles

What a formatting run is asked to do.
-/

namespace CodeGroom

/-- The choices of a formatting run. Every pass is off unless asked for. -/
structure Style where
  alignCalls : Bool := false
  alignSpan : Int := 3
  alignThreshold : Int := 0
  alignNumbersRight : Bool := false
  alignOnTabStop : Bool := false
  groupConditions : Bool := false
  groupAssignments : Bool := false
  groupReturns : Bool := false
  ungroupedLanguages : List String := ["cs"]
  inputTabSize : Int := 8
  outputTabSize : Int := 8
  indentWithTabs : Bool := false
deriving DecidableEq, Repr

namespace Style

/-- Whether any parentheses are to be inserted. -/
def groupsAny (st : Style) : Bool := st.groupConditions || st.groupAssignments || st.groupReturns

/-- How the pages of a run are ruled. -/
def ruling (st : Style) : Ruling := { tabSize := st.outputTabSize, indentWithTabs := st.indentWithTabs }

end Style

end CodeGroom
