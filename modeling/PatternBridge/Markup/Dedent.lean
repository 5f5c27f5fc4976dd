import PatternBridge.Text.Search

/-!
The lines of a script or style body without their common indentation.
-/

namespace PatternBridge.Markup

/-- The lines from the first to the last that is not blank, without white space at their ends. -/
def bodyLines (body : Text) : List Text :=
  Text.trimWith List.isEmpty ((body.splitOn '\n').map Text.trimEnd)

def leadingBlanks (line : Text) : Nat := (line.takeWhile Text.isAsciiBlank).length

/-- The number of blanks that every line with content starts with. -/
def commonIndent (lines : List Text) : Nat :=
  ((lines.filter (!·.isEmpty)).map leadingBlanks).min?.getD 0

def dedent (body : Text) : List Text :=
  let lines := bodyLines body
  lines.map (·.drop (commonIndent lines))

end PatternBridge.Markup
