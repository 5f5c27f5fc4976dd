import PatternBridge.Braces.Escape
import PatternBridge.Json.Quoted

/-!
Template dialects: how the tags of a template language are escaped, and the values that the marker
keys take in an encoded template and everywhere else.
-/

namespace PatternBridge

structure Dialect where
  tag : Text
  encode : Text → Text
  decode : Text → Text
  /-- The value of each marker in an encoded template: the delimiter it stands for. -/
  sidecarPairs : List (Text × Text)
  /-- The value of each marker in any other view: text that hides the tag. -/
  hiddenPairs : List (Text × Text)

namespace Dialect

def handlebars : Dialect where
  tag := "hbs"
  encode := Braces.encode
  decode := Braces.decode
  sidecarPairs := [(Braces.openMarker, "\x7b\x7b"), (Braces.closeMarker, "\x7d\x7d")]
  hiddenPairs := [(Braces.openMarker, "<!--"), (Braces.closeMarker, "-->")]

def sidecarText (d : Dialect) : Text := Json.objectText d.sidecarPairs ++ "\n"

def all : List Dialect := [handlebars]

/-- White space around a tag and the case of its letters do not matter. -/
def find? (tag : Text) : Option Dialect :=
  all.find? fun d => Text.sameLetters d.tag (Text.trim tag)

def knownTags : List Text := all.map Dialect.tag

end Dialect

end PatternBridge
