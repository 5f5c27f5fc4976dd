import PatternBridge.Descriptor
import PatternBridge.Files.Path

/-!
Routes: from a descriptor to the generated markup it names and the file that is compiled from it.
-/

namespace PatternBridge

structure Route where
  descriptor : Path
  patternId : Text
  markup : Path
  destination : Path
  deriving DecidableEq

namespace Route

def markupSuffix : Text := ".markup-only.html"

/-- The characters that the generator flattens in pattern ids. -/
def isIdSeparator (c : Char) : Bool := c == '/' || c == '\\' || c == '~'

/-- The descriptor's path below the patterns root, without its suffix and in one piece. -/
def idOf (descriptor patterns : Path) : Text :=
  let rel := ((descriptor.below? patterns).getD descriptor).text
  (Descriptor.stem (rel.dropWhile Descriptor.isSeparator)).map fun c =>
    if isIdSeparator c then '-' else c

def markupOf (published : Path) (id : Text) : Path := published / ⟨id⟩ / ⟨id ++ markupSuffix⟩

def destinationOf (backend : Path) (dir : Text) (descriptor : Path) (ext : Text) : Path :=
  backend / ⟨dir⟩ / ⟨Descriptor.stem (descriptor.fileName?.getD []) ++ ext⟩

end Route

end PatternBridge
