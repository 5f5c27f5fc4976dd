import PatternBridge.Files.Extension
import PatternBridge.Text.Search

/-!
Descriptors: files beside patterns that say where the pattern's markup goes.
-/

namespace PatternBridge

structure Descriptor where
  /-- The destination directory below the backend root, as written. -/
  dir : Option Text := none
  ext : Option Text := none
  deriving DecidableEq

namespace Descriptor

def suffixes : List Text := [".yml", ".yaml"]

def stem (name : Text) : Text := (suffixes.findSome? fun s => Text.dropSuffix? s name).getD name

def isSeparator (c : Char) : Bool := c == '/' || c == '\\'

/-- The directory without surrounding white space and leading separators, and the extension with its
dot. A descriptor in which either is missing or blank routes nothing. -/
def routing? (d : Descriptor) : Option (Text × Text) := do
  let dir := (Text.trim (← d.dir)).dropWhile isSeparator
  if dir.isEmpty then none
  let ext ← Extension.normalize? (← d.ext)
  return (dir, ext)

end Descriptor

end PatternBridge
