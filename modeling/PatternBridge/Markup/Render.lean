import PatternBridge.Markup.Beautify
import PatternBridge.Markup.Marker

/-!
Generated markup as a backend template: formatted, with the white space in block openers kept.
-/

namespace PatternBridge.Markup

def render (o : Options) (s : Text) : Text := restore (beautify o (protect s))

end PatternBridge.Markup
