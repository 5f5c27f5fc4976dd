import PatternBridge.Text.Search

/-!
Options of the markup printer and the element lists they hold.
-/

namespace PatternBridge.Markup

structure Options where
  indentSize : Nat := 4
  indentChar : Text := " "
  indentWithTabs : Bool := false
  eol : Text := "\n"
  endWithNewline : Bool := true
  preserveNewlines : Bool := true
  /-- Line breaks kept of one run of white space; the blank lines are one fewer. -/
  maxPreserveNewlines : Nat := 10
  indentInnerHtml : Bool := false
  indentHandlebars : Bool := true
  inlineNames : List Text :=
    ["a", "abbr", "b", "bdi", "bdo", "br", "button", "cite", "code", "data", "dfn", "em", "i",
      "img", "input", "kbd", "label", "mark", "q", "s", "samp", "select", "small", "span",
      "strong", "sub", "sup", "time", "u", "var", "wbr"]
  /-- Elements printed as they are. -/
  unformatted : List Text := ["pre", "textarea"]
  /-- Elements whose content keeps its own layout and is indented as a whole. -/
  contentUnformatted : List Text := ["script", "style"]
  deriving DecidableEq

namespace Options

/-- The options of a project without an options file. -/
def bundled : Options := { indentSize := 2, maxPreserveNewlines := 1 }

def indentUnit (o : Options) : Text :=
  if o.indentWithTabs then "\t"
  else if o.indentChar.isEmpty then []
  else (List.replicate o.indentSize o.indentChar).flatten

def isInline (o : Options) (name : Text) : Bool := o.inlineNames.any (Text.sameLetters · name)

def isUnformatted (o : Options) (name : Text) : Bool := o.unformatted.any (Text.sameLetters · name)

def isContentUnformatted (o : Options) (name : Text) : Bool :=
  o.contentUnformatted.any (Text.sameLetters · name)

end Options

end PatternBridge.Markup
