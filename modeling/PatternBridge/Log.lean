import PatternBridge.Text.Bytes

/-!
Log lines: a source in brackets and a message, cut so that the line fits a terminal.
-/

namespace PatternBridge

structure LogLine where
  source : Text
  message : Text
  deriving DecidableEq

namespace LogLine

def width : Nat := 120

/-- The columns left for the message after the bracketed source and a space. -/
def room (l : LogLine) : Nat := width - (Text.byteLength l.source + 3)

def bracketed (l : LogLine) : Text := "[" ++ l.source ++ "]"

/-- The line without colours: the message is cut at the last whole character that fits. -/
def shown (l : LogLine) : Text := l.bracketed ++ " " ++ Text.truncate l.room l.message

def colour (source : Text) : Text :=
  if source == "encode".toList then "94"
  else if source == "compile".toList then "92"
  else if source == "warn".toList then "95"
  else if source == "error".toList then "91"
  else "93"

/-- What is printed: the rest of the terminal line is cleared first, and with colours on the
bracketed source is bold and bright. -/
def printed (colours : Bool) (l : LogLine) : Text :=
  let mark : Text :=
    if colours then "\x1b[1;" ++ colour (Text.lower l.source) ++ "m" ++ l.bracketed ++ "\x1b[0m"
    else l.bracketed
  "\x1b[K" ++ mark ++ " " ++ Text.truncate l.room l.message ++ "\n"

end LogLine

end PatternBridge
