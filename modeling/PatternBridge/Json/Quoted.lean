import PatternBridge.Json.Value
import PatternBridge.Text.Search

/-!
Writing JSON strings and objects of strings.
-/

namespace PatternBridge.Json

def hexDigit (n : Nat) : Char := if n < 10 then Char.ofNat (48 + n) else Char.ofNat (87 + n)

/-- A character inside a JSON string: quotes, backslashes and control characters are escaped. -/
def escaped (c : Char) : Text :=
  if c == '"' then "\\\""
  else if c == '\\' then "\\\\"
  else if c == '\n' then "\\n"
  else if c == '\r' then "\\r"
  else if c == '\t' then "\\t"
  else if c == '\u0008' then "\\b"
  else if c == '\u000c' then "\\f"
  else if c.toNat < 0x20 then "\\u00" ++ [hexDigit (c.toNat / 16), hexDigit (c.toNat % 16)]
  else [c]

def quoted (s : Text) : Text := '"' :: (s.flatMap escaped ++ ['"'])

def memberText (pair : Text × Text) : Text := quoted pair.1 ++ ": " ++ quoted pair.2

/-- An object of strings with each member on a line of its own. -/
def objectText (pairs : List (Text × Text)) : Text :=
  if pairs.isEmpty then ['{', '}']
  else
    let lines := pairs.map fun pair => "\n  " ++ memberText pair
    '{' :: ([','].intercalate lines ++ ['\n', '}'])

end PatternBridge.Json
