import PatternBridge.Text.Digits
import PatternBridge.Text.Search

/-!
TOML scalars: strings in their four forms, numbers, truth values, dates and times. Each reader gives
what it read and the rest of the text.
-/

namespace PatternBridge.Toml

open Text

def isSpace (c : Char) : Bool := c == ' ' || c == '\t'

def skipSpace (s : Text) : Text := s.dropWhile isSpace

def newline? : Text → Option Text
  | '\n' :: s => some s
  | '\r' :: '\n' :: s => some s
  | _ => none

/-- Characters that stand for themselves wherever they may stand: no control character but tab. -/
def isPrintable (c : Char) : Bool := c == '\t' || (' ' ≤ c && c != '\u007f')

def numericEscape? (digits : Nat) (s : Text) : Option (Char × Text) :=
  let code := s.take digits
  if code.length == digits && code.all isHexDigit then
    (charOf? (ofHex code)).map fun c => (c, s.drop digits)
  else none

def escape? : Text → Option (Char × Text)
  | 'b' :: s => some ('\u0008', s)
  | 'f' :: s => some ('\u000c', s)
  | 'n' :: s => some ('\n', s)
  | 'r' :: s => some ('\r', s)
  | 't' :: s => some ('\t', s)
  | '"' :: s => some ('"', s)
  | '\\' :: s => some ('\\', s)
  | 'u' :: s => numericEscape? 4 s
  | 'U' :: s => numericEscape? 8 s
  | _ => none

def basicRest? : Nat → Text → Option (Text × Text)
  | 0, _ => none
  | fuel + 1, s =>
    match s with
    | '"' :: s => some ([], s)
    | '\\' :: s => do
      let (c, s) ← escape? s
      let (cs, s) ← basicRest? fuel s
      return (c :: cs, s)
    | c :: s =>
      if isPrintable c then do
        let (cs, s) ← basicRest? fuel s
        return (c :: cs, s)
      else none
    | [] => none

def literalRest? : Text → Option (Text × Text)
  | '\'' :: s => some ([], s)
  | c :: s => if isPrintable c then (literalRest? s).map fun (cs, r) => (c :: cs, r) else none
  | [] => none

def skipBlankLines : Text → Text
  | '\r' :: '\n' :: s => skipBlankLines s
  | '\n' :: s => skipBlankLines s
  | ' ' :: s => skipBlankLines s
  | '\t' :: s => skipBlankLines s
  | s => s

/-- A run of quotes in a string of several lines: up to two belong to the string, even before the
three that end it. The second part is the rest after the end, if the run ends the string. -/
def quoteRun (quote : Char) (s : Text) : Text × Text × Bool :=
  let run := s.takeWhile (· == quote)
  if run.length < 3 then (run, s.drop run.length, false)
  else
    let own := min (run.length - 3) 2
    (run.take own, s.drop (own + 3), true)

/-- The rest of a string of several lines. In a basic string a backslash before a line end drops the
white space up to the next text. -/
def multilineRest? (quote : Char) : Nat → Text → Option (Text × Text)
  | 0, _ => none
  | fuel + 1, s =>
    match newline? s with
    | some s => (multilineRest? quote fuel s).map fun (cs, r) => ('\n' :: cs, r)
    | none =>
      match s with
      | [] => none
      | c :: t =>
        if c == quote then
          let (own, after, ends) := quoteRun quote s
          if ends then some (own, after)
          else (multilineRest? quote fuel after).map fun (cs, r) => (own ++ cs, r)
        else if c == '\\' && quote == '"' then
          match newline? (skipSpace t) with
          | some t => multilineRest? quote fuel (skipBlankLines t)
          | none => do
            let (d, t) ← escape? t
            let (cs, r) ← multilineRest? quote fuel t
            return (d :: cs, r)
        else if isPrintable c then
          (multilineRest? quote fuel t).map fun (cs, r) => (c :: cs, r)
        else none

def lineString? : Text → Option (Text × Text)
  | '"' :: s => basicRest? (s.length + 1) s
  | '\'' :: s => literalRest? s
  | _ => none

def string? (s : Text) : Option (Text × Text) :=
  match s with
  | q :: a :: b :: t =>
    if (q == '"' || q == '\'') && a == q && b == q then
      let t := (newline? t).getD t
      multilineRest? q (t.length + 1) t
    else lineString? s
  | _ => lineString? s

def digitRun? (isDigit : Char → Bool) : Text → Option (Text × Text)
  | c :: '_' :: s =>
    if isDigit c then (digitRun? isDigit s).map fun (ds, r) => (c :: ds, r) else none
  | c :: s =>
    if isDigit c then
      match s with
      | d :: _ => if isDigit d then (digitRun? isDigit s).map fun (ds, r) => (c :: ds, r) else some ([c], s)
      | [] => some ([c], s)
    else none
  | [] => none

/-- Decimal digits of a whole number: a zero stands alone. -/
def wholeRun? : Text → Option (Text × Text)
  | '0' :: s => some (['0'], s)
  | s => digitRun? Char.isDigit s

def splitSign : Text → Bool × Text
  | '-' :: s => (true, s)
  | '+' :: s => (false, s)
  | s => (false, s)

def exponent? : Text → Option ((Bool × Text) × Text)
  | c :: s =>
    if c == 'e' || c == 'E' then
      let (negative, s) := splitSign s
      (digitRun? Char.isDigit s).map fun (ds, r) => ((negative, ds), r)
    else none
  | [] => none

def fraction? : Text → Option (Text × Text)
  | '.' :: s => digitRun? Char.isDigit s
  | _ => none

def overflows (m : Nat) (e : Int) : Bool :=
  let limit := Nat.pow 2 1024 - Nat.pow 2 970
  let digits : Int := (Nat.toDigits 10 m).length
  if m == 0 || digits + e < 300 then false
  else if 310 < digits + e then true
  else if 0 ≤ e then limit ≤ m * Nat.pow 10 e.toNat
  else limit * Nat.pow 10 (-e).toNat ≤ m

/-- A number with a fraction, an exponent or both. A positive one must not be too large. -/
def skipFloat? (s : Text) : Option Text := do
  let (negative, s) := splitSign s
  let (whole, s) ← wholeRun? s
  let (fraction, s) ←
    match s with
    | '.' :: _ => fraction? s
    | _ => some ([], s)
  let ((down, power), s) ←
    match s with
    | 'e' :: _ | 'E' :: _ => exponent? s
    | _ => if fraction.isEmpty then none else some ((false, []), s)
  let e : Int := ofDecimal power
  let e := (if down then -e else e) - fraction.length
  if !negative && overflows (ofDecimal (whole ++ fraction)) e then none else some s

def skipSpecialFloat? (s : Text) : Option Text :=
  let (_, s) := splitSign s
  match List.isPrefixOf? "inf".toList s with
  | some r => some r
  | none => List.isPrefixOf? "nan".toList s

def isOctal (c : Char) : Bool := '0' ≤ c && c ≤ '7'

def isBinary (c : Char) : Bool := c == '0' || c == '1'

/-- Digits in a base, writing a number below 2 ^ 63. -/
def skipBased? (base : Nat) (isDigit : Char → Bool) (s : Text) : Option Text := do
  let (ds, r) ← digitRun? isDigit s
  if ofDigits base (ds.filterMap hexDigit?) < Nat.pow 2 63 then some r else none

/-- A whole number in the range of 64 bits with sign. -/
def skipInteger? (s : Text) : Option Text :=
  match s with
  | '0' :: 'x' :: s => skipBased? 16 isHexDigit s
  | '0' :: 'o' :: s => skipBased? 8 isOctal s
  | '0' :: 'b' :: s => skipBased? 2 isBinary s
  | _ => do
    let (negative, s) := splitSign s
    let (ds, r) ← wholeRun? s
    if ofDecimal ds < Nat.pow 2 63 || (negative && ofDecimal ds == Nat.pow 2 63) then some r else none

def fixed? (n : Nat) (s : Text) : Option (Nat × Text) :=
  let ds := s.take n
  if ds.length == n && ds.all Char.isDigit then some (ofDecimal ds, s.drop n) else none

def isLeapYear (y : Nat) : Bool := y % 4 == 0 && (y % 100 != 0 || y % 400 == 0)

def daysInMonth (y m : Nat) : Nat :=
  if m == 2 then (if isLeapYear y then 29 else 28)
  else if m == 4 || m == 6 || m == 9 || m == 11 then 30
  else 31

def expect? (c : Char) : Text → Option Text
  | d :: s => if d == c then some s else none
  | [] => none

def skipDate? (s : Text) : Option Text := do
  let (y, s) ← fixed? 4 s
  let s ← expect? '-' s
  let (m, s) ← fixed? 2 s
  let s ← expect? '-' s
  let (d, s) ← fixed? 2 s
  if 1 ≤ m && m ≤ 12 && 1 ≤ d && d ≤ daysInMonth y m then some s else none

def skipSecondFraction? (s : Text) : Option Text :=
  match s with
  | '.' :: t =>
    let r := t.dropWhile Char.isDigit
    if r.length < t.length then some r else none
  | _ => some s

def skipTime? (s : Text) : Option Text := do
  let (h, s) ← fixed? 2 s
  let s ← expect? ':' s
  let (m, s) ← fixed? 2 s
  let s ← expect? ':' s
  let (sec, s) ← fixed? 2 s
  if h ≤ 23 && m ≤ 59 && sec ≤ 60 then skipSecondFraction? s else none

def skipOffset? (s : Text) : Option Text :=
  match s with
  | 'Z' :: r | 'z' :: r => some r
  | '+' :: r | '-' :: r => do
    let (h, r) ← fixed? 2 r
    let r ← expect? ':' r
    let (m, r) ← fixed? 2 r
    if h ≤ 23 && m ≤ 59 then some r else none
  | _ => some s

def skipMoment? (s : Text) : Option Text :=
  match skipDate? s with
  | some r =>
    match r with
    | 'T' :: t | 't' :: t => (skipTime? t).bind skipOffset?
    | ' ' :: t =>
      match skipTime? t with
      | some u => skipOffset? u
      | none => some r
    | _ => some r
  | none => skipTime? s

def skipScalar? (s : Text) : Option Text :=
  skipMoment? s <|> skipFloat? s <|> skipSpecialFloat? s <|> skipInteger? s <|>
    List.isPrefixOf? "true".toList s <|> List.isPrefixOf? "false".toList s

end PatternBridge.Toml
