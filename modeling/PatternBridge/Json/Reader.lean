import PatternBridge.Json.Numeral

/-!
Reading JSON text one character at a time. The reader holds the containers that are open, what may
come next, and the lexeme it is in the middle of; reading a text is a fold over its characters, so
reading two texts one after the other is reading their concatenation.
-/

namespace PatternBridge.Json

inductive Frame where
  | array (items : List Value)
  | object (members : Members) (key : Text)

inductive Await where
  | value
  | valueOrEnd
  | key
  | keyOrEnd
  | colon
  | commaOrEnd
  | finished (v : Value)

/-- What may follow in a number. -/
inductive NumeralPart where
  | sign
  /-- No digit may follow a zero that starts a number. -/
  | zero
  | whole
  | point
  | fraction
  | letter
  | exponentSign
  | exponent
  deriving DecidableEq

inductive Lexeme where
  | none
  /-- In a literal, with the characters still to come. -/
  | literal (rest : Text) (v : Value)
  | string (read : Text)
  | escape (read : Text)
  /-- In a four-digit escape: the digits still to come, their value so far, and the first half of a
  surrogate pair if one was read. -/
  | unicode (read : Text) (left value : Nat) (high : Option Nat)
  /-- After the first half of a surrogate pair; `true` when the backslash was read. -/
  | pair (read : Text) (high : Nat) (backslash : Bool)
  | numeral (part : NumeralPart) (x : Numeral)

structure Reader where
  frames : List Frame := []
  await : Await := .value
  lexeme : Lexeme := .none

/-- Containers may be nested this deep. -/
def maxDepth : Nat := 127

namespace Reader

def start : Reader := {}

def takesValue (r : Reader) : Bool :=
  match r.await with
  | .value | .valueOrEnd => true
  | _ => false

def place (v : Value) (r : Reader) : Reader :=
  match r.frames with
  | [] => { r with await := .finished v, lexeme := .none }
  | .array items :: fs =>
    { frames := .array (items ++ [v]) :: fs, await := .commaOrEnd, lexeme := .none }
  | .object ms key :: fs =>
    { frames := .object (ms.put key v) key :: fs, await := .commaOrEnd, lexeme := .none }

/-- A string is complete: a key where one may come, else a value. -/
def placeString (s : Text) (r : Reader) : Option Reader :=
  match r.await, r.frames with
  | .key, .object ms _ :: fs | .keyOrEnd, .object ms _ :: fs =>
    some { frames := .object ms s :: fs, await := .colon, lexeme := .none }
  | .value, _ | .valueOrEnd, _ => some (r.place (.string s))
  | _, _ => none

def push (f : Frame) (await : Await) (r : Reader) : Option Reader :=
  if r.takesValue && r.frames.length < maxDepth then
    some { frames := f :: r.frames, await := await, lexeme := .none }
  else none

def closeArray (r : Reader) : Option Reader :=
  match r.await, r.frames with
  | .valueOrEnd, .array items :: fs | .commaOrEnd, .array items :: fs =>
    some ({ r with frames := fs }.place (.array items))
  | _, _ => none

def closeObject (r : Reader) : Option Reader :=
  match r.await, r.frames with
  | .keyOrEnd, .object ms _ :: fs | .commaOrEnd, .object ms _ :: fs =>
    some ({ r with frames := fs }.place (.object ms))
  | _, _ => none

def comma (r : Reader) : Option Reader :=
  match r.await, r.frames with
  | .commaOrEnd, .array _ :: _ => some { r with await := .value }
  | .commaOrEnd, .object _ _ :: _ => some { r with await := .key }
  | _, _ => none

def colon (r : Reader) : Option Reader :=
  match r.await with
  | .colon => some { r with await := .value }
  | _ => none

def takesString (r : Reader) : Bool :=
  match r.await with
  | .value | .valueOrEnd | .key | .keyOrEnd => true
  | _ => false

def begin (l : Lexeme) (r : Reader) : Option Reader :=
  if r.takesValue then some { r with lexeme := l } else none

def feedNone (c : Char) (r : Reader) : Option Reader :=
  match c with
  | ' ' | '\t' | '\n' | '\r' => some r
  | '[' => r.push (.array []) .valueOrEnd
  | '{' => r.push (.object [] []) .keyOrEnd
  | ']' => r.closeArray
  | '}' => r.closeObject
  | ',' => r.comma
  | ':' => r.colon
  | '"' => if r.takesString then some { r with lexeme := .string [] } else none
  | 't' => r.begin (.literal "rue" (.bool true))
  | 'f' => r.begin (.literal "alse" (.bool false))
  | 'n' => r.begin (.literal "ull" .null)
  | '-' => r.begin (.numeral .sign { negative := true })
  | _ =>
    match Text.digit? c with
    | some 0 => r.begin (.numeral .zero { whole := [0] })
    | some d => r.begin (.numeral .whole { whole := [d] })
    | none => none

/-- The numeral with one more character, if that may follow. -/
def extendNumeral? (part : NumeralPart) (x : Numeral) (c : Char) : Option Lexeme :=
  let fractional := x.fraction.getD []
  let (negative, power) := x.exponent.getD (false, [])
  match Text.digit? c with
  | some d =>
    match part with
    | .sign => some (.numeral (if d == 0 then .zero else .whole) { x with whole := [d] })
    | .zero => none
    | .whole => some (.numeral .whole { x with whole := x.whole ++ [d] })
    | .point | .fraction =>
      some (.numeral .fraction { x with fraction := some (fractional ++ [d]) })
    | .letter | .exponentSign | .exponent =>
      some (.numeral .exponent { x with exponent := some (negative, power ++ [d]) })
  | none =>
    if c == '.' && (part == .zero || part == .whole) then
      some (.numeral .point { x with fraction := some [] })
    else if (c == 'e' || c == 'E') && (part == .zero || part == .whole || part == .fraction) then
      some (.numeral .letter { x with exponent := some (false, []) })
    else if (c == '+' || c == '-') && part == .letter then
      some (.numeral .exponentSign { x with exponent := some (c == '-', []) })
    else none

def NumeralPart.isComplete : NumeralPart → Bool
  | .zero | .whole | .fraction | .exponent => true
  | .sign | .point | .letter | .exponentSign => false

def placeNumeral (part : NumeralPart) (x : Numeral) (r : Reader) : Option Reader :=
  if NumeralPart.isComplete part then x.value?.map fun n => r.place (.number n) else none

/-- A character of a string, last character first in `read`. -/
def feedString (read : Text) (c : Char) (r : Reader) : Option Reader :=
  if c == '"' then r.placeString read.reverse
  else if c == '\\' then some { r with lexeme := .escape read }
  else if c.toNat < 0x20 then none
  else some { r with lexeme := .string (c :: read) }

def feedEscape (read : Text) (c : Char) (r : Reader) : Option Reader :=
  let char (d : Char) : Option Reader := some { r with lexeme := .string (d :: read) }
  match c with
  | '"' | '\\' | '/' => char c
  | 'b' => char '\u0008'
  | 'f' => char '\u000c'
  | 'n' => char '\n'
  | 'r' => char '\r'
  | 't' => char '\t'
  | 'u' => some { r with lexeme := .unicode read 4 0 none }
  | _ => none

/-- A four-digit escape is complete. The first half of a surrogate pair needs the second; a second
half alone is no character. -/
def placeUnicode (read : Text) (n : Nat) (high : Option Nat) (r : Reader) : Option Reader :=
  match high with
  | some h =>
    if 0xDC00 ≤ n && n ≤ 0xDFFF then
      let c := Char.ofNat ((h - 0xD800) * 0x400 + (n - 0xDC00) + 0x10000)
      some { r with lexeme := .string (c :: read) }
    else none
  | none =>
    if 0xDC00 ≤ n && n ≤ 0xDFFF then none
    else if 0xD800 ≤ n && n ≤ 0xDBFF then some { r with lexeme := .pair read n false }
    else some { r with lexeme := .string (Char.ofNat n :: read) }

def feed (r : Reader) (c : Char) : Option Reader :=
  match r.lexeme with
  | .none => r.feedNone c
  | .literal rest v =>
    match rest with
    | [] => none
    | d :: rest =>
      if c != d then none
      else if rest.isEmpty then some (r.place v)
      else some { r with lexeme := .literal rest v }
  | .string read => r.feedString read c
  | .escape read => r.feedEscape read c
  | .unicode read left value high =>
    (Text.hexDigit? c).bind fun d =>
      let value := value * 16 + d
      if left ≤ 1 then r.placeUnicode read value high
      else some { r with lexeme := .unicode read (left - 1) value high }
  | .pair read high backslash =>
    if backslash then
      if c == 'u' then some { r with lexeme := .unicode read 4 0 (some high) } else none
    else if c == '\\' then some { r with lexeme := .pair read high true }
    else none
  | .numeral part x =>
    match extendNumeral? part x c with
    | some l => some { r with lexeme := l }
    | none => (r.placeNumeral part x).bind (·.feedNone c)

def finish (r : Reader) : Option Value :=
  let r? :=
    match r.lexeme with
    | .none => some r
    | .numeral part x => r.placeNumeral part x
    | _ => none
  r?.bind fun r =>
    match r.await with
    | .finished v => some v
    | _ => none

end Reader

/-- The value that the text writes; nothing but white space may stand around it. -/
def parse? (s : Text) : Option Value := (s.foldlM Reader.feed Reader.start).bind Reader.finish

end PatternBridge.Json
