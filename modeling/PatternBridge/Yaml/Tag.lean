import PatternBridge.Yaml.Scalar

/-!
YAML tags and directives. Tags are held as octets, one in each character.
-/

namespace PatternBridge.Yaml

/-- A tag as it is written: a handle that stands for the start of the tag, and the rest. -/
structure Shorthand where
  handle : Text
  suffix : Text
  deriving DecidableEq

def handle (s : Text) : Text × Text :=
  let word := '!' :: s.takeWhile isWordChar
  match s.dropWhile isWordChar with
  | '!' :: r => (word ++ ['!'], r)
  | r => (word, r)

def isClosed (handle : Text) : Bool := 2 ≤ handle.length && handle.getLast? == some '!'

def isUriChar (verbatim : Bool) (c : Char) : Bool :=
  isWordChar c || ";/?:@&=+$.!~*'()".toList.contains c ||
  (verbatim && (c == ',' || c == '[' || c == ']'))

def octetWidth? (n : Nat) : Option Nat :=
  if n < 0x80 then some 1
  else if n < 0xc0 then none
  else if n < 0xe0 then some 2
  else if n < 0xf0 then some 3
  else if n < 0xf8 then some 4
  else none

/-- The octets of an address, in which others may be written in hexadecimal; `pending` octets must
follow to complete a character. -/
def octets? (verbatim : Bool) (pending : Nat) : Text → Option (Text × Text)
  | '%' :: a :: b :: s => do
    let n := 16 * (← Text.hexDigit? a) + (← Text.hexDigit? b)
    let pending ←
      if pending == 0 then (octetWidth? n).map (· - 1)
      else if 0x80 ≤ n && n < 0xc0 then some (pending - 1) else none
    let (os, r) ← octets? verbatim pending s
    return (Char.ofNat n :: os, r)
  | c :: s =>
    if pending != 0 || c == '%' then none
    else if isUriChar verbatim c then do
      let (os, r) ← octets? verbatim 0 s
      return (c :: os, r)
    else some ([], c :: s)
  | [] => if pending == 0 then some ([], []) else none

/-- The address at the start of the text. A null octet ends it. -/
def uri? (verbatim : Bool) (s : Text) : Option (Text × Text) :=
  (octets? verbatim 0 s).map fun (os, r) => (os.takeWhile (· != '\u0000'), r)

def someUri? (verbatim : Bool) (s : Text) : Option (Text × Text) :=
  (uri? verbatim s).filter fun (_, r) => r.length < s.length

def shorthand? (s : Text) : Option (Shorthand × Text) :=
  match s with
  | '<' :: s => do
    let (suffix, s) ← someUri? true s
    match s with
    | '>' :: s => return (⟨[], suffix⟩, s)
    | _ => none
  | _ => do
    let (h, s) := handle s
    if isClosed h then
      let (suffix, s) ← someUri? false s
      return (⟨h, suffix⟩, s)
    else
      let (more, s) ← uri? false s
      match h.tail ++ more with
      | [] => return (⟨[], ['!']⟩, s)
      | suffix => return (⟨['!'], suffix⟩, s)

/-- A tag, which must stand alone; in a flow collection a comma may follow. -/
def tag? (inFlow : Bool) (s : Text) : Option (Shorthand × Text) :=
  (shorthand? s).filter fun (_, r) => atGap r || (inFlow && r.head? == some ',')

inductive Directive where
  | version (major minor : Nat)
  | tag (handle start : Text)
  deriving DecidableEq

def maxVersionDigits : Nat := 9

def versionNumber? (s : Text) : Option (Nat × Text) :=
  let ds := s.takeWhile Char.isDigit
  if ds.isEmpty || maxVersionDigits < ds.length then none
  else some (Text.ofDecimal ds, s.dropWhile Char.isDigit)

def version? (s : Text) : Option (Directive × Text) := do
  let (major, s) ← versionNumber? s
  match s with
  | '.' :: s => do
    let (minor, s) ← versionNumber? s
    return (.version major minor, s)
  | _ => none

def tagDirective? (s : Text) : Option (Directive × Text) :=
  match s with
  | '!' :: s => do
    let (h, s) := handle s
    if !(isClosed h || h == ['!']) then none
    if !s.head?.any isSpace then none
    let (start, s) ← someUri? true (s.dropWhile isSpace)
    if atGap s then return (.tag h start, s) else none
  | _ => none

def directive? (s : Text) : Option (Directive × Text) := do
  let name := s.takeWhile isWordChar
  let s := s.dropWhile isWordChar
  if !atGap s then none
  let s := s.dropWhile isSpace
  let (d, s) ←
    if name == "YAML".toList then version? s
    else if name == "TAG".toList then tagDirective? s
    else none
  return (d, ← afterLine? s)

end PatternBridge.Yaml
