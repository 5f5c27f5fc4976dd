import PatternBridge.Text.Digits
import PatternBridge.Yaml.Characters

/-!
YAML scalars: plain, quoted and block text. Each reader gives the value and the rest of the text.
-/

namespace PatternBridge.Yaml

structure Gap where
  spaces : Text := []
  breaks : Text := []
  /-- The first line break is escaped, and not among `breaks`. -/
  escaped : Bool := false
  /-- The column after the gap, if there is a line break in it. -/
  column : Nat := 0

namespace Gap

def isBroken (g : Gap) : Bool := g.escaped || !g.breaks.isEmpty

/-- What the gap becomes in the value: of a single line break a space is left, of more line breaks
all but the first. -/
def text (g : Gap) : Text :=
  match g.breaks with
  | [] => if g.escaped then [] else g.spaces
  | b :: more =>
    if g.escaped || b != '\n' then b :: more else if more.isEmpty then [' '] else more

def addBreak (g : Gap) (b : Char) : Gap := { g with breaks := g.breaks ++ [b], column := 0 }

def addSpace (g : Gap) (c : Char) : Gap :=
  if g.isBroken then { g with column := g.column + 1 } else { g with spaces := g.spaces ++ [c] }

/-- Reads on to the next word. No tab may stand before column `indent` of a line. -/
def read? (indent : Nat) (g : Gap) : Text → Option (Gap × Text)
  | '\r' :: '\n' :: s => (g.addBreak '\n').read? indent s
  | c :: s =>
    if isSpace c then
      if c == '\t' && g.isBroken && g.column < indent then none
      else (g.addSpace c).read? indent s
    else
      match breakChar? c with
      | some b => (g.addBreak b).read? indent s
      | none => some (g, c :: s)
  | [] => some (g, [])

end Gap

def isFlowChar (c : Char) : Bool := c == ',' || c == '[' || c == ']' || c == '{' || c == '}'

/-- A word of a plain scalar. In a flow collection a colon must not touch its structure. -/
def plainWord? (inFlow : Bool) : Text → Option (Text × Text)
  | [] => some ([], [])
  | c :: s =>
    if isGap c then some ([], c :: s)
    else if inFlow && c == ':' && s.head?.any (fun d => isFlowChar d || d == '?') then none
    else if (c == ':' && atGap s) || (inFlow && isFlowChar c) then some ([], c :: s)
    else (plainWord? inFlow s).map fun (w, r) => (c :: w, r)

/-- The words of a plain scalar after what is read so far. The last part tells whether a line break
was read after the last word; `fuel` bounds the number of words. -/
def plainWords? (inFlow : Bool) (indent : Nat) :
    Nat → Text → Gap → Text → Option ((Text × Bool) × Text)
  | 0, _, _, _ => none
  | fuel + 1, value, g, s => do
    let atMark := g.isBroken && g.column == 0 && atDocumentMark s
    let outside := !inFlow && g.isBroken && g.column < indent
    if atMark || outside || s.head? == some '#' then return ((value, g.isBroken), s)
    let (w, s) ← plainWord? inFlow s
    if w.isEmpty then return ((value, g.isBroken), s)
    let value := value ++ g.text ++ w
    let (g, r) ← Gap.read? indent {} s
    if r.length == s.length then return ((value, false), s)
    plainWords? inFlow indent fuel value g r

/-- A plain scalar in a block of which the content stands at column `indent` or later. -/
def plain? (inFlow : Bool) (indent : Nat) (s : Text) : Option ((Text × Bool) × Text) :=
  plainWords? inFlow indent (s.length + 1) [] {} s

def numericEscape? (digits : Nat) (s : Text) : Option (Char × Text) :=
  let code := s.take digits
  if code.length == digits && code.all Text.isHexDigit then
    (Text.charOf? (Text.ofHex code)).map fun c => (c, s.drop digits)
  else none

def escape? : Text → Option (Char × Text)
  | '0' :: s => some ('\u0000', s)
  | 'a' :: s => some ('\u0007', s)
  | 'b' :: s => some ('\u0008', s)
  | 't' :: s | '\t' :: s => some ('\t', s)
  | 'n' :: s => some ('\n', s)
  | 'v' :: s => some ('\u000b', s)
  | 'f' :: s => some ('\u000c', s)
  | 'r' :: s => some ('\r', s)
  | 'e' :: s => some ('\u001b', s)
  | ' ' :: s => some (' ', s)
  | '"' :: s => some ('"', s)
  | '/' :: s => some ('/', s)
  | '\\' :: s => some ('\\', s)
  | 'N' :: s => some ('\u0085', s)
  | '_' :: s => some ('\u00a0', s)
  | 'L' :: s => some ('\u2028', s)
  | 'P' :: s => some ('\u2029', s)
  | 'x' :: s => numericEscape? 2 s
  | 'u' :: s => numericEscape? 4 s
  | 'U' :: s => numericEscape? 8 s
  | _ => none

inductive WordEnd where
  | gap
  | escapedBreak
  | quote
  deriving DecidableEq

/-- A word inside quotes; `fuel` bounds its length. -/
def quotedWord? (quote : Char) : Nat → Text → Option ((Text × WordEnd) × Text)
  | 0, _ => none
  | fuel + 1, s =>
    match s with
    | [] => some (([], .gap), [])
    | c :: t =>
      if isGap c then some (([], .gap), c :: t)
      else if c == quote then
        match quote, t with
        | '\'', '\'' :: t => do
          let ((w, e), r) ← quotedWord? quote fuel t
          return (('\'' :: w, e), r)
        | _, _ => some (([], .quote), t)
      else if quote == '"' && c == '\\' then
        match break? t with
        | some (_, t) => some (([], .escapedBreak), t)
        | none => do
          let (d, t) ← escape? t
          let ((w, e), r) ← quotedWord? quote fuel t
          return ((d :: w, e), r)
      else do
        let ((w, e), r) ← quotedWord? quote fuel t
        return ((c :: w, e), r)

/-- The words inside quotes after what is read so far; `fuel` bounds their number. -/
def quotedWords? (quote : Char) : Nat → Text → Gap → Text → Option (Text × Text)
  | 0, _, _, _ => none
  | fuel + 1, value, g, s => do
    if g.isBroken && g.column == 0 && atDocumentMark s then none
    if s.isEmpty then none
    let ((w, e), s) ← quotedWord? quote (s.length + 1) s
    let value := value ++ g.text ++ w
    if e == .quote then return (value, s)
    let (g, s) ← Gap.read? 0 { escaped := e == .escapedBreak } s
    quotedWords? quote fuel value g s

def quoted? (quote : Char) (s : Text) : Option (Text × Text) :=
  quotedWords? quote (s.length + 1) [] {} s

inductive Chomping where
  | strip
  | clip
  | keep
  deriving DecidableEq

def chomping? : Char → Option Chomping
  | '-' => some .strip
  | '+' => some .keep
  | _ => none

def indentDigit? (c : Char) : Option Nat := (Text.digit? c).filter (· != 0)

/-- The marks after the indicator of a block scalar, and the text after them. A zero is left. -/
def blockHeader (s : Text) : (Chomping × Option Nat) × Text :=
  match s with
  | [] => ((.clip, none), [])
  | c :: r =>
    match chomping? c with
    | some k =>
      match r.head?.bind indentDigit? with
      | some n => ((k, some n), r.tail)
      | none => ((k, none), r)
    | none =>
      match indentDigit? c with
      | some n =>
        match r.head?.bind chomping? with
        | some k => ((k, some n), r.tail)
        | none => ((.clip, some n), r)
      | none => ((.clip, none), s)

def afterLine? (s : Text) : Option Text :=
  let s := s.dropWhile isSpace
  let s := if s.head? == some '#' then s.dropWhile (!isBreak ·) else s
  if atLineEnd s then some ((break? s).elim [] Prod.snd) else none

/-- Blank lines before a line of a block scalar. -/
structure Margin where
  breaks : Text := []
  /-- The column of the line, as far as its indentation goes. -/
  column : Nat := 0
  widest : Nat := 0

namespace Margin

def widen (m : Margin) : Margin := { m with widest := max m.widest m.column }

def forward (m : Margin) : Margin := { m with column := m.column + 1 }

def addBreak (m : Margin) (b : Char) : Margin :=
  { m.widen with breaks := m.breaks ++ [b], column := 0 }

/-- Reads on to the next text. Spaces belong to the margin up to column `indent`, if it is known,
and a tab must not stand before it. -/
def read? (indent : Option Nat) (m : Margin) : Text → Option (Margin × Text)
  | '\r' :: '\n' :: s => (m.addBreak '\n').read? indent s
  | c :: s =>
    let inside := indent.all (m.column < ·)
    if inside && c == ' ' then m.forward.read? indent s
    else if inside && c == '\t' then none
    else
      match breakChar? c with
      | some b => (m.addBreak b).read? indent s
      | none => some (m.widen, c :: s)
  | [] => some (m.widen, [])

end Margin

structure BlockLines where
  text : Text := []
  lastBreak : Option Char := none
  /-- The last line starts with white space. -/
  isIndented : Bool := false

/-- Adds a line after a margin. A folded line break becomes a space, or nothing before blank lines;
a break beside an indented line is not folded. -/
def BlockLines.add (folded : Bool) (b : BlockLines) (breaks line : Text) (lastBreak : Option Char) :
    BlockLines :=
  let isIndented := line.head?.any isSpace
  let join :=
    if folded && b.lastBreak == some '\n' && !b.isIndented && !isIndented then
      if breaks.isEmpty then [' '] else []
    else b.lastBreak.toList
  { text := b.text ++ join ++ breaks ++ line, lastBreak, isIndented }

/-- The lines of a block scalar that stand at column `indent`; `fuel` bounds their number. -/
def blockLines? (folded : Bool) (indent : Nat) :
    Nat → BlockLines → Margin → Text → Option ((BlockLines × Text) × Text)
  | 0, _, _, _ => none
  | fuel + 1, b, m, s =>
    if m.column == indent && !s.isEmpty then do
      let line := s.takeWhile (!isBreak ·)
      let r := s.dropWhile (!isBreak ·)
      let b := b.add folded m.breaks line ((break? r).map Prod.fst)
      let (m, r) ← Margin.read? (some indent) {} ((break? r).elim [] Prod.snd)
      blockLines? folded indent fuel b m r
    else some ((b, m.breaks), s)

/-- A block scalar after its indicator, in a block of which the content stands at column `least` or
later. -/
def block? (folded : Bool) (least : Nat) (s : Text) : Option (Text × Text) := do
  let ((chomping, digit), s) := blockHeader s
  let s ← afterLine? s
  let (m, s) ← Margin.read? (digit.map (least - 1 + ·)) {} s
  let indent := (digit.map (least - 1 + ·)).getD (max m.widest (max least 1))
  let ((b, breaks), s) ← blockLines? folded indent (s.length + 1) {} m s
  let tail :=
    match chomping with
    | .strip => []
    | .clip => b.lastBreak.toList
    | .keep => b.lastBreak.toList ++ breaks
  return (b.text ++ tail, s)

end PatternBridge.Yaml
