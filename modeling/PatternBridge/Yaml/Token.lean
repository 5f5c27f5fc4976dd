import PatternBridge.Yaml.Tag

/-!
YAML tokens. The indentation of lines becomes tokens that start and end block collections, and a
colon makes a key of what stands before it.
-/

namespace PatternBridge.Yaml

inductive Token where
  | directive (d : Directive)
  | documentStart
  | documentEnd
  | blockSequenceStart
  | blockMappingStart
  | blockEnd
  | flowSequenceStart
  | flowSequenceEnd
  | flowMappingStart
  | flowMappingEnd
  | blockEntry
  | flowEntry
  | key
  | value
  | alias (name : Text)
  | anchor (name : Text)
  | tag (t : Shorthand)
  | scalar (isPlain : Bool) (text : Text)
  deriving DecidableEq

/-- A token that a colon after it would make a key. -/
structure Candidate where
  /-- Nothing else may stand here: the token starts a line of a block mapping. -/
  isRequired : Bool
  number : Nat
  position : Position
  deriving DecidableEq

def maxKeyLength : Nat := 1024

/-- Whether a colon at a position comes too late. -/
def Candidate.isStale (p : Position) (c : Candidate) : Bool :=
  c.position.line < p.line || c.position.index + maxKeyLength < p.index

structure Lexer where
  rest : Text
  position : Position := {}
  /-- The columns of the open block collections, the innermost first. -/
  columns : List Nat := []
  outer : Option Candidate := none
  inner : List (Option Candidate) := []
  keyAllowed : Bool := true
  tokens : List Token := []

namespace Lexer

def inFlow (l : Lexer) : Bool := !l.inner.isEmpty

def leastColumn (l : Lexer) : Nat := (l.columns.head?.map (· + 1)).getD 0

def candidate (l : Lexer) : Option Candidate := l.inner.head?.getD l.outer

def setCandidate (l : Lexer) (c : Option Candidate) : Lexer :=
  match l.inner with
  | [] => { l with outer := c }
  | _ :: inner => { l with inner := c :: inner }

def emit (l : Lexer) (t : Token) : Lexer := { l with tokens := t :: l.tokens }

def insert (l : Lexer) (n : Nat) (t : Token) : Lexer :=
  { l with tokens := l.tokens.insertIdx (l.tokens.length - n) t }

/-- Goes on to `rest`, which the present text ends in. -/
def moveTo (l : Lexer) (rest : Text) : Lexer :=
  { l with rest, position := l.position.after (l.rest.take (l.rest.length - rest.length)) }

def skip (l : Lexer) (n : Nat) : Lexer := l.moveTo (l.rest.drop n)

/-- Opens a block collection, if its column is new; its token goes behind the first `n`. -/
def roll (l : Lexer) (column n : Nat) (t : Token) : Lexer :=
  if l.inFlow || l.columns.head?.any (column ≤ ·) then l
  else { l.insert n t with columns := column :: l.columns }

def unrollColumns (column : Nat) : List Nat → List Token → List Nat × List Token
  | [], ts => ([], ts)
  | c :: cs, ts =>
    if column < c then unrollColumns column cs (.blockEnd :: ts) else (c :: cs, ts)

def unroll (l : Lexer) : Lexer :=
  if l.inFlow then l
  else
    let (columns, tokens) := unrollColumns l.position.column l.columns l.tokens
    { l with columns, tokens }

def unrollAll (l : Lexer) : Lexer :=
  if l.inFlow then l
  else { l with columns := [], tokens := l.columns.map (fun _ => Token.blockEnd) ++ l.tokens }

/-- Gives up the candidate, which must not be a required key. -/
def dropCandidate? (l : Lexer) : Option Lexer :=
  if l.candidate.any Candidate.isRequired then none else some (l.setCandidate none)

/-- Makes the next token a candidate, if a key may start here. -/
def saveCandidate? (l : Lexer) : Option Lexer :=
  if l.keyAllowed then
    let c : Candidate := {
      isRequired := !l.inFlow && l.columns.head? == some l.position.column
      number := l.tokens.length
      position := l.position }
    l.dropCandidate?.map (·.setCandidate (some c))
  else some l

def refresh? (p : Position) : Option Candidate → Option (Option Candidate)
  | none => some none
  | some c => if !c.isStale p then some (some c) else if c.isRequired then none else some none

def refreshAll? (l : Lexer) : Option Lexer := do
  let outer ← refresh? l.position l.outer
  let inner ← l.inner.mapM (refresh? l.position)
  return { l with outer, inner }

/-- Skips white space, comments and line breaks. Before a key in block context only spaces may stand
on a line, and each line break there allows a key. -/
def skipGap (inFlow : Bool) : (inComment keyAllowed : Bool) → Text → Bool × Text
  | _, keyAllowed, [] => (keyAllowed, [])
  | inComment, keyAllowed, c :: s =>
    if isBreak c then skipGap inFlow false (keyAllowed || !inFlow) s
    else if inComment then skipGap inFlow true keyAllowed s
    else if c == ' ' || (c == '\t' && (inFlow || !keyAllowed)) then
      skipGap inFlow false keyAllowed s
    else if c == '#' then skipGap inFlow true keyAllowed s
    else (keyAllowed, c :: s)

def advance? (l : Lexer) : Option Lexer := do
  let (keyAllowed, rest) := skipGap l.inFlow false l.keyAllowed l.rest
  let l ← { l.moveTo rest with keyAllowed }.refreshAll?
  return l.unroll

def topToken? (l : Lexer) (t : Token) (rest : Text) : Option Lexer := do
  let l ← l.unrollAll.dropCandidate?
  return { (l.moveTo rest).emit t with keyAllowed := false }

def flowStart? (l : Lexer) (t : Token) : Option Lexer := do
  let l ← l.saveCandidate?
  return { (l.skip 1).emit t with keyAllowed := true, inner := none :: l.inner }

def flowEnd? (l : Lexer) (t : Token) : Option Lexer := do
  let l ← l.dropCandidate?
  return { (l.skip 1).emit t with keyAllowed := false, inner := l.inner.tail }

def flowEntry? (l : Lexer) : Option Lexer := do
  let l ← l.dropCandidate?
  return { (l.skip 1).emit .flowEntry with keyAllowed := true }

/-- Opens a block collection for an indicator at this place, where a key must be allowed. -/
def openBlock? (l : Lexer) (t : Token) : Option Lexer :=
  if l.inFlow then some l
  else if l.keyAllowed then some (l.roll l.position.column l.tokens.length t)
  else none

def blockEntry? (l : Lexer) : Option Lexer := do
  let l ← (← l.openBlock? .blockSequenceStart).dropCandidate?
  return { (l.skip 1).emit .blockEntry with keyAllowed := true }

def key? (l : Lexer) : Option Lexer := do
  let l ← (← l.openBlock? .blockMappingStart).dropCandidate?
  return { (l.skip 1).emit .key with keyAllowed := !l.inFlow }

/-- A colon: the candidate, if there is one, becomes a key. -/
def value? (l : Lexer) : Option Lexer :=
  match l.candidate with
  | some c =>
    let l := (l.insert c.number .key).roll c.position.column c.number .blockMappingStart
    some { ((l.setCandidate none).skip 1).emit .value with keyAllowed := false }
  | none => do
    let l ← l.openBlock? .blockMappingStart
    return { (l.skip 1).emit .value with keyAllowed := !l.inFlow }

def content? (l : Lexer) (t : Token) (rest : Text) : Option Lexer := do
  let l ← l.saveCandidate?
  return { (l.moveTo rest).emit t with keyAllowed := false }

def name? (s : Text) : Option (Text × Text) :=
  let name := s.takeWhile isWordChar
  let rest := s.dropWhile isWordChar
  if name.isEmpty then none
  else if atGap rest || rest.head?.any "?:,]\x7d%@`".toList.contains then some (name, rest)
  else none

def blockScalar? (l : Lexer) (folded : Bool) (s : Text) : Option Lexer := do
  let l ← l.dropCandidate?
  let (text, rest) ← block? folded l.leastColumn s
  return { (l.moveTo rest).emit (.scalar false text) with keyAllowed := true }

def quotedScalar? (l : Lexer) (quote : Char) (s : Text) : Option Lexer := do
  let (text, rest) ← quoted? quote s
  l.content? (.scalar false text) rest

def plainScalar? (l : Lexer) : Option Lexer := do
  let ((text, isBroken), rest) ← plain? l.inFlow l.leastColumn l.rest
  let l ← l.content? (.scalar true text) rest
  return { l with keyAllowed := isBroken }

def indicators : Text := "-?:,[]\x7b\x7d#&*!|>'\"%@`"

/-- Whether a plain scalar may start with this text. -/
def startsPlain (inFlow : Bool) (c : Char) (s : Text) : Bool :=
  !(isGap c || indicators.contains c) || (c == '-' && !s.head?.any isSpace) ||
  (!inFlow && (c == '?' || c == ':') && !atGap s)

def indicator? (l : Lexer) (c : Char) (s : Text) : Option Lexer :=
  if c == '[' then l.flowStart? .flowSequenceStart
  else if c == '{' then l.flowStart? .flowMappingStart
  else if c == ']' then l.flowEnd? .flowSequenceEnd
  else if c == '}' then l.flowEnd? .flowMappingEnd
  else if c == ',' then l.flowEntry?
  else if c == '-' && atGap s then l.blockEntry?
  else if c == '?' && (l.inFlow || atGap s) then l.key?
  else if c == ':' && (l.inFlow || atGap s) then l.value?
  else if c == '*' then do
    let (name, rest) ← name? s
    l.content? (.alias name) rest
  else if c == '&' then do
    let (name, rest) ← name? s
    l.content? (.anchor name) rest
  else if c == '!' then do
    let (t, rest) ← tag? l.inFlow s
    l.content? (.tag t) rest
  else if c == '|' && !l.inFlow then l.blockScalar? false s
  else if c == '>' && !l.inFlow then l.blockScalar? true s
  else if c == '\'' || c == '"' then l.quotedScalar? c s
  else if startsPlain l.inFlow c s then l.plainScalar?
  else none

def token? (l : Lexer) (c : Char) (s : Text) : Option Lexer :=
  if l.position.column == 0 then
    if c == '%' then do
      let (d, rest) ← directive? s
      l.topToken? (.directive d) rest
    else
      match documentMark? startMark l.rest, documentMark? endMark l.rest with
      | some rest, _ => l.topToken? .documentStart rest
      | none, some rest => l.topToken? .documentEnd rest
      | none, none => l.indicator? c s
  else l.indicator? c s

/-- All tokens from this place on; `fuel` bounds their number. -/
def run? : Nat → Lexer → Option (List Token)
  | 0, _ => none
  | fuel + 1, l => do
    let l ← l.advance?
    match l.rest with
    | [] => return (← l.unrollAll.dropCandidate?).tokens.reverse
    | c :: s => run? fuel (← l.token? c s)

end Lexer

def tokens? (s : Text) : Option (List Token) :=
  if s.all isAllowed then Lexer.run? (s.length + 1) { rest := s } else none

end PatternBridge.Yaml
