import PatternBridge.Text.Search

/-!
Characters of YAML text: blanks, line breaks, words, and where a position is in lines and columns.
-/

namespace PatternBridge.Yaml

def isSpace (c : Char) : Bool := c == ' ' || c == '\t'

/-- A line break as it is kept in a value: most breaks become a line feed. -/
def breakChar? (c : Char) : Option Char :=
  if c == '\r' || c == '\n' || c == '\u0085' then some '\n'
  else if c == '\u2028' || c == '\u2029' then some c
  else none

def isBreak (c : Char) : Bool := (breakChar? c).isSome

def isGap (c : Char) : Bool := isSpace c || isBreak c

def atGap (s : Text) : Bool := s.head?.all isGap

def atLineEnd (s : Text) : Bool := s.head?.all isBreak

/-- The line break at the start of the text as it is kept, and the text after it. -/
def break? : Text → Option (Char × Text)
  | '\r' :: '\n' :: s => some ('\n', s)
  | c :: s => (breakChar? c).map fun b => (b, s)
  | [] => none

def isWordChar (c : Char) : Bool := c.isAlphanum || c == '_' || c == '-'

def isAllowed (c : Char) : Bool :=
  c == '\t' || c == '\n' || c == '\r' || (' ' ≤ c && c ≤ '~') || c == '\u0085' ||
  ('\u00a0' ≤ c && c ≤ '\ud7ff') || ('\ue000' ≤ c && c ≤ '\ufffd' && c != '\ufeff') ||
  0x10000 ≤ c.toNat

/-- The text after a mark that starts or ends a document, which must stand alone. -/
def documentMark? (mark s : Text) : Option Text := (mark.isPrefixOf? s).filter atGap

def startMark : Text := "---"

def endMark : Text := "..."

def atDocumentMark (s : Text) : Bool :=
  (documentMark? startMark s).isSome || (documentMark? endMark s).isSome

structure Position where
  index : Nat := 0
  line : Nat := 0
  column : Nat := 0
  deriving DecidableEq

namespace Position

def forward (p : Position) : Position := { p with index := p.index + 1, column := p.column + 1 }

def newline (p : Position) (n : Nat) : Position := ⟨p.index + n, p.line + 1, 0⟩

def after (p : Position) : Text → Position
  | '\r' :: '\n' :: s => (p.newline 2).after s
  | c :: s => if isBreak c then (p.newline 1).after s else p.forward.after s
  | [] => p

end Position

end PatternBridge.Yaml
