import PatternBridge.Text.Search

/-!
Tokens of markup with template tags. Every token holds the slice of the text it was read from.
-/

namespace PatternBridge.Markup

inductive TagKind where
  | opening
  | closing
  /-- An `else` between the two bodies of a block. -/
  | divider
  | inline
  deriving DecidableEq

inductive Token where
  | text (slice : Text)
  /-- Comments, document types and processing instructions. -/
  | comment (slice : Text)
  | opening (name slice : Text)
  | closing (name slice : Text)
  | void (name slice : Text)
  /-- The verbatim content of an unformatted element. -/
  | raw (slice : Text)
  | tag (kind : TagKind) (slice : Text)
  deriving DecidableEq

def Token.slice : Token → Text
  | .text s => s
  | .comment s => s
  | .opening _ s => s
  | .closing _ s => s
  | .void _ s => s
  | .raw s => s
  | .tag _ s => s

def voidNames : List Text :=
  ["area", "base", "br", "col", "embed", "hr", "img", "input", "link", "meta", "source", "track",
    "wbr"]

/-- Holds of text that is `else`, alone or before white space. -/
def isElse (s : Text) : Bool :=
  match List.isPrefixOf? "else".toList s with
  | some [] => true
  | some (c :: _) => Text.isBlank c
  | none => false

/-- The kind of a template tag that is neither a triple tag nor a comment, by the text between its
braces and whitespace-control marks. -/
def TagKind.ofBody : Text → TagKind
  | '#' :: _ => .opening
  | '/' :: _ => .closing
  | '^' :: s => if Text.isBlankText s then .divider else .opening
  | s => if isElse (s.dropWhile Text.isBlank) then .divider else .inline

def dropFinalTilde (s : Text) : Text := if s.getLast? == some '~' then s.dropLast else s

def TagKind.ofSlice (slice : Text) : TagKind :=
  if "\x7b\x7b\x7b".toList.isPrefixOf slice || "\x7b\x7b!".toList.isPrefixOf slice then .inline
  else
    let inner := (slice.drop 2).take (slice.length - 4)
    .ofBody (dropFinalTilde (inner.dropWhile (· == '~')))

end PatternBridge.Markup
