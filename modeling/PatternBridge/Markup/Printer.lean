import PatternBridge.Markup.Dedent
import PatternBridge.Markup.Tokenize

/-!
Printing tokens as indented lines. Block elements and block tags stand on lines of their own, inline
elements, text and values flow on the current line, and no token's slice is changed except text.
-/

namespace PatternBridge.Markup

/-- The lines printed so far, the current line, the nesting depth, and the number of blank lines that
are due before the next line. -/
structure Page where
  lines : Array Text := #[]
  line : Text := []
  depth : Nat := 0
  blank : Nat := 0
  deriving DecidableEq

/-- Runs of ASCII white space become one space; `inSpace` tells that such a run was just passed. -/
def collapseFrom (inSpace : Bool) : Text → Text
  | [] => []
  | c :: s =>
    if Text.isAsciiBlank c then
      if inSpace then collapseFrom true s else ' ' :: collapseFrom true s
    else c :: collapseFrom false s

def collapse (s : Text) : Text := collapseFrom false s

def countNewlines (s : Text) : Nat := s.count '\n'

namespace Page

def indented (o : Options) (depth : Nat) (content : Text) : Text :=
  (List.replicate depth o.indentUnit).flatten ++ content

/-- Puts a line, after the blank lines that are due unless it is the first. -/
def emitAt (o : Options) (depth : Nat) (content : Text) (p : Page) : Page :=
  let spaced := if p.lines.isEmpty then p.lines else p.lines ++ Array.replicate p.blank []
  { p with lines := spaced.push (indented o depth content), blank := 0 }

def emit (o : Options) (content : Text) (p : Page) : Page := p.emitAt o p.depth content

/-- Ends the current line; a line of white space alone is dropped. -/
def flush (o : Options) (p : Page) : Page :=
  let content := Text.trimWith Text.isAsciiBlank p.line
  let p := { p with line := [] }
  if content.isEmpty then p else p.emit o content

def block (o : Options) (content : Text) (p : Page) : Page := (p.flush o).emit o content

def inline (content : Text) (p : Page) : Page := { p with line := p.line ++ content }

/-- Text flows on the current line. White space with two line breaks or more ends it where blank
lines are preserved. -/
def text (o : Options) (s : Text) (p : Page) : Page :=
  if s.all Text.isAsciiBlank then
    if o.preserveNewlines && 2 ≤ countNewlines s then
      { p.flush o with blank := min (countNewlines s) o.maxPreserveNewlines - 1 }
    else if p.line.isEmpty then p
    else p.inline " "
  else p.inline (collapse s)

def deeper (p : Page) : Page := { p with depth := p.depth + 1 }

def shallower (p : Page) : Page := { p with depth := p.depth - 1 }

end Page

def isInlineToken (o : Options) : Token → Bool
  | .text _ => true
  | .opening name _ => o.isInline name
  | .closing name _ => o.isInline name
  | .void name _ => o.isInline name
  | .tag kind _ => kind == .inline || !o.indentHandlebars
  | .comment _ => false
  | .raw _ => false

def keepsBlankLine (o : Options) : Token → Bool
  | .text s => 2 ≤ countNewlines s && o.preserveNewlines
  | _ => false

def Token.flat : Token → Text
  | .text s => collapse s
  | tok => tok.slice

/-- The content of an element up to and with its closing tag on one line, when all of it is inline,
and the tokens after it. -/
def inlineBody? (o : Options) (name : Text) : List Token → Option (Text × List Token)
  | [] => none
  | tok :: rest =>
    match tok with
    | .closing n s => if n == name then some (s, rest) else continued tok rest
    | _ => continued tok rest
where
  continued (tok : Token) (rest : List Token) : Option (Text × List Token) :=
    if keepsBlankLine o tok then none
    else if isInlineToken o tok then
      (inlineBody? o name rest).map fun (a, after) => (tok.flat ++ a, after)
    else none

theorem inlineBody?_cons_eq_some {o : Options} {name a : Text} {tok : Token}
    {rest after : List Token} (h : inlineBody? o name (tok :: rest) = some (a, after)) :
    (tok = .closing name a ∧ rest = after) ∨ (isInlineToken o tok ∧
      ∃ b, inlineBody? o name rest = some (b, after) ∧ a = tok.flat ++ b) := by
  have continued (h : inlineBody?.continued o name tok rest = some (a, after)) :
      isInlineToken o tok ∧ ∃ b, inlineBody? o name rest = some (b, after) ∧ a = tok.flat ++ b := by
    rw [inlineBody?.continued] at h
    split at h
    · cases h
    split at h
    · next hinline =>
      obtain ⟨⟨b, t⟩, hb, heq⟩ := Option.map_eq_some_iff.1 h
      obtain ⟨rfl, rfl⟩ := Prod.mk.inj heq
      exact ⟨hinline, b, hb, rfl⟩
    · cases h
  unfold inlineBody? at h
  split at h
  · next n s =>
    split at h
    · next hname =>
      obtain ⟨rfl, rfl⟩ := Prod.mk.inj (Option.some.inj h)
      exact .inl ⟨by rw [eq_of_beq hname], rfl⟩
    · exact .inr (continued h)
  · exact .inr (continued h)

def verbatim : List Token → Text × List Token
  | .raw s :: rest => let (a, after) := verbatim rest; (s ++ a, after)
  | .closing _ s :: rest => (s, rest)
  | toks => ([], toks)

def rawBody : List Token → Text × List Token
  | .raw s :: rest => (s, rest)
  | toks => ([], toks)

def closingTag (name : Text) : List Token → Text × List Token
  | .closing n s :: rest => if n == name then (s, rest) else ([], .closing n s :: rest)
  | toks => ([], toks)

/-- The lines of a body one level deeper, blank lines as they are. -/
def Page.bodyLines (o : Options) (lines : List Text) (p : Page) : Page :=
  lines.foldl (fun p line =>
    if line.isEmpty then { p with lines := p.lines.push [] } else p.emitAt o (p.depth + 1) line) p

def Page.contentElement (o : Options) (slice body close : Text) (p : Page) : Page :=
  if Text.isBlankText body then p.emit o (slice ++ close)
  else
    let p := (p.emit o slice).bodyLines o (dedent body)
    if close.isEmpty then p else p.emit o close

def indentsChildren (o : Options) (name : Text) : Bool :=
  o.indentInnerHtml || name != "html".toList

def openElement (o : Options) (name slice : Text) (rest : List Token) (p : Page) :
    Page × List Token :=
  if o.isInline name then (p.inline slice, rest)
  else if o.isUnformatted name then
    let (body, after) := verbatim rest
    ((p.flush o).emit o (slice ++ body), after)
  else if o.isContentUnformatted name then
    let (body, afterBody) := rawBody rest
    let (close, after) := closingTag name afterBody
    ((p.flush o).contentElement o slice body close, after)
  else
    match inlineBody? o name rest with
    | some (body, after) => ((p.flush o).emit o (slice ++ body), after)
    | none =>
      let p := p.block o slice
      (if indentsChildren o name then p.deeper else p, rest)

def closeElement (o : Options) (name slice : Text) (p : Page) : Page :=
  if o.isInline name then p.inline slice
  else
    let p := p.flush o
    (if indentsChildren o name then p.shallower else p).block o slice

def templateTag (o : Options) (kind : TagKind) (slice : Text) (p : Page) : Page :=
  if o.indentHandlebars then
    match kind with
    | .opening => (p.block o slice).deeper
    | .closing => (p.flush o).shallower.block o slice
    | .divider =>
      let p := p.flush o
      p.emitAt o (p.depth - 1) slice
    | .inline => p.inline slice
  else p.inline slice

/-- Prints the token `tok` with those of the following tokens that belong to it. -/
def printToken (o : Options) (tok : Token) (rest : List Token) (p : Page) : Page × List Token :=
  match tok with
  | .text s => (p.text o s, rest)
  | .comment s => (p.block o s, rest)
  | .raw s => (p.inline s, rest)
  | .tag kind s => (templateTag o kind s p, rest)
  | .void name s => (if o.isInline name then p.inline s else p.block o s, rest)
  | .closing name s => (closeElement o name s p, rest)
  | .opening name s => openElement o name s rest p

end PatternBridge.Markup
