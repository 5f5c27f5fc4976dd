import PatternBridge.Proofs.Markup.Draft

/-! Well-nested tokens, and rows laid out by their nesting. -/

namespace PatternBridge.Markup

/-- Elements whose tags stand on lines of their own around an indented content. -/
def Options.isBlockLevel (o : Options) (name : Text) : Bool :=
  !o.isInline name && !o.isUnformatted name && !o.isContentUnformatted name

/-- Elements that are not inline and whose content is not read as markup. -/
def Options.isVerbatim (o : Options) (name : Text) : Bool :=
  !o.isInline name && (o.isUnformatted name || o.isContentUnformatted name)

/-- Tokens that neither open nor close nor divide anything: text, comments, verbatim content, tags
without content, inline elements and inline template tags. -/
def Token.isLeaf (o : Options) : Token → Bool
  | .opening name _ => o.isInline name
  | .closing name _ => o.isInline name
  | .tag kind _ => kind == .inline
  | _ => true

/-- Tokens in which every block and every element is closed; dividers stand directly in a block,
which `inBlock` tells of the sequence as a whole. -/
inductive WellNested (o : Options) : (inBlock : Bool) → List Token → Prop
  | nil (b : Bool) : WellNested o b []
  | leaf {b : Bool} {tok : Token} {toks : List Token} (htok : tok.isLeaf o)
      (h : WellNested o b toks) : WellNested o b (tok :: toks)
  | divider (s : Text) {toks : List Token} (h : WellNested o true toks) :
      WellNested o true (.tag .divider s :: toks)
  | block {b : Bool} (s s' : Text) {body toks : List Token} (hbody : WellNested o true body)
      (h : WellNested o b toks) :
      WellNested o b (.tag .opening s :: (body ++ .tag .closing s' :: toks))
  | element {b : Bool} {name : Text} (s s' : Text) {body toks : List Token}
      (hname : o.isBlockLevel name) (hbody : WellNested o false body) (h : WellNested o b toks) :
      WellNested o b (.opening name s :: (body ++ .closing name s' :: toks))
  | verbatim {b : Bool} {name : Text} (s s' : Text) {body toks : List Token}
      (hname : o.isVerbatim name) (hbody : body = [] ∨ ∃ t, body = [.raw t])
      (h : WellNested o b toks) :
      WellNested o b (.opening name s :: (body ++ .closing name s' :: toks))

def childStep (o : Options) (name : Text) : Nat := if indentsChildren o name then 1 else 0

/-- The line of a closing tag; an empty one has none. -/
def closingRows (level : Nat) (s : Text) : List Row := if s.isEmpty then [] else [.line level s]

/-- The rows of well-nested tokens at a level. The opening and the closing line of what is not
printed on one line are at the level, and the rows between them are deeper, but for the dividers of
a block and for elements whose content is not indented. -/
inductive LaidOut (o : Options) : (inBlock : Bool) → (level : Nat) → List Token → List Row → Prop
  | nil (b : Bool) (level : Nat) : LaidOut o b level [] []
  | flow {b : Bool} {level : Nat} {r : Row} {toks : List Token} {rows : List Row} (hr : r.At level)
      (h : LaidOut o b level toks rows) : LaidOut o b level toks (r :: rows)
  | leaf {b : Bool} {level : Nat} {tok : Token} {toks : List Token} {rows : List Row}
      (htok : tok.isLeaf o) (h : LaidOut o b level toks rows) :
      LaidOut o b level (tok :: toks) rows
  | divider {level : Nat} (s : Text) {toks : List Token} {rows : List Row}
      (h : LaidOut o true (level + 1) toks rows) :
      LaidOut o true (level + 1) (.tag .divider s :: toks) (.line level s :: rows)
  | block {b : Bool} {level : Nat} (s s' : Text) {body toks : List Token} {inner rows : List Row}
      (hbody : LaidOut o true (level + 1) body inner)
      (hinner : ∀ r ∈ inner, r.AtLeast (level + 1) ∨
        ∃ t, .tag .divider t ∈ body ∧ r = .line level t)
      (h : LaidOut o b level toks rows) :
      LaidOut o b level (.tag .opening s :: (body ++ .tag .closing s' :: toks))
        (.line level s :: (inner ++ .line level s' :: rows))
  | element {b : Bool} {level : Nat} {name : Text} (s s' : Text) {body toks : List Token}
      {inner rows : List Row} (hbody : LaidOut o false (level + childStep o name) body inner)
      (hinner : ∀ r ∈ inner, r.AtLeast (level + childStep o name))
      (h : LaidOut o b level toks rows) :
      LaidOut o b level (.opening name s :: (body ++ .closing name s' :: toks))
        (.line level s :: (inner ++ .line level s' :: rows))
  | oneLine {b : Bool} {level : Nat} {name : Text} (s t s' : Text) {body toks : List Token}
      {rows : List Row} (hbody : ∀ tok ∈ body, tok.isLeaf o) (h : LaidOut o b level toks rows) :
      LaidOut o b level (.opening name s :: (body ++ .closing name s' :: toks))
        (.line level (s ++ (t ++ s')) :: rows)
  | content {b : Bool} {level : Nat} {name : Text} (s t s' : Text) {toks : List Token}
      {inner rows : List Row} (hinner : ∀ r ∈ inner, r.AtLeast (level + 1))
      (h : LaidOut o b level toks rows) :
      LaidOut o b level (.opening name s :: .raw t :: .closing name s' :: toks)
        (.line level s :: (inner ++ (closingRows level s' ++ rows)))

namespace LaidOut
variable {o : Options} {b : Bool} {level : Nat} {toks : List Token} {rows : List Row}

theorem flows {flow : List Row} (hflow : ∀ r ∈ flow, r.At level)
    (h : LaidOut o b level toks rows) : LaidOut o b level toks (flow ++ rows) := by
  induction flow with
  | nil => exact h
  | cons r flow ih =>
    have hrest : ∀ r' ∈ flow, r'.At level := fun r' hr' => hflow r' (List.mem_cons_of_mem _ hr')
    exact .flow (hflow r List.mem_cons_self) (ih hrest)

theorem concat_flows (h : LaidOut o b level toks rows) {flow : List Row}
    (hflow : ∀ r ∈ flow, r.At level) : LaidOut o b level toks (rows ++ flow) := by
  induction h with
  | nil b level => simpa using (LaidOut.nil (o := o) b level).flows hflow
  | flow hr _ ih => exact .flow hr (ih hflow)
  | leaf htok _ ih => exact .leaf htok (ih hflow)
  | divider s _ ih => exact .divider s (ih hflow)
  | block s s' hbody hinner _ _ ih => simpa using LaidOut.block s s' hbody hinner (ih hflow)
  | element s s' hbody hinner _ _ ih => simpa using LaidOut.element s s' hbody hinner (ih hflow)
  | oneLine s t s' hbody _ ih => exact .oneLine s t s' hbody (ih hflow)
  | content s t s' hinner _ ih => simpa using LaidOut.content s t s' hinner (ih hflow)

/-- No row of well-nested tokens is above their level but for the dividers of the block that they
stand in, which are one level up. -/
theorem atLeast_or_divider (h : LaidOut o b level toks rows) {r : Row} (hr : r ∈ rows) :
    r.AtLeast level ∨ (b ∧ ∃ t, .tag .divider t ∈ toks ∧ r = .line (level - 1) t) := by
  have atLevel (level : Nat) (s : Text) : (Row.line level s).AtLeast level := Nat.le_refl level
  induction h with
  | nil => cases hr
  | flow hAt _ ih =>
    obtain rfl | hr := List.mem_cons.1 hr
    · exact .inl hAt.atLeast
    · exact ih hr
  | leaf _ _ ih => grind
  | divider s _ ih =>
    obtain rfl | hr := List.mem_cons.1 hr
    · exact .inr ⟨rfl, s, List.mem_cons_self, rfl⟩
    · grind
  | @block _ level s s' _ _ inner _ _ hinner _ _ ih =>
    have hbetween (hr : r ∈ inner) : r.AtLeast level := by
      obtain hdeeper | ⟨t, -, rfl⟩ := hinner r hr
      · exact hdeeper.mono (Nat.le_succ level)
      · exact atLevel level t
    grind
  | @element _ level name s s' _ _ inner _ _ hinner _ _ ih =>
    have hbetween (hr : r ∈ inner) : r.AtLeast level :=
      (hinner r hr).mono (Nat.le_add_right level (childStep o name))
    grind
  | oneLine s t s' _ _ ih => grind
  | @content _ level _ s t s' _ inner _ hinner _ ih =>
    have hbetween (hr : r ∈ inner) : r.AtLeast level := (hinner r hr).mono (Nat.le_succ level)
    grind [closingRows]

end LaidOut

/-- Whether printing the token leaves a level, for good or for one line. -/
def leavesLevel (o : Options) : Token → Bool
  | .tag .closing _ => o.indentHandlebars
  | .tag .divider _ => o.indentHandlebars
  | .closing name _ => !o.isInline name && indentsChildren o name
  | _ => false

/-- Printing goes from one page and the tokens left to another, and no level is left at depth 0. -/
inductive Prints (o : Options) : Page → List Token → Page → List Token → Prop
  | done (p : Page) (toks : List Token) : Prints o p toks p toks
  | step {p p' q : Page} {tok : Token} {rest rest' toks : List Token}
      (hlevel : leavesLevel o tok → 0 < p.depth) (hprint : printToken o tok rest p = (p', rest'))
      (h : Prints o p' rest' q toks) : Prints o p (tok :: rest) q toks

namespace Prints
variable {o : Options} {p q r : Page} {toks toks' toks'' : List Token}

theorem trans (h : Prints o p toks q toks') (h' : Prints o q toks' r toks'') :
    Prints o p toks r toks'' := by
  induction h with
  | done => exact h'
  | step hlevel hprint _ ih => exact .step hlevel hprint (ih h')

theorem printTokens_eq (h : Prints o p toks q toks') :
    printTokens o p toks = printTokens o q toks' := by
  induction h with
  | done => rfl
  | step _ hprint _ ih => rw [printTokens, hprint, ih]

end Prints

end PatternBridge.Markup
