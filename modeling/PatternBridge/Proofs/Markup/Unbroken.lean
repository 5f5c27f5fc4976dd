import PatternBridge.Proofs.Markup.Content
import PatternBridge.Proofs.Markup.TokenAt
import PatternBridge.Proofs.Text.InOrder

/-! Tags and comments come through the printer whole and in order. What has been printed of them
stands in the lines, and what has not in the current line, which is trimmed before it becomes a
line; tags neither start nor end with white space, so trimming does not reach them. -/

namespace PatternBridge.Markup
open Text

/-- Comments, element tags and template tags, but neither text nor the content of an unformatted
element. -/
def Token.isMark : Token → Bool
  | .text _ => false
  | .raw _ => false
  | _ => true

theorem ne_of_isMark {tok : Token} (h : tok.isMark) :
    (∀ s, tok ≠ .raw s) ∧ ∀ s, tok ≠ .text s :=
  ⟨fun _ heq => (by rw [heq] at h; cases h), fun _ heq => (by rw [heq] at h; cases h)⟩

def marks (toks : List Token) : List Text := (toks.filter Token.isMark).map Token.slice

@[simp] theorem marks_nil : marks [] = [] := rfl

@[simp] theorem marks_append (toks toks' : List Token) :
    marks (toks ++ toks') = marks toks ++ marks toks' := by
  simp [marks]

theorem inOrder_marks_flat (tok : Token) : InOrder (marks [tok]) tok.flat := by
  cases tok with
  | text s => exact .nil _
  | raw s => exact .nil _
  | comment s => exact .self s
  | opening name s => exact .self s
  | closing name s => exact .self s
  | void name s => exact .self s
  | tag kind s => exact .self s

/-- The slice of a tag has no white space at its ends. That of a comment may end with some. -/
def Token.Bare : Token → Prop
  | .opening _ s => BareEnds isAsciiBlank s
  | .closing _ s => BareEnds isAsciiBlank s
  | .void _ s => BareEnds isAsciiBlank s
  | .tag _ s => BareEnds isAsciiBlank s
  | _ => True

section
variable {o : Options}

/-- What printing takes from the head of the tokens, and the tokens after it. -/
def Takes (toks : List Token) (s : Text) (after : List Token) : Prop :=
  ∃ taken, toks = taken ++ after ∧ InOrder (marks taken) s

theorem takes_verbatim (toks : List Token) : Takes toks (verbatim toks).1 (verbatim toks).2 := by
  fun_induction verbatim toks with
  | case1 s rest a after h ih =>
    obtain ⟨taken, hrest, hin⟩ := ih
    rw [h] at hrest hin
    exact ⟨.raw s :: taken, by rw [hrest]; rfl, hin.behind s⟩
  | case2 n s rest => exact ⟨[.closing n s], rfl, .self s⟩
  | case3 toks => exact ⟨[], rfl, .nil _⟩

theorem exists_append_rawBody (toks : List Token) :
    ∃ body, toks = body ++ (rawBody toks).2 ∧ marks body = [] := by
  fun_cases rawBody toks with
  | case1 s rest => exact ⟨[.raw s], rfl, rfl⟩
  | case2 toks => exact ⟨[], rfl, rfl⟩

theorem takes_closingTag (name : Text) (toks : List Token) :
    Takes toks (closingTag name toks).1 (closingTag name toks).2 := by
  fun_cases closingTag name toks with
  | case1 n s rest h => exact ⟨[.closing n s], rfl, .self s⟩
  | case2 n s rest h => exact ⟨[], rfl, .nil _⟩
  | case3 toks => exact ⟨[], rfl, .nil _⟩

theorem takes_inlineBody? {name a : Text} {toks after : List Token}
    (h : inlineBody? o name toks = some (a, after)) : Takes toks a after := by
  induction toks generalizing a with
  | nil => simp [inlineBody?] at h
  | cons tok rest ih =>
    obtain ⟨rfl, rfl⟩ | ⟨-, b, hb, rfl⟩ := inlineBody?_cons_eq_some h
    · exact ⟨[.closing name a], rfl, .self a⟩
    · obtain ⟨taken, rfl, hin⟩ := ih hb
      have happend := (inOrder_marks_flat tok).append hin
      rw [← marks_append] at happend
      exact ⟨tok :: taken, rfl, happend⟩

namespace Page

/-- The pieces stand in the lines of the page and in its current line. -/
def Holds (o : Options) (ps : List Text) (p : Page) : Prop :=
  ∃ shown pending, ps = shown ++ pending ∧ InOrder shown (o.eol.intercalate p.lines.toList) ∧
    InOrder pending p.line ∧ ∀ x ∈ pending, BareEnds isAsciiBlank x

theorem Holds.shown {ps : List Text} {p : Page} (h : p.Holds o ps) (hline : p.line = []) :
    InOrder ps (o.eol.intercalate p.lines.toList) := by
  obtain ⟨shown, pending, rfl, hshown, hpending, hbare⟩ := h
  rw [hline] at hpending
  rwa [hpending.eq_nil hbare, List.append_nil]

theorem holds_of_shown {ps : List Text} {p : Page} (h : InOrder ps (o.eol.intercalate p.lines.toList)) :
    p.Holds o ps :=
  ⟨ps, [], (List.append_nil ps).symm, h, .nil _, by simp⟩

variable {ps qs : List Text} {s : Text} {p : Page}

theorem shown_emitAt (depth : Nat) (h : InOrder ps (o.eol.intercalate p.lines.toList))
    (hs : InOrder qs s) :
    InOrder (ps ++ qs) (o.eol.intercalate (p.emitAt o depth s).lines.toList) := by
  have hcontent : InOrder qs (indented o depth s) := hs.behind _
  obtain ⟨blanks, hlines⟩ : ∃ blanks, (p.emitAt o depth s).lines.toList =
      p.lines.toList ++ (blanks ++ [indented o depth s]) := by
    unfold emitAt
    split
    · exact ⟨[], by simp⟩
    · exact ⟨List.replicate p.blank [], by simp⟩
  rw [hlines]
  have hblanks : InOrder [] (o.eol.intercalate blanks) := .nil _
  have hline : InOrder qs (o.eol.intercalate [indented o depth s]) := by
    rwa [List.intercalate_singleton]
  exact h.intercalate_append o.eol (hblanks.intercalate_append o.eol hline)

theorem holds_emitAt (depth : Nat) (h : p.Holds o ps) (hline : p.line = []) (hs : InOrder qs s) :
    (p.emitAt o depth s).Holds o (ps ++ qs) :=
  holds_of_shown (shown_emitAt depth (h.shown hline) hs)

theorem holds_emit (h : p.Holds o ps) (hline : p.line = []) (hs : InOrder qs s) :
    (p.emit o s).Holds o (ps ++ qs) := holds_emitAt p.depth h hline hs

theorem holds_flush (h : p.Holds o ps) : (p.flush o).Holds o ps := by
  obtain ⟨shown, pending, rfl, hshown, hpending, hbare⟩ := h
  have htrim := hpending.trimWith hbare
  unfold flush
  dsimp only
  split
  · next hempty =>
    rw [List.isEmpty_iff.1 hempty] at htrim
    rw [htrim.eq_nil hbare, List.append_nil]
    exact holds_of_shown hshown
  · exact holds_of_shown (shown_emitAt p.depth hshown htrim)

theorem holds_block (h : p.Holds o ps) (s : Text) : (p.block o s).Holds o (ps ++ [s]) :=
  holds_emit (holds_flush h) p.line_flush (.self s)

theorem holds_inline (h : p.Holds o ps) (hs : InOrder qs s)
    (hbare : ∀ x ∈ qs, BareEnds isAsciiBlank x) : (p.inline s).Holds o (ps ++ qs) := by
  obtain ⟨shown, pending, rfl, hshown, hpending, hpendingBare⟩ := h
  refine ⟨shown, pending ++ qs, List.append_assoc .., hshown, hpending.append hs, fun x hx => ?_⟩
  exact (List.mem_append.1 hx).elim (hpendingBare x) (hbare x)

theorem holds_inline_self (h : p.Holds o ps) (hs : BareEnds isAsciiBlank s) :
    (p.inline s).Holds o (ps ++ [s]) := by
  refine holds_inline h (.self s) fun x hx => ?_
  rw [List.mem_singleton.1 hx]
  exact hs

theorem holds_inline_nil (h : p.Holds o ps) (s : Text) : (p.inline s).Holds o ps := by
  have hinline := holds_inline h (.nil s) (by simp)
  rwa [List.append_nil] at hinline

theorem holds_text (h : p.Holds o ps) (s : Text) : (p.text o s).Holds o ps := by
  unfold text
  split
  · split
    · exact holds_flush h
    · split
      · exact h
      · exact holds_inline_nil h _
  · exact holds_inline_nil h _

theorem holds_bodyLines (h : p.Holds o ps) (hline : p.line = []) (lines : List Text) :
    (p.bodyLines o lines).Holds o ps ∧ (p.bodyLines o lines).line = [] := by
  unfold bodyLines
  induction lines generalizing p with
  | nil => exact ⟨h, hline⟩
  | cons line lines ih =>
    rw [List.foldl_cons]
    split
    · refine ih (holds_of_shown ?_) hline
      have hempty : InOrder [] (o.eol.intercalate [[]]) := .nil _
      have hblank := (h.shown hline).intercalate_append o.eol hempty
      simpa using hblank
    · refine ih ?_ hline
      have hemit := holds_emitAt (p.depth + 1) h hline (.nil line)
      rwa [List.append_nil] at hemit

theorem holds_contentElement (h : p.Holds o ps) (hline : p.line = []) (slice body : Text)
    {close : Text} (hclose : InOrder qs close) :
    (p.contentElement o slice body close).Holds o (ps ++ ([slice] ++ qs)) := by
  unfold contentElement
  split
  · exact holds_emit h hline ((InOrder.self slice).append hclose)
  · have hopen := holds_emit h hline (.self slice)
    obtain ⟨hbody, hbodyLine⟩ := holds_bodyLines hopen hline (dedent body)
    rw [← List.append_assoc]
    dsimp only
    split
    · next hempty =>
      rw [List.isEmpty_iff.1 hempty] at hclose
      have happend := (hbody.shown hbodyLine).append hclose
      rw [List.append_nil] at happend
      exact holds_of_shown happend
    · exact holds_emit hbody hbodyLine hclose

end Page

theorem holds_templateTag {ps : List Text} {p : Page} (h : p.Holds o ps) (kind : TagKind)
    {s : Text} (hs : BareEnds isAsciiBlank s) : (templateTag o kind s p).Holds o (ps ++ [s]) := by
  have hinline := Page.holds_inline_self h hs
  unfold templateTag
  split
  · cases kind with
    | opening => exact Page.holds_block h s
    | closing => exact Page.holds_block (p := (p.flush o).shallower) (Page.holds_flush h) s
    | divider => exact Page.holds_emitAt _ (Page.holds_flush h) p.line_flush (.self s)
    | inline => exact hinline
  · exact hinline

theorem holds_closeElement {ps : List Text} {p : Page} (h : p.Holds o ps) (name : Text)
    {s : Text} (hs : BareEnds isAsciiBlank s) : (closeElement o name s p).Holds o (ps ++ [s]) := by
  unfold closeElement
  split
  · exact Page.holds_inline_self h hs
  · dsimp only
    split
    · exact Page.holds_block (p := (p.flush o).shallower) (Page.holds_flush h) s
    · exact Page.holds_block (Page.holds_flush h) s

theorem holds_openElement {ps : List Text} {p : Page} (h : p.Holds o ps) (name : Text) {s : Text}
    (hs : BareEnds isAsciiBlank s) (rest : List Token) :
    ∃ taken, rest = taken ++ (openElement o name s rest p).2 ∧
      (openElement o name s rest p).1.Holds o (ps ++ ([s] ++ marks taken)) := by
  have hflush := Page.holds_flush h
  unfold openElement
  split
  · exact ⟨[], rfl, Page.holds_inline_self h hs⟩
  split
  · obtain ⟨taken, hrest, hin⟩ := takes_verbatim rest
    exact ⟨taken, hrest, Page.holds_emit hflush p.line_flush ((InOrder.self s).append hin)⟩
  split
  · obtain ⟨body, hrest, hbody⟩ := exists_append_rawBody rest
    obtain ⟨close, hafter, hclose⟩ := takes_closingTag name (rawBody rest).2
    refine ⟨body ++ close, ?_, ?_⟩
    · rw [List.append_assoc]
      exact hrest.trans (congrArg (body ++ ·) hafter)
    · rw [marks_append, hbody]
      exact Page.holds_contentElement hflush p.line_flush s (rawBody rest).1 hclose
  split
  · next hbody =>
    obtain ⟨taken, hrest, hin⟩ := takes_inlineBody? hbody
    exact ⟨taken, hrest, Page.holds_emit hflush p.line_flush ((InOrder.self s).append hin)⟩
  · refine ⟨[], rfl, ?_⟩
    dsimp only
    split
    · exact Page.holds_block h s
    · exact Page.holds_block h s

theorem holds_printToken {ps : List Text} {p : Page} (h : p.Holds o ps) {tok : Token}
    (htok : tok.Bare) (rest : List Token) :
    ∃ taken, tok :: rest = taken ++ (printToken o tok rest p).2 ∧
      (printToken o tok rest p).1.Holds o (ps ++ marks taken) := by
  cases tok with
  | text s =>
    refine ⟨[.text s], rfl, ?_⟩
    have htext := Page.holds_text h s
    rwa [← List.append_nil ps] at htext
  | comment s => exact ⟨[.comment s], rfl, Page.holds_block h s⟩
  | opening name s =>
    obtain ⟨taken, hrest, hopen⟩ := holds_openElement h name htok rest
    exact ⟨.opening name s :: taken, congrArg (Token.opening name s :: ·) hrest, hopen⟩
  | closing name s => exact ⟨[.closing name s], rfl, holds_closeElement h name htok⟩
  | void name s =>
    refine ⟨[.void name s], rfl, ?_⟩
    unfold printToken
    dsimp only
    split
    · exact Page.holds_inline_self h htok
    · exact Page.holds_block h s
  | raw s =>
    refine ⟨[.raw s], rfl, ?_⟩
    have hraw := Page.holds_inline_nil h s
    rwa [← List.append_nil ps] at hraw
  | tag kind s => exact ⟨[.tag kind s], rfl, holds_templateTag h kind htok⟩

theorem holds_printTokens {ps : List Text} {p : Page} (h : p.Holds o ps) {toks : List Token}
    (htoks : ∀ tok ∈ toks, tok.Bare) :
    (printTokens o p toks).Holds o (ps ++ marks toks) ∧ (printTokens o p toks).line = [] := by
  revert ps
  fun_induction printTokens o p toks with
  | case1 p =>
    intro ps h
    have hflush := Page.holds_flush h
    rw [← List.append_nil ps] at hflush
    exact ⟨hflush, p.line_flush⟩
  | case2 p tok rest next ih =>
    intro ps h
    obtain ⟨taken, htaken, hnext⟩ := holds_printToken h (htoks tok List.mem_cons_self) rest
    have hafter : ∀ t ∈ next.2, t.Bare := by
      intro t ht
      exact htoks t (by rw [htaken]; exact List.mem_append_right _ ht)
    have hrun := ih hafter hnext
    rwa [List.append_assoc, ← marks_append, ← htaken] at hrun

end

theorem last_of_tagRest? {quote : Option Char} {s a b : Text}
    (h : tagRest? quote s = some (a, b)) : ∃ t, a = t ++ ['>'] := by
  fun_induction tagRest? quote s generalizing a with
  | case1 => simp at h
  | case2 _ _ _ ih | case3 _ _ _ ih | case5 _ _ _ _ _ _ _ _ ih | case6 _ _ _ _ _ _ ih
  | case7 _ _ _ _ _ ih =>
    simp only [putBefore, Option.map_eq_some_iff, Prod.mk.injEq] at h
    obtain ⟨⟨x, y⟩, hx, rfl, rfl⟩ := h
    obtain ⟨t, rfl⟩ := ih hx
    exact ⟨_, (List.append_assoc _ t ['>']).symm⟩
  | case4 c _ _ hc =>
    simp only [Option.some.injEq, Prod.mk.injEq] at h
    exact ⟨[], by rw [← h.1, beq_iff_eq.1 hc]; rfl⟩

theorem bareEnds_of_append {slice rest : Text} {c : Char} (hc : isAsciiBlank c = false)
    (hfirst : (slice ++ rest).head? = some c)
    (hlast : ∃ t d, slice = t ++ [d] ∧ isAsciiBlank d = false) : BareEnds isAsciiBlank slice := by
  refine ⟨?_, hlast⟩
  obtain ⟨t, d, rfl, -⟩ := hlast
  cases t with
  | nil =>
    obtain rfl : d = c := by simpa using hfirst
    exact ⟨d, [], rfl, hc⟩
  | cons e t =>
    obtain rfl : e = c := by simpa using hfirst
    exact ⟨e, t ++ [d], rfl, hc⟩

theorem bare_elementToken {closes : Bool} {name s : Text} (hs : BareEnds isAsciiBlank s) :
    (elementToken closes name s).Bare := by
  unfold elementToken
  split
  · exact hs
  split
  · exact hs
  · exact hs

theorem bare_of_readToken? {s rest : Text} {tok : Token} (h : readToken? s = some (tok, rest)) :
    tok.Bare := by
  have hs := (eq_append_of_readToken? h).1
  cases tokenAt_of_readToken? h with
  | comment => trivial
  | unended => trivial
  | tag hbraces hend =>
    obtain ⟨t, rfl⟩ := hbraces
    obtain ⟨front, hfront⟩ := (braces_suffix_tagEnding _).trans (suffix_of_through? hend)
    refine bareEnds_of_append (by decide) (congrArg List.head? hs).symm ⟨front ++ ['}'], '}', ?_, by decide⟩
    rw [← hfront, List.append_assoc]
    rfl
  | element _ hend =>
    obtain ⟨t, rfl⟩ := last_of_tagRest? hend
    have hfirst : ('<' :: (t ++ ['>']) ++ rest).head? = some '<' := rfl
    exact bare_elementToken (bareEnds_of_append (by decide) hfirst ⟨'<' :: t, '>', rfl, by decide⟩)

theorem bare_of_mem_tokens {o : Options} {s : Text} {tok : Token} (h : tok ∈ tokens o s) :
    tok.Bare :=
  of_mem_tokens (fun _ _ => trivial) (fun _ _ => trivial) bare_of_readToken? h

theorem marks_inOrder (o : Options) (s : Text) : InOrder (marks (tokens o s)) (beautify o s) := by
  have hstart : ({} : Page).Holds o [] := Page.holds_of_shown (.nil _)
  have htoks : ∀ tok ∈ tokens o s, tok.Bare := fun _ => bare_of_mem_tokens
  obtain ⟨hholds, hline⟩ := holds_printTokens hstart htoks
  have hshown : InOrder (marks (tokens o s)) (o.eol.intercalate (printed o (tokens o s)).lines.toList) :=
    hholds.shown hline
  unfold beautify assemble
  split
  · next hempty =>
    rw [List.isEmpty_iff.1 hempty] at hshown
    exact hshown
  · exact hshown.before _

end PatternBridge.Markup
