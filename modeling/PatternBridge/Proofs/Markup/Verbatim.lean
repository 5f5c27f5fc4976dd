import PatternBridge.Proofs.Markup.Cells
import PatternBridge.Proofs.Markup.Letters
import PatternBridge.Proofs.Markup.Unbroken

/-! An unformatted element that is closed comes through the printer in one stretch. Its content ends
at the first `</` with its name, and the printer takes the closing tag behind it along. -/

namespace PatternBridge.Markup
open Text

variable {o : Options} {name close : Text}

/-- Whether a whole closing tag of the element stands at the start of the text. -/
def closesHere (name s : Text) : Bool :=
  match readToken? s with
  | some (.closing n _, _) => n == name
  | _ => false

theorem tokens_of_closing {s after : Text} (h : readToken? s = some (.closing name close, after)) :
    tokens o s = .closing name close :: tokens o after :=
  tokens_of_readToken? h

theorem exists_of_addText_eq_append {c : Char} {toks front back : List Token} {tok : Token}
    (h : addText c toks = front ++ tok :: back) (htok : ∀ s, tok ≠ .text s) :
    ∃ front', toks = front' ++ tok :: back := by
  cases front with
  | nil =>
    unfold addText at h
    split at h
    · exact absurd (List.cons.inj h).1.symm (htok _)
    · exact absurd (List.cons.inj h).1.symm (htok _)
  | cons t front =>
    unfold addText at h
    split at h
    · exact ⟨_ :: front, congrArg (_ :: ·) (List.cons.inj h).2⟩
    · exact ⟨front, (List.cons.inj h).2⟩

theorem readToken?_of_tokens_eq_append {s : Text} {front back : List Token} {tok : Token}
    (htok : tok.isMark) (h : tokens o s = front ++ tok :: back) :
    readToken? (tok.slice ++ slices back) = some (tok, slices back) ∧
      tokens o (tok.slice ++ slices back) = tok :: back := by
  have hhere {s rest : Text} {first : Token} (hread : readToken? s = some (first, rest))
      (h : tokens o s = tok :: back) :
      readToken? (tok.slice ++ slices back) = some (tok, slices back) ∧
        tokens o (tok.slice ++ slices back) = tok :: back := by
    have hs : tok.slice ++ slices back = s := by rw [← slices_cons, ← h, slices_tokens]
    rw [tokens_of_readToken? hread] at h
    obtain ⟨rfl, rfl⟩ := List.cons.inj h
    have hrest := List.append_cancel_left (hs.trans (eq_append_of_readToken? hread).1)
    rw [hs, tokens_of_readToken? hread]
    exact ⟨by rw [hread, hrest], rfl⟩
  revert front
  fun_induction tokens o s with
  | case1 =>
    intro front h
    simp at h
  | case2 c s hread ih =>
    intro front h
    have htext (t : Text) : tok ≠ .text t := by
      rintro rfl
      cases htok
    obtain ⟨front', hfront⟩ := exists_of_addText_eq_append h htext
    exact ih hfront
  | case3 c s first rest hread n hname split =>
    rename_i ih
    intro front h
    rcases front with _ | ⟨t, front⟩
    · exact hhere hread (by rw [tokens_of_readToken? hread, hname]; exact h)
    · obtain ⟨-, hrest⟩ := List.cons.inj h
      unfold rawToken at hrest
      split at hrest
      · exact ih hrest
      · rcases front with _ | ⟨t, front⟩
        · obtain ⟨rfl, -⟩ := List.cons.inj hrest
          cases htok
        · exact ih (List.cons.inj hrest).2
  | case4 c s first rest hread hname ih =>
    intro front h
    rcases front with _ | ⟨t, front⟩
    · exact hhere hread (by rw [tokens_of_readToken? hread, hname]; exact h)
    · exact ih (List.cons.inj h).2

theorem eq_of_tokens_eq_append {s : Text} {front back : List Token} {tok : Token}
    (hraw : tok.opensRaw o = some name) (h : tokens o s = front ++ tok :: back) :
    back = rawToken (splitAtLetters ("</" ++ name) (slices back)).1 ++
      tokens o (splitAtLetters ("</" ++ name) (slices back)).2 := by
  have htok : tok.isMark := by
    cases tok with
    | opening n slice => rfl
    | _ => cases hraw
  obtain ⟨hread, htokens⟩ := readToken?_of_tokens_eq_append htok h
  rw [tokens_of_readToken? hread, hraw] at htokens
  exact (List.cons.inj htokens).2.symm

/-- An element whose content is no markup, with its closing tag. -/
structure RawElement where
  name : Text
  opening : Text
  body : Text
  closing : Text

namespace RawElement

def toks (e : RawElement) : List Token :=
  .opening e.name e.opening :: (rawToken e.body ++ [.closing e.name e.closing])

def text (e : RawElement) : Text := e.opening ++ (e.body ++ e.closing)

variable (e : RawElement) (front after : List Token)

theorem exists_verbatim_append :
    ∃ front', (verbatim (front ++ (e.toks ++ after))).2 = front' ++ (e.toks ++ after) := by
  induction front with
  | nil => exact ⟨[], rfl⟩
  | cons tok front ih =>
    cases tok with
    | raw s => exact ih
    | closing n s => exact ⟨front, rfl⟩
    | _ => exact ⟨_ :: front, rfl⟩

theorem exists_rawBody_append :
    ∃ front', (rawBody (front ++ (e.toks ++ after))).2 = front' ++ (e.toks ++ after) := by
  rcases front with _ | ⟨tok, front⟩
  · exact ⟨[], rfl⟩
  · cases tok with
    | raw s => exact ⟨front, rfl⟩
    | _ => exact ⟨_ :: front, rfl⟩

theorem exists_closingTag_append (n : Text) :
    ∃ front', (closingTag n (front ++ (e.toks ++ after))).2 = front' ++ (e.toks ++ after) := by
  rcases front with _ | ⟨tok, front⟩
  · exact ⟨[], rfl⟩
  · cases tok with
    | closing m s =>
      rw [List.cons_append, closingTag]
      split
      · exact ⟨front, rfl⟩
      · exact ⟨_ :: front, rfl⟩
    | _ => exact ⟨_ :: front, rfl⟩

variable {e front after}

theorem inlineBody?_append {n a : Text} {rest : List Token} (hn : o.isInline n = false)
    (h : inlineBody? o n (front ++ (e.toks ++ after)) = some (a, rest)) :
    (∃ front', rest = front' ++ (e.toks ++ after)) ∨ e.text <:+: a ∧ rest <:+ after := by
  induction front generalizing a with
  | nil =>
    obtain ⟨htok, -⟩ | ⟨hinline, b, hb, rfl⟩ := inlineBody?_cons_eq_some h
    · cases htok
    unfold rawToken at hb
    split at hb
    · next hbody =>
      obtain ⟨htok, -⟩ | ⟨-, b', hb', rfl⟩ := inlineBody?_cons_eq_some hb
      · obtain ⟨rfl, -⟩ := Token.closing.inj htok
        exact absurd (hinline.symm.trans hn) (by decide)
      · obtain ⟨taken, hafter, -⟩ := takes_inlineBody? hb'
        refine .inr ⟨⟨[], b', ?_⟩, taken, hafter.symm⟩
        rw [text, List.isEmpty_iff.1 hbody]
        exact List.append_assoc e.opening e.closing b'
    · obtain ⟨htok, -⟩ | ⟨hraw, -⟩ := inlineBody?_cons_eq_some hb
      · cases htok
      · cases hraw
  | cons tok front ih =>
    obtain ⟨-, rfl⟩ | ⟨-, b, hb, rfl⟩ := inlineBody?_cons_eq_some h
    · exact .inl ⟨front, rfl⟩
    · exact (ih hb).imp_right fun hin => ⟨hin.1.trans (List.suffix_append ..).isInfix, hin.2⟩

/-- Printing a token before the element leaves the element behind, or puts all of it on the page. -/
theorem printToken_append (tok : Token) (p : Page) :
    (∃ front', (printToken o tok (front ++ (e.toks ++ after)) p).2 =
      front' ++ (e.toks ++ after)) ∨
    (printToken o tok (front ++ (e.toks ++ after)) p).1.Holds o [e.text] ∧
      (printToken o tok (front ++ (e.toks ++ after)) p).2 <:+ after := by
  cases tok with
  | opening n s =>
    unfold printToken openElement
    dsimp only
    split
    · exact .inl ⟨front, rfl⟩
    · next hn =>
      split
      · exact .inl (exists_verbatim_append e front after)
      split
      · obtain ⟨front', hfront⟩ := exists_rawBody_append e front after
        rw [hfront]
        exact .inl (exists_closingTag_append e front' after n)
      split
      · next a rest hbody =>
        refine (inlineBody?_append (Bool.eq_false_iff.2 hn) hbody).imp_right fun hin => ?_
        obtain ⟨⟨before, behind, rfl⟩, hsuffix⟩ := hin
        have hempty : (p.flush o).Holds o [] := Page.holds_of_shown (.nil _)
        have hone : InOrder [e.text] (before ++ e.text ++ behind) :=
          ((InOrder.self _).behind _).before _
        exact ⟨Page.holds_emit hempty p.line_flush (hone.behind s), hsuffix⟩
      · exact .inl ⟨front, rfl⟩
  | _ => exact .inl ⟨front, rfl⟩

theorem exists_printTokens_toks (hname : o.isUnformatted e.name)
    (hbare : BareEnds isAsciiBlank e.text) (after : List Token) (p : Page) :
    ∃ q : Page, q.Holds o [e.text] ∧
      printTokens o p (e.toks ++ after) = printTokens o q after := by
  have hempty : p.Holds o [] := Page.holds_of_shown (.nil _)
  cases hinline : o.isInline e.name with
  | true =>
    refine ⟨p.inline e.text, Page.holds_inline_self hempty hbare, ?_⟩
    have hopen (rest : List Token) : printTokens o p (.opening e.name e.opening :: rest) =
        printTokens o (p.inline e.opening) rest := by
      rw [printTokens]
      simp only [printToken, openElement, hinline, if_true]
    have hclose (q : Page) : printTokens o q (.closing e.name e.closing :: after) =
        printTokens o (q.inline e.closing) after := by
      rw [printTokens]
      simp only [printToken, closeElement, hinline, if_true]
    have hraw (q : Page) (rest : List Token) : printTokens o q (rawToken e.body ++ rest) =
        printTokens o (q.inline e.body) rest := by
      unfold rawToken
      split
      · next hbody => simp [Page.inline, List.isEmpty_iff.1 hbody]
      · rw [List.singleton_append, printTokens]
        rfl
    rw [toks, List.cons_append, hopen, List.append_assoc, hraw, List.singleton_append, hclose]
    simp [Page.inline, text]
  | false =>
    refine ⟨(p.flush o).emit o e.text,
      Page.holds_emit (Page.holds_flush hempty) p.line_flush (.self _), ?_⟩
    have hverbatim : verbatim (rawToken e.body ++ .closing e.name e.closing :: after) =
        (e.body ++ e.closing, after) := by
      unfold rawToken
      split
      · next hbody => rw [List.isEmpty_iff.1 hbody]; rfl
      · rfl
    rw [toks, List.cons_append, List.append_assoc, List.singleton_append, printTokens]
    simp only [printToken, openElement, hinline, hname, hverbatim, if_true, Bool.false_eq_true,
      if_false, text]

theorem isInfix_printTokens (hname : o.isUnformatted e.name)
    (hbare : BareEnds isAsciiBlank e.text) (p : Page) (toks : List Token)
    (htoks : ∀ tok ∈ toks, tok.Bare) (h : toks = front ++ (e.toks ++ after)) :
    e.text <:+: o.eol.intercalate (printTokens o p toks).lines.toList := by
  have hbehind {rest : List Token} {q : Page} (hq : q.Holds o [e.text])
      (hrest : ∀ tok ∈ rest, tok.Bare) :
      e.text <:+: o.eol.intercalate (printTokens o q rest).lines.toList := by
    obtain ⟨hholds, hline⟩ := holds_printTokens hq hrest
    exact (hholds.shown hline).isInfix
  have hafter : ∀ tok ∈ after, tok.Bare := by
    intro tok htok
    exact htoks tok (by rw [h]; exact List.mem_append_right _ (List.mem_append_right _ htok))
  revert front
  fun_induction printTokens o p toks with
  | case1 p =>
    intro front h
    simp [RawElement.toks] at h
  | case2 p tok rest next ih =>
    intro front h
    rcases front with _ | ⟨t, front⟩
    · obtain ⟨q, hq, hprint⟩ := exists_printTokens_toks hname hbare after p
      rw [List.nil_append] at h
      rw [← h, printTokens] at hprint
      rw [hprint]
      exact hbehind hq hafter
    · obtain ⟨rfl, rfl⟩ := List.cons.inj h
      have hempty : p.Holds o [] := Page.holds_of_shown (.nil _)
      obtain ⟨taken, htaken, -⟩ := holds_printToken hempty (htoks tok List.mem_cons_self)
        (front ++ (e.toks ++ after))
      have hrest : ∀ tok ∈ next.2, tok.Bare := by
        intro tok' htok'
        refine htoks tok' ?_
        show tok' ∈ tok :: (front ++ (e.toks ++ after))
        rw [htaken]
        exact List.mem_append_right _ htok'
      obtain ⟨front', hnext⟩ | ⟨hholds, hsuffix⟩ := printToken_append tok p
      · exact ih hrest hnext
      · exact hbehind hholds fun tok htok => hafter tok (hsuffix.subset htok)

end RawElement

/-- An unformatted element that is closed where its name first stands behind `</` is kept as it is
from its opening tag to its closing tag. -/
theorem unformatted_kept {s after : Text} {front back : List Token} {e : RawElement}
    (htoks : tokens o s = front ++ .opening e.name e.opening :: back)
    (hname : o.isUnformatted e.name) (hback : slices back = e.body ++ (e.closing ++ after))
    (hclose : readToken? (e.closing ++ after) = some (.closing e.name e.closing, after))
    (hfirst : ∀ i < e.body.length,
      startsWithLetters ("</" ++ e.name) ((slices back).drop i) = false) :
    e.opening ++ (e.body ++ e.closing) <:+: beautify o s := by
  have hraw : (Token.opening e.name e.opening).opensRaw o = some e.name := by
    simp [Token.opensRaw, hname]
  have hsplit := eq_of_tokens_eq_append hraw htoks
  rw [hback, splitAtLetters_append (.inr (startsWithLetters_of_readToken? hclose)) (hback ▸ hfirst),
    tokens_of_closing hclose] at hsplit
  have helement : tokens o s = front ++ (e.toks ++ tokens o after) := by
    rw [htoks, hsplit]
    simp [RawElement.toks]
  have hbare : ∀ tok ∈ e.toks, tok.Bare := by
    intro tok htok
    apply bare_of_mem_tokens (o := o) (s := s)
    rw [helement]
    exact List.mem_append_right _ (List.mem_append_left _ htok)
  have hopening : BareEnds isAsciiBlank e.opening := hbare (.opening _ _) List.mem_cons_self
  have hclosing : BareEnds isAsciiBlank e.closing :=
    hbare (.closing e.name e.closing) (by simp [RawElement.toks])
  have hprinted := RawElement.isInfix_printTokens hname (hopening.append e.body hclosing) {}
    (tokens o s) (fun _ => bare_of_mem_tokens) helement
  unfold beautify assemble
  split
  · next hempty =>
    unfold printed at hempty
    rw [List.isEmpty_iff.1 hempty] at hprinted
    exact hprinted
  · exact hprinted.trans (List.prefix_append ..).isInfix

def mixed : RawElement where
  name := "pre"
  opening := "<Pre>"
  body := " \x7b\x7ba\x7d\x7d  <b>x</b>\n  "
  closing := "</PRE >"

theorem mixed_kept :
    tokens {} ("<p>".toList ++ (mixed.text ++ "tail".toList)) = [.opening "p" "<p>",
      .opening mixed.name mixed.opening, .raw mixed.body, .closing mixed.name mixed.closing,
      .text "tail"] ∧
    mixed.opening ++ (mixed.body ++ mixed.closing) <:+:
      beautify {} ("<p>".toList ++ (mixed.text ++ "tail".toList)) := by
  have htoks : tokens {} ("<p>".toList ++ (mixed.text ++ "tail".toList)) = [.opening "p" "<p>",
      .opening mixed.name mixed.opening, .raw mixed.body, .closing mixed.name mixed.closing,
      .text "tail"] := by decide +kernel
  have hclose : readToken? (mixed.closing ++ "tail".toList) =
      some (.closing mixed.name mixed.closing, "tail".toList) := by decide +kernel
  have hfront : tokens {} ("<p>".toList ++ (mixed.text ++ "tail".toList)) =
      [.opening "p" "<p>"] ++ .opening mixed.name mixed.opening :: [.raw mixed.body,
        .closing mixed.name mixed.closing, .text "tail"] := htoks
  exact ⟨htoks, unformatted_kept hfront (by decide) (by decide +kernel) hclose (by decide +kernel)⟩

/-- The closing tag of a longer name ends the content, and what follows is laid out anew. -/
theorem longer_name_ends_content :
    tokens {} "<pre>a  </prefix>  b</pre>" = [.opening "pre" "<pre>", .raw "a  ",
      .closing "prefix" "</prefix>", .text "  b", .closing "pre" "</pre>"] ∧
    ({} : Options).isUnformatted "pre" ∧
    readToken? "</pre>" = some (.closing "pre" "</pre>", []) ∧
    (∀ i < ("a  </prefix>  b" : Text).length,
      closesHere "pre" (("a  </prefix>  b</pre>" : Text).drop i) = false) ∧
    ¬ ("<pre>a  </prefix>  b</pre>" : Text) <:+: beautify {} "<pre>a  </prefix>  b</pre>" := by
  refine ⟨by decide +kernel, by decide, by decide +kernel, by decide +kernel, ?_⟩
  have hprinted : beautify {} "<pre>a  </prefix>  b</pre>" =
      "<pre>a  </prefix>\nb\n</pre>\n".toList := by decide +kernel
  rw [hprinted]
  decide +kernel

end PatternBridge.Markup
