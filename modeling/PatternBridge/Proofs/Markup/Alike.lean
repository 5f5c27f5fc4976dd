import PatternBridge.Proofs.Markup.Content

/-! White space at the start of the current line is trimmed when the line ends, so that pages that
differ in it are printed to the same page. -/

namespace PatternBridge.Markup
open Text

variable {o : Options} {p q : Page}

namespace Page

/-- The pages agree up to white space at the start of the current line. -/
structure Alike (p q : Page) : Prop where
  lines : p.lines = q.lines
  depth : p.depth = q.depth
  blank : p.blank = q.blank
  line : p.line.dropWhile isAsciiBlank = q.line.dropWhile isAsciiBlank

theorem Alike.refl (p : Page) : Alike p p := ⟨rfl, rfl, rfl, rfl⟩

theorem Alike.flush (h : Alike p q) : p.flush o = q.flush o := by
  unfold Page.flush emit emitAt trimWith
  simp only [h.lines, h.depth, h.blank, h.line]

theorem Alike.inline (h : Alike p q) (s : Text) : Alike (p.inline s) (q.inline s) where
  lines := h.lines
  depth := h.depth
  blank := h.blank
  line := by
    show (p.line ++ s).dropWhile isAsciiBlank = (q.line ++ s).dropWhile isAsciiBlank
    rw [List.dropWhile_append, List.dropWhile_append, h.line]

theorem alike_inline_blank (hp : p.line = []) {s : Text} (hs : s.all isAsciiBlank) :
    Alike p (p.inline s) where
  lines := rfl
  depth := rfl
  blank := rfl
  line := by
    show p.line.dropWhile isAsciiBlank = (p.line ++ s).dropWhile isAsciiBlank
    rw [hp, List.nil_append, List.dropWhile_eq_nil_iff.2 (List.all_eq_true.1 hs)]
    rfl

theorem Alike.symm (h : Alike p q) : Alike q p := ⟨h.lines.symm, h.depth.symm, h.blank.symm, h.line.symm⟩

theorem Alike.trans {r : Page} (h : Alike p q) (h' : Alike q r) : Alike p r :=
  ⟨h.lines.trans h'.lines, h.depth.trans h'.depth, h.blank.trans h'.blank, h.line.trans h'.line⟩

theorem Alike.text (ho : o.preserveNewlines = false) (h : Alike p q) (s : Text) :
    Alike (p.text o s) (q.text o s) := by
  unfold Page.text
  rw [ho, Bool.false_and]
  split
  · rw [if_neg Bool.false_ne_true]
    cases hp : p.line.isEmpty <;> cases hq : q.line.isEmpty
    · exact h.inline " "
    · exact (h.inline " ").trans (alike_inline_blank (List.isEmpty_iff.1 hq) rfl).symm
    · exact (alike_inline_blank (List.isEmpty_iff.1 hp) rfl).trans (h.inline " ")
    · exact h
  · exact h.inline _

end Page

open Page

/-- The tokens that are printed on lines of their own. -/
def Token.breaksLine (o : Options) : Token → Bool
  | .raw _ => false
  | tok => !isInlineToken o tok

/-- Before a token on a line of its own, only the lines with the one that is ended matter. -/
theorem printToken_of_flush {tok : Token} (htok : tok.breaksLine o) (h : p.flush o = q.flush o)
    (rest : List Token) : printToken o tok rest p = printToken o tok rest q := by
  cases tok with
  | text s => cases htok
  | raw s => cases htok
  | comment s => simp only [printToken, Page.block, h]
  | void name s =>
    have hname : o.isInline name = false := by simpa [Token.breaksLine, isInlineToken] using htok
    simp only [printToken, hname, Page.block, h]
    rfl
  | closing name s =>
    have hname : o.isInline name = false := by simpa [Token.breaksLine, isInlineToken] using htok
    simp only [printToken, closeElement, hname, h]
    rfl
  | tag kind s =>
    have htag : (kind == .inline) = false ∧ o.indentHandlebars := by
      simpa [Token.breaksLine, isInlineToken] using htok
    cases kind with
    | inline => exact absurd htag.1 (by decide)
    | _ => simp only [printToken, templateTag, htag.2, Page.block, h, if_true]
  | opening name s =>
    have hname : o.isInline name = false := by simpa [Token.breaksLine, isInlineToken] using htok
    simp only [printToken, openElement, hname, Page.block, h]
    rfl

theorem printToken_of_flows {tok : Token} (htok : tok.breaksLine o = false)
    (htext : ∀ s, tok ≠ .text s) (rest : List Token) (p : Page) :
    printToken o tok rest p = (p.inline tok.slice, rest) := by
  cases tok with
  | text s => exact absurd rfl (htext s)
  | raw s => rfl
  | comment s => cases htok
  | void name s =>
    have hname : o.isInline name := by simpa [Token.breaksLine, isInlineToken] using htok
    simp [printToken, hname, Token.slice]
  | closing name s =>
    have hname : o.isInline name := by simpa [Token.breaksLine, isInlineToken] using htok
    simp [printToken, closeElement, hname, Token.slice]
  | opening name s =>
    have hname : o.isInline name := by simpa [Token.breaksLine, isInlineToken] using htok
    simp [printToken, openElement, hname, Token.slice]
  | tag kind s =>
    have htag : kind = .inline ∨ o.indentHandlebars = false := by
      simpa [Token.breaksLine, isInlineToken, Decidable.or_iff_not_imp_left] using htok
    rcases htag with rfl | hflat
    · simp [printToken, templateTag, Token.slice]
    · simp [printToken, templateTag, hflat, Token.slice]

/-- Printing a token leaves the same tokens, and pages alike. -/
theorem alike_printToken (ho : o.preserveNewlines = false) (h : Alike p q) (tok : Token)
    (rest : List Token) : (printToken o tok rest p).2 = (printToken o tok rest q).2 ∧
      Alike (printToken o tok rest p).1 (printToken o tok rest q).1 := by
  cases hbreaks : tok.breaksLine o with
  | true =>
    rw [printToken_of_flush hbreaks h.flush]
    exact ⟨rfl, .refl _⟩
  | false =>
    by_cases htext : ∃ s, tok = .text s
    · obtain ⟨s, rfl⟩ := htext
      exact ⟨rfl, h.text ho s⟩
    · have hno : ∀ s, tok ≠ .text s := fun s hs => htext ⟨s, hs⟩
      rw [printToken_of_flows hbreaks hno, printToken_of_flows hbreaks hno]
      exact ⟨rfl, h.inline _⟩

theorem printTokens_cons (o : Options) (p : Page) (tok : Token) (rest : List Token) :
    printTokens o p (tok :: rest) =
      printTokens o (printToken o tok rest p).1 (printToken o tok rest p).2 := by
  rw [printTokens]

theorem printTokens_alike (ho : o.preserveNewlines = false) (h : Alike p q) (toks : List Token) :
    printTokens o p toks = printTokens o q toks := by
  induction hn : toks.length using Nat.strong_induction_on generalizing p q toks with
  | h n ih =>
    cases toks with
    | nil => rw [printTokens, printTokens, h.flush]
    | cons tok rest =>
      obtain ⟨hrest, hpage⟩ := alike_printToken ho h tok rest
      have hlength := length_printToken_le o tok rest q
      rw [printTokens_cons, printTokens_cons, hrest]
      refine ih _ ?_ hpage _ rfl
      simp only [List.length_cons] at hn
      omega

end PatternBridge.Markup
