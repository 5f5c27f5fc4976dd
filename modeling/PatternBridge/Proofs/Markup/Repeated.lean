import PatternBridge.Proofs.Markup.Elements

/-! Formatting twice is formatting once. Token by token the source goes over into its formatted text,
and what is printed stays the same, so that at its end the formatted text is printed as the source was. -/

namespace PatternBridge.Markup
open Text

variable {o : Options} {s t u w v lead : Text} {p : Page} {tok : Token}

/-- Comments end where they are closed, and so does content that is kept as it is; block tags stand
apart from braces in front of them. -/
structure Formattable (o : Options) (toks : List Token) : Prop where
  comments : ∀ s, .comment s ∈ toks → "<!--".toList <+: s → "-->".toList <:+ s
  closed : ∀ front name s back, toks = front ++ .opening name s :: back → o.isUnformatted name →
    ∃ body n close after, back = rawToken body ++ .closing n close :: after
  apart : o.indentHandlebars → ∀ front kind s back, toks = front ++ .tag kind s :: back →
    kind ≠ .inline → ¬ "\x7b\x7b".toList <:+ slices front

theorem exists_of_cellsOf_eq_append (htok : tok.isMark) {toks front back : List Token}
    (h : cellsOf toks = front ++ tok :: back) : ∃ front' back', toks = front' ++ tok :: back' ∧
      slices front' = slices front ∧ back = cellsOf back' := by
  induction toks generalizing front with
  | nil => simp [cellsOf] at h
  | cons t toks ih =>
    by_cases htext : ∃ s, t = .text s
    · obtain ⟨s, rfl⟩ := htext
      rw [cellsOf_text] at h
      obtain ⟨front₂, rfl, hrest⟩ : ∃ front₂, front = textCells s ++ front₂ ∧
          cellsOf toks = front₂ ++ tok :: back := by
        obtain ⟨front₂, hfront, hrest⟩ | ⟨cells, hcells, hrest⟩ := List.append_eq_append_iff.1 h
        · exact ⟨front₂, hfront, hrest⟩
        · cases cells with
          | nil => exact ⟨[], by rw [List.append_nil, hcells, List.append_nil], hrest.symm⟩
          | cons first cells =>
            obtain ⟨rfl, -⟩ := List.cons.inj hrest
            have hmem : tok ∈ textCells s := by rw [hcells]; simp
            obtain ⟨t, rfl⟩ := exists_of_mem_textCells hmem
            cases htok
      obtain ⟨front', back', rfl, hslices, hback⟩ := ih hrest
      refine ⟨.text s :: front', back', rfl, ?_, hback⟩
      rw [slices_append, slices_textCells, ← hslices]
      rfl
    · rw [cellsOf_cons fun s hs => htext ⟨s, hs⟩] at h
      rcases front with _ | ⟨first, front⟩
      · obtain ⟨rfl, hback⟩ := List.cons.inj h
        exact ⟨[], toks, rfl, rfl, hback.symm⟩
      · obtain ⟨rfl, hrest⟩ := List.cons.inj h
        obtain ⟨front', back', rfl, hslices, hback⟩ := ih hrest
        refine ⟨t :: front', back', rfl, ?_, hback⟩
        exact congrArg (t.slice ++ ·) hslices

theorem Formattable.cells (h : Formattable o (tokens o s)) : Formattable o (cells o s) where
  comments := by
    intro slice hmem
    obtain ⟨front, back, heq⟩ := List.append_of_mem hmem
    obtain ⟨front', back', htoks, -⟩ := exists_of_cellsOf_eq_append rfl heq
    exact h.comments slice (by rw [htoks]; simp)
  closed := by
    intro front name slice back heq hname
    obtain ⟨front', back', htoks, -, rfl⟩ := exists_of_cellsOf_eq_append rfl heq
    obtain ⟨body, n, close, after, rfl⟩ := h.closed _ _ _ _ htoks hname
    refine ⟨body, n, close, cellsOf after, ?_⟩
    unfold rawToken
    split <;> rfl
  apart := by
    intro hblocks front kind slice back heq hkind
    obtain ⟨front', back', htoks, hslices, -⟩ := exists_of_cellsOf_eq_append rfl heq
    rw [← hslices]
    exact h.apart hblocks _ _ _ _ htoks hkind

/-- Less than `v` is left of the source when the next of it is printed. -/
def Goes (o : Options) (s v : Text) : Prop :=
  ∃ t' w' v' p' lead', v'.length < v.length ∧ Seam o s t' w' v' p' lead'

theorem Front.goes (ho : o.Plain) (h : Front o s t u p) (hlt : u.length < v.length) : Goes o s v := by
  obtain ⟨w, v', lead, rfl, hseam⟩ := h.exists_seam ho
  rw [List.length_append] at hlt
  exact ⟨t, w, v', p, lead, by omega, hseam⟩

theorem length_lt_of_slice {slice rest : Text} (h : slice ≠ []) :
    rest.length < (slice ++ rest).length := by
  have hpos := List.length_pos_iff.2 h
  rw [List.length_append]
  omega

theorem closing_of_cells {K : List Token} {n close : Text} (h : cells o v = .closing n close :: K) :
    ∃ r, v = close ++ r ∧ readToken? (close ++ r) = some (.closing n close, r) := by
  obtain ⟨r, hread, -⟩ := readToken?_of_cells rfl h
  obtain ⟨rfl, -⟩ := eq_append_of_readToken? hread
  exact ⟨r, rfl, hread⟩

theorem closingTag_cases (name : Text) (K : List Token) :
    (∃ close after, K = .closing name close :: after) ∨ closingTag name K = ([], K) := by
  fun_cases closingTag name K with
  | case1 n close after hn => exact .inl ⟨close, after, by rw [eq_of_beq hn]⟩
  | case2 => exact .inr rfl
  | case3 => exact .inr rfl

namespace Seam

theorem goes_char (ho : o.Plain) {c : Char} (h : Seam o s t w ([c] ++ v) p lead)
    (hread : readToken? (c :: v) = none) : Goes o s (c :: v) := by
  have hc := h.nonblank c rfl
  have hprint (K : List Token) (q : Page) :
      printTokens o q (.text [c] :: K) = printTokens o (q.inline [c]) K := by
    rw [printTokens_text, text_of_not_blank hc, collapse_cons hc]
    rfl
  obtain ⟨t', p', hfront⟩ := h.flow ho (.char ho hc hread) hprint
    ⟨⟨c, [], rfl, hc⟩, [], c, rfl, hc⟩ (.inr ⟨c, rfl⟩)
  exact hfront.goes ho (Nat.lt_succ_self _)

theorem goes_flow (ho : o.Plain) {r : Text} (h : Seam o s t w (tok.slice ++ r) p lead)
    (hread : readToken? (tok.slice ++ r) = some (tok, r)) (hbreaks : tok.breaksLine o = false)
    (hraw : tok.opensRaw o = none) : Goes o s (tok.slice ++ r) := by
  obtain ⟨-, htext⟩ := ne_of_isMark (isMark_of_readToken? hread)
  have hprint (K : List Token) (q : Page) :
      printTokens o q (tok :: K) = printTokens o (q.inline tok.slice) K := by
    rw [printTokens_cons, printToken_of_flows hbreaks htext]
  obtain ⟨hclosed, hbare⟩ : tok.Closed ∧ BareEnds isAsciiBlank tok.slice := by
    have hbare := bare_of_readToken? hread
    cases tok with
    | text s => exact absurd rfl (htext s)
    | comment s => cases hbreaks
    | raw s => cases isMark_of_readToken? hread
    | _ => exact ⟨trivial, hbare⟩
  have hends : ['>'] <:+ tok.slice ∨ "\x7d\x7d".toList <:+ tok.slice := by
    obtain ⟨-, -, -, hend⟩ | ⟨-, hend⟩ := ends_of_readToken? hread hclosed
    · exact .inr hend
    · exact .inl hend
  obtain ⟨t', p', hfront⟩ := h.flow ho (.token ho hread hclosed hraw) hprint hbare (.inl hends)
  exact hfront.goes ho (length_lt_of_slice (eq_append_of_readToken? hread).2)

theorem goes_line (tok : Token) (ho : o.Plain) (hs : Formattable o (cells o s)) {r : Text}
    (h : Seam o s t w (tok.slice ++ r) p lead) (hread : readToken? (tok.slice ++ r) = some (tok, r))
    (hbreaks : tok.breaksLine o) (hraw : tok.opensRaw o = none) {depth : Nat} {p' : Page}
    (hline : AddsLine o p depth tok.slice p')
    (hprint : ∀ K, Follows o (cells o r) K → printToken o tok K p = (p', K)) :
    Goes o s (tok.slice ++ r) := by
  obtain ⟨done, hdone, hbraces⟩ := h.done
  have hcells := cells_token (o := o) hread hraw
  have hclosed : tok.Closed := by
    cases tok with
    | comment slice => exact hs.comments slice (by rw [hdone, hcells]; simp)
    | _ => trivial
  have hprint' (K : List Token) (hK : Follows o (cells o r) K) :
      printTokens o p (tok :: ([] ++ K)) = printTokens o p' K := by
    rw [List.nil_append, printTokens_cons, hprint K hK]
  have hends := ends_of_readToken? hread hclosed
  have hgap : Gap t w (p.lineStart o depth) (tok.slice ++ ([] ++ r)) := by
    refine h.gap_lineStart ho depth ?_
    obtain ⟨kind, htag, hstart, hend⟩ | ⟨hhead, -⟩ := hends
    · refine .inr ⟨hstart, hend.isInfix.trans (List.prefix_append _ _).isInfix, fun hw hbefore => ?_⟩
      rw [htag] at hbreaks
      have hblock : (kind == .inline) = false ∧ o.indentHandlebars := by
        simpa [Token.breaksLine, isInlineToken] using hbreaks
      have hhead : (tok.slice ++ r).head? = some '{' := by
        obtain ⟨rest, hrest⟩ := hstart
        rw [← hrest]
        rfl
      rw [hcells, htag] at hdone
      exact hs.apart hblock.2 done kind _ _ hdone (ne_of_beq_false hblock.1)
        (hbraces hhead hw _ (.inr rfl) hbefore)
    · exact .inl fun c hc => Option.some.inj (hc.symm.trans hhead)
  have houtput : p'.output o = p.output o ++ (p.lineStart o depth ++ (tok.slice ++ [])) := by
    rw [hline.output h.tidy.blank, List.append_nil]
  have hfront := h.breaks tok depth (.token ho hread hclosed hraw) hbreaks hgap (.refl _ _)
    (hprint' _ (.refl r)) hprint' hline.line hline.blank houtput (by
      rw [List.append_nil]
      exact hends.symm.imp And.right fun hbraces => by obtain ⟨_, -, -, hend⟩ := hbraces; exact hend)
  exact hfront.goes ho (length_lt_of_slice (eq_append_of_readToken? hread).2)

theorem goes_element (ho : o.Plain) (hs : Formattable o (cells o s)) {name slice rest : Text}
    (h : Seam o s t w (slice ++ rest) p lead) (hopens : OpensBlock o name slice rest)
    (hraw : (Token.opening name slice).opensRaw o = none) : Goes o s (slice ++ rest) := by
  cases hbody : inlineBody? o name (cells o rest) with
  | some split =>
    obtain ⟨t', m, r, p', rfl, hfront⟩ := h.oneLine ho hopens hraw hbody
    refine hfront.goes ho (Nat.lt_of_le_of_lt ?_ (length_lt_of_slice (eq_append_of_readToken? hopens.read).2))
    rw [List.length_append]
    exact Nat.le_add_left _ _
  | none =>
    have hplain : o.isUnformatted name = false ∧ o.isContentUnformatted name = false := by
      simpa [Token.opensRaw] using hraw
    have hline : AddsLine o p (p.flush o).depth slice
        (if indentsChildren o name then (p.block o slice).deeper else p.block o slice) := by
      split
      · exact ⟨p.line_flush, rfl, rfl⟩
      · exact ⟨p.line_flush, rfl, rfl⟩
    refine h.goes_line (.opening name slice) ho hs hopens.read hopens.breaksLine hraw hline
      fun K hK => ?_
    simp [printToken, openElement, hopens.isInline, hplain, hK.body name hbody]

theorem goes_rawElement (ho : o.Plain) (hs : Formattable o (cells o s)) {name slice rest : Text}
    (h : Seam o s t w (slice ++ rest) p lead) (hopens : OpensBlock o name slice rest)
    (hraw : (Token.opening name slice).opensRaw o = some name) : Goes o s (slice ++ rest) := by
  obtain ⟨b, v, hsplit⟩ : ∃ b v, splitAtLetters ("</" ++ name) rest = (b, v) := ⟨_, _, rfl⟩
  obtain ⟨rfl, -, -⟩ := of_splitAtLetters hsplit
  have hcells := cells_raw hopens.read hraw hsplit
  have hslice : slice ≠ [] := (eq_append_of_readToken? hopens.read).2
  have hlength : v.length < (slice ++ (b ++ v)).length := by
    rw [← List.append_assoc]
    exact length_lt_of_slice (by simp [hslice])
  have hfront {t' close r : Text} {p' : Page} (hv : v = close ++ r) (hfront : Front o s t' r p') :
      Goes o s (slice ++ (b ++ v)) := by
    refine hfront.goes ho (Nat.lt_of_le_of_lt ?_ hlength)
    rw [hv, List.length_append]
    exact Nat.le_add_left _ _
  cases hunformatted : o.isUnformatted name with
  | true =>
    obtain ⟨done, hdone, -⟩ := h.done
    rw [hcells] at hdone
    obtain ⟨body, n, close, after, hafter⟩ := hs.closed done name slice _ hdone hunformatted
    have hbody := congrArg rawBody hafter
    have hclosing : rawBody (.closing n close :: after) = ([], .closing n close :: after) := rfl
    rw [rawBody_rawToken (rawBody_cells o v), rawBody_rawToken hclosing] at hbody
    obtain ⟨r, rfl, hclose⟩ := closing_of_cells (Prod.mk.inj hbody).2
    obtain ⟨t', p', hverbatim⟩ := h.verbatim ho hopens hunformatted hsplit hclose
    exact hfront rfl hverbatim
  | false =>
    have hcontent : o.isContentUnformatted name := by
      simpa [Token.opensRaw, hunformatted] using hraw
    obtain ⟨close, after, hclosing⟩ | hnone := closingTag_cases name (cells o v)
    · obtain ⟨r, rfl, hclose⟩ := closing_of_cells hclosing
      obtain ⟨t', p', hlaid⟩ := h.content ho hopens hunformatted hcontent hsplit hclose
      exact hfront rfl hlaid
    · obtain ⟨t', p', hseam⟩ := h.unclosed ho hopens hunformatted hcontent hsplit hnone
      exact ⟨t', [], v, p', [], hlength, hseam⟩

theorem goes (ho : o.Plain) (hs : Formattable o (cells o s)) {c : Char}
    (h : Seam o s t w (c :: v) p lead) : Goes o s (c :: v) := by
  cases hread : readToken? (c :: v) with
  | none => exact h.goes_char ho hread
  | some split =>
    obtain ⟨tok, r⟩ := split
    obtain ⟨hsplit, hslice⟩ := eq_append_of_readToken? hread
    rw [hsplit] at h hread ⊢
    cases hbreaks : tok.breaksLine o with
    | false =>
      cases hraw : tok.opensRaw o with
      | none => exact h.goes_flow ho hread hbreaks hraw
      | some name =>
        obtain ⟨slice, rfl⟩ := exists_opening_of_opensRaw hraw
        have hinline : o.isInline name := by simpa [Token.breaksLine, isInlineToken] using hbreaks
        obtain ⟨b, v', hcontent⟩ : ∃ b v', splitAtLetters ("</" ++ name) r = (b, v') := ⟨_, _, rfl⟩
        obtain ⟨rfl, -, -⟩ := of_splitAtLetters hcontent
        obtain ⟨t', w', p', lead', hseam⟩ := h.openInline ho hread hinline hraw hcontent
        refine ⟨t', w', v', p', lead', ?_, hseam⟩
        rw [← List.append_assoc]
        exact length_lt_of_slice (by simp [hslice])
    | true =>
      by_cases hopening : ∃ name slice, tok = .opening name slice
      · obtain ⟨name, slice, rfl⟩ := hopening
        have hopens : OpensBlock o name slice r :=
          ⟨hread, by simpa [Token.breaksLine, isInlineToken] using hbreaks⟩
        cases hraw : (Token.opening name slice).opensRaw o with
        | none => exact h.goes_element ho hs hopens hraw
        | some n =>
          obtain ⟨slice', heq⟩ := exists_opening_of_opensRaw hraw
          obtain ⟨rfl, -⟩ := Token.opening.inj heq
          exact h.goes_rawElement ho hs hopens hraw
      · have hno : ∀ name slice, tok ≠ .opening name slice := fun name slice heq =>
          hopening ⟨name, slice, heq⟩
        have hraw : tok.opensRaw o = none := by
          rw [Option.eq_none_iff_forall_not_mem]
          intro name hname
          obtain ⟨slice, heq⟩ := exists_opening_of_opensRaw hname
          exact hno name slice heq
        obtain ⟨depth, p', hline, hprint⟩ := exists_addsLine hbreaks hno p
        exact h.goes_line tok ho hs hread hbreaks hraw hline fun K _ => hprint K

/-- The whole rest of the source goes over into formatted text. -/
theorem run (ho : o.Plain) (hs : Formattable o (cells o s)) (h : Seam o s t w v p lead) :
    printTokens o {} (cells o (beautify o s)) = printTokens o {} (cells o s) := by
  induction hn : v.length using Nat.strong_induction_on generalizing t w v p lead with
  | h n ih =>
    cases v with
    | nil => exact h.finish ho
    | cons c v =>
      obtain ⟨t', w', v', p', lead', hlt, hnext⟩ := h.goes ho hs
      exact ih _ (by omega) hnext rfl

end Seam

theorem beautify_beautify (hnewlines : o.preserveNewlines = false)
    (hunit : ∀ c ∈ o.indentUnit, c = ' ' ∨ c = '\t')
    (heol : o.eol = "\n".toList ∨ o.eol = "\r\n".toList)
    (hcomments : ∀ slice, .comment slice ∈ tokens o s → "<!--".toList <+: slice →
      "-->".toList <:+ slice)
    (hclosed : ∀ front name slice back, tokens o s = front ++ .opening name slice :: back →
      o.isUnformatted name → ∃ body n close after, back = rawToken body ++ .closing n close :: after)
    (hapart : o.indentHandlebars → ∀ front kind slice back,
      tokens o s = front ++ .tag kind slice :: back → kind ≠ .inline →
        ¬ "\x7b\x7b".toList <:+ slices front) :
    beautify o (beautify o s) = beautify o s := by
  have ho : o.Plain := ⟨hnewlines, hunit, heol⟩
  have hs : Formattable o (tokens o s) := ⟨hcomments, hclosed, hapart⟩
  obtain ⟨w, v, -, hseam⟩ := exists_seam_start ho s
  have hprinted := hseam.run ho hs.cells
  rw [← printed_tokens hnewlines, ← printed_tokens hnewlines] at hprinted
  rw [beautify, hprinted, ← beautify]

def dense : Options := { preserveNewlines := false }

def fragment : Text :=
  "<pre> x </pre>\x7b\x7b#a\x7d\x7d b\n c\x7b\x7b/a\x7d\x7d<!-- d --><script>\n  e\n</script>"

theorem fragment_again :
    tokens dense fragment = [.opening "pre" "<pre>", .raw " x ", .closing "pre" "</pre>",
      .tag .opening "\x7b\x7b#a\x7d\x7d", .text " b\n c", .tag .closing "\x7b\x7b/a\x7d\x7d",
      .comment "<!-- d -->", .opening "script" "<script>", .raw "\n  e\n",
      .closing "script" "</script>"] ∧
    beautify dense (beautify dense fragment) = beautify dense fragment := by
  have htoks : tokens dense fragment = [.opening "pre" "<pre>", .raw " x ", .closing "pre" "</pre>",
      .tag .opening "\x7b\x7b#a\x7d\x7d", .text " b\n c", .tag .closing "\x7b\x7b/a\x7d\x7d",
      .comment "<!-- d -->", .opening "script" "<script>", .raw "\n  e\n",
      .closing "script" "</script>"] := by decide +kernel
  refine ⟨htoks, beautify_beautify rfl (List.all_iff_forall_prop.1 rfl) (.inl rfl) ?_ ?_ ?_⟩
  · rw [htoks]
    intro slice hmem _
    obtain rfl : slice = "<!-- d -->".toList := by simpa using hmem
    decide
  · rw [htoks]
    intro front name slice back h hname
    simp [List.cons_eq_append_iff] at h
    obtain ⟨-, -, rfl⟩ | ⟨-, ⟨rfl, -⟩, -⟩ := h
    · exact ⟨" x ", "pre", "</pre>", _, rfl⟩
    · exact absurd hname (by decide)
  · rw [htoks]
    intro _ front kind slice back h _
    simp [List.cons_eq_append_iff] at h
    obtain ⟨behind, rfl, ⟨rfl, -, -⟩ | ⟨rfl, -, -⟩⟩ := h
    · decide
    · decide

def braced : Text := "\x7b\x7b\x7b\x7b/a\x7d\x7db"

/-- On a line of their own, the two braces are read as a template tag with what stood behind them. -/
theorem braced_again_differs :
    dense.preserveNewlines = false ∧ (∀ c ∈ dense.indentUnit, c = ' ' ∨ c = '\t') ∧
    dense.eol = "\n".toList ∧
    (∀ slice, .comment slice ∈ tokens dense braced → "<!--".toList <+: slice →
      "-->".toList <:+ slice) ∧
    (∀ front name slice back, tokens dense braced = front ++ .opening name slice :: back →
      dense.isUnformatted name →
        ∃ body n close after, back = rawToken body ++ .closing n close :: after) ∧
    beautify dense (beautify dense braced) ≠ beautify dense braced := by
  have htoks : tokens dense braced =
      [.text "\x7b\x7b", .tag .closing "\x7b\x7b/a\x7d\x7d", .text "b"] := by decide +kernel
  refine ⟨rfl, List.all_iff_forall_prop.1 rfl, rfl, ?_, ?_, ?_⟩
  · rw [htoks]
    intro slice hmem
    simp at hmem
  · rw [htoks]
    intro front name slice back h
    simp [List.cons_eq_append_iff] at h
  · have honce : beautify dense braced =
        "\x7b\x7b\n\x7b\x7b/a\x7d\x7d\nb\n".toList := by decide +kernel
    have htwice : beautify dense "\x7b\x7b\n\x7b\x7b/a\x7d\x7d\nb\n" =
        "\x7b\x7b\n\x7b\x7b/a\x7d\x7d b\n".toList := by decide +kernel
    rw [honce, htwice]
    decide

end PatternBridge.Markup
