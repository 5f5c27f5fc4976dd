import PatternBridge.Proofs.Markup.Seam

/-! Formatting one token more: text and inline tags go on with the current line, and other tags and
comments are put behind a line break. -/

namespace PatternBridge.Markup
open Text

variable {o : Options} {s t w r slice m m' lead : Text} {p p' : Page} {tok : Token} {taken T : List Token}

theorem settled_singleton (h : tok.opensRaw o = none) (hraw : ∀ s, tok ≠ .raw s)
    (htext : ∀ s, tok = .text s → ∃ c ∈ s, isAsciiBlank c = false) : Settled o [tok] := by
  intro last hlast
  obtain rfl : tok = last := Option.some.inj hlast
  exact ⟨h, hraw, htext⟩

theorem Piece.char (ho : o.Plain) {c : Char} (hc : isAsciiBlank c = false)
    (hread : readToken? (c :: r) = none) : Piece o r [c] [] [] [.text [c]] [.text [c]] where
  cells := (cells_cons hread).trans (addCell_of_not_blank hc _)
  reads := .char hc hread (.nil r)
  nonempty := List.cons_ne_nil _ _
  hasCells := List.cons_ne_nil _ _
  settled := settled_singleton rfl (fun _ h => by cases h) fun s hs =>
    ⟨c, by rw [← Token.text.inj hs]; exact List.mem_singleton_self c, hc⟩
  follows := fun _ hK => hK.cons ho fun _ h => by cases h

theorem Piece.token (ho : o.Plain) (hread : readToken? (tok.slice ++ r) = some (tok, r))
    (hclosed : tok.Closed) (hraw : tok.opensRaw o = none) :
    Piece o r tok.slice [] [] [tok] [tok] where
  cells := cells_token hread hraw
  reads := by
    have htoken := Reads.token (o := o) (a := []) hread hclosed hraw (.nil r)
    rwa [List.append_nil] at htoken ⊢
  nonempty := (eq_append_of_readToken? hread).2
  hasCells := List.cons_ne_nil _ _
  settled := by
    obtain ⟨hnotRaw, htext⟩ := ne_of_isMark (isMark_of_readToken? hread)
    exact settled_singleton hraw hnotRaw fun s hs => absurd hs (htext s)
  follows := fun _ hK => hK.cons ho (ne_of_isMark (isMark_of_readToken? hread)).1

theorem ends_of_readToken? {s : Text} (hread : readToken? s = some (tok, r)) (hclosed : tok.Closed) :
    (∃ kind, tok = .tag kind tok.slice ∧ "\x7b\x7b".toList <+: s ∧ "\x7d\x7d".toList <:+ tok.slice) ∨
      s.head? = some '<' ∧ ['>'] <:+ tok.slice := by
  cases tokenAt_of_readToken? hread with
  | tag hs hend =>
    exact .inl ⟨_, rfl, hs, (braces_suffix_tagEnding s).trans (suffix_of_through? hend)⟩
  | comment hs hend => exact .inr ⟨hs, hend⟩
  | unended hs =>
    obtain ⟨t, rfl⟩ := hs
    exact .inr ⟨rfl, List.IsSuffix.trans (by decide) (hclosed (List.prefix_append _ t))⟩
  | element hs hend =>
    obtain ⟨t, rfl⟩ := last_of_tagRest? hend
    rw [slice_elementToken]
    exact .inr ⟨by rw [hs]; rfl, '<' :: t, rfl⟩

theorem angles_of_readToken? {s : Text} (hread : readToken? s = some (tok, r))
    (hclosed : tok.Closed) (htag : ∀ kind t, tok ≠ .tag kind t) :
    s.head? = some '<' ∧ ['>'] <:+ tok.slice :=
  (ends_of_readToken? hread hclosed).resolve_left fun ⟨_, heq, _⟩ => htag _ _ heq

namespace Seam

/-- There is white space behind which what flows goes on with the current line. -/
theorem exists_gap (ho : o.Plain) {v : Text} (h : Seam o s t w v p lead)
    (hbare : BareEnds isAsciiBlank slice) :
    ∃ w', Gap t w w' v ∧ (p.inline (lead ++ slice)).Tidy ∧
      (p.inline (lead ++ slice)).output o = t ++ (w' ++ slice) ∧
      ∀ x, (∀ c ∈ x, isAsciiBlank c) → (p.line ≠ [] → w' = lead → x = lead) →
        Page.Alike ((p.inline x).inline slice) (p.inline (lead ++ slice)) := by
  by_cases hline : p.line = []
  · obtain ⟨rfl, hfree⟩ := h.free hline
    refine ⟨_, hfree _ (Page.blank_lineStart ho p p.depth) fun ht =>
      Page.lineStart_ne_nil ho (by rwa [h.output]) p.depth, ⟨h.tidy.blank, .inr ?_⟩, ?_, fun x hx _ => ?_⟩
    · show BareEnds isAsciiBlank (p.line ++ slice)
      rwa [hline]
    · exact (Page.output_inline_of_line_nil h.tidy.blank hline hbare).trans (by rw [h.output])
    · exact ((Page.alike_inline_blank hline (List.all_eq_true.2 hx)).inline slice).symm
  · obtain ⟨-, -, hgap⟩ := h.leads hline
    have hbareLine := h.tidy.line.resolve_left hline
    have hlong : BareEnds isAsciiBlank (p.line ++ (lead ++ slice)) := hbareLine.append lead hbare
    refine ⟨lead, hgap, ⟨h.tidy.blank, .inr hlong⟩, ?_, fun x _ hlead => ?_⟩
    · rw [Page.output_inline_of_bareEnds h.tidy.blank hbareLine hlong, h.output]
    · rw [hlead hline rfl, inline_inline]
      exact .refl _

theorem flow (ho : o.Plain) (h : Seam o s t w (slice ++ r) p lead)
    (hpiece : Piece o r slice [] [] [tok] [tok])
    (hprint : ∀ K q, printTokens o q (tok :: K) = printTokens o (q.inline slice) K)
    (hbare : BareEnds isAsciiBlank slice)
    (hends : (['>'] <:+ slice ∨ "\x7d\x7d".toList <:+ slice) ∨ ∃ c, slice = [c]) :
    ∃ t' p', Front o s t' r p' := by
  obtain ⟨w', hgap, htidy, houtput, halike⟩ := h.exists_gap ho hbare
  have hprints : PrintsTo o r p w' lead [tok] (p.inline (lead ++ slice)) := by
    intro K x _ hx hlead
    rw [List.singleton_append, hprint]
    exact printTokens_alike ho.newlines (halike x hx hlead) K
  have hsource := hprints _ lead (.refl r) h.blank_lead fun _ _ => rfl
  refine ⟨_, _, h.step hpiece hgap (.refl _ _) hsource hprints htidy (by rw [houtput, List.append_nil]) ?_⟩
  rw [List.append_nil]
  refine hends.imp_right fun ⟨c, hc⟩ => ⟨?_, c, hc, rfl, rfl⟩
  show p.line ++ (lead ++ slice) ≠ []
  rw [hc]
  simp

theorem gap_lineStart (ho : o.Plain) {v : Text} (h : Seam o s t w v p lead) (depth : Nat)
    (hv : (∀ c ∈ v.head?, c = '<') ∨ "\x7b\x7b".toList <+: v ∧ "\x7d\x7d".toList <:+: v ∧
      (w = [] → ¬ "\x7b\x7b".toList <:+ t)) : Gap t w (p.lineStart o depth) v := by
  have hblank := Page.blank_lineStart ho p depth
  have hstart (ht : t ≠ []) : p.lineStart o depth ≠ [] :=
    Page.lineStart_ne_nil ho (by rwa [h.output]) depth
  by_cases hline : p.line = []
  · exact (h.free hline).2 _ hblank hstart
  · have hne' := hstart (h.leads hline).1
    refine ⟨hblank, ?_, fun hnil => absurd hnil hne'⟩
    have hslack : Slack t w (p.lineStart o depth) v := by
      by_cases hw : w = []
      · rcases hv with hv | ⟨hstarts, hend, hbefore⟩
        · exact .before hv
        · exact .beforeTag hw hne' hstarts hend (hbefore hw)
      · exact .between hw hne'
    exact hslack.alters (blank_of_ascii h.blank) (blank_of_ascii hblank)

theorem breaks (tok : Token) (depth : Nat) (h : Seam o s t w (tok.slice ++ (m ++ r)) p lead)
    (hpiece : Piece o r tok.slice m m' (tok :: taken) (tok :: T)) (hbreaks : tok.breaksLine o)
    (hgap : Gap t w (p.lineStart o depth) (tok.slice ++ (m ++ r)))
    (hm : Alters (t ++ p.lineStart o depth ++ tok.slice) (m ++ r) (m' ++ r))
    (hsource : printTokens o p (tok :: (taken ++ cells o r)) = printTokens o p' (cells o r))
    (hprint : ∀ K, Follows o (cells o r) K → printTokens o p (tok :: (T ++ K)) = printTokens o p' K)
    (hline : p'.line = []) (hblank : p'.blank = 0)
    (houtput : p'.output o = p.output o ++ (p.lineStart o depth ++ (tok.slice ++ m')))
    (hends : ['>'] <:+ tok.slice ++ m' ∨ "\x7d\x7d".toList <:+ tok.slice ++ m') :
    Front o s (t ++ (p.lineStart o depth ++ (tok.slice ++ m'))) r p' := by
  have hflush {x : Text} (hx : ∀ c ∈ x, isAsciiBlank c) (K : List Token) :
      printTokens o (p.inline x) (tok :: K) = printTokens o p (tok :: K) := by
    rw [printTokens_cons, printTokens_cons,
      printToken_of_flush hbreaks (Page.flush_inline_blank p hx)]
  exact h.step hpiece hgap hm ((hflush h.blank_lead _).trans hsource)
    (fun K x hK hx _ => (hflush hx _).trans (hprint K hK)) ⟨hblank, .inl hline⟩
    (by rw [houtput, h.output]) (.inl hends)

end Seam

structure AddsLine (o : Options) (p : Page) (depth : Nat) (s : Text) (p' : Page) : Prop where
  line : p'.line = []
  blank : p'.blank = 0
  lines : p'.lines = ((p.flush o).emitAt o depth s).lines

theorem AddsLine.output {depth : Nat} (h : AddsLine o p depth s p') (hp : p.blank = 0) :
    p'.output o = p.output o ++ (p.lineStart o depth ++ s) := by
  rw [← Page.output_emitAt hp, Page.output_of_line_nil h.line,
    Page.output_of_line_nil (p := (p.flush o).emitAt o depth s) p.line_flush, h.lines]

theorem addsLine_emitAt (p : Page) (depth : Nat) (s : Text) :
    AddsLine o p depth s ((p.flush o).emitAt o depth s) := ⟨p.line_flush, rfl, rfl⟩

theorem exists_addsLine (hbreaks : tok.breaksLine o) (hopening : ∀ name s, tok ≠ .opening name s)
    (p : Page) : ∃ depth p', AddsLine o p depth tok.slice p' ∧
      ∀ K, printToken o tok K p = (p', K) := by
  cases tok with
  | text s => cases hbreaks
  | raw s => cases hbreaks
  | opening name s => exact absurd rfl (hopening name s)
  | comment s => exact ⟨_, _, addsLine_emitAt p (p.flush o).depth s, fun _ => rfl⟩
  | void name s =>
    have hname : o.isInline name = false := by simpa [Token.breaksLine, isInlineToken] using hbreaks
    refine ⟨_, _, addsLine_emitAt p (p.flush o).depth s, fun _ => ?_⟩
    simp [printToken, hname, Page.block, Page.emit]
  | closing name s =>
    have hname : o.isInline name = false := by simpa [Token.breaksLine, isInlineToken] using hbreaks
    refine ⟨(if indentsChildren o name then (p.flush o).shallower else p.flush o).depth,
      closeElement o name s p, ?_, fun _ => rfl⟩
    have hline : (if indentsChildren o name then (p.flush o).shallower else p.flush o).line = [] := by
      split <;> exact p.line_flush
    have hclose : closeElement o name s p =
        (if indentsChildren o name then (p.flush o).shallower else p.flush o).emit o s := by
      unfold closeElement Page.block
      rw [if_neg (c := o.isInline name = true) (by simp [hname])]
      dsimp only
      rw [Page.flush_of_line_nil hline]
    rw [hclose]
    refine ⟨hline, rfl, ?_⟩
    split <;> rfl
  | tag kind s =>
    have htag : (kind == .inline) = false ∧ o.indentHandlebars := by
      simpa [Token.breaksLine, isInlineToken] using hbreaks
    cases kind with
    | inline => exact absurd htag.1 (by decide)
    | opening =>
      refine ⟨(p.flush o).depth, templateTag o .opening s p, ?_, fun _ => rfl⟩
      unfold templateTag
      rw [if_pos htag.2]
      exact ⟨p.line_flush, rfl, rfl⟩
    | closing =>
      refine ⟨(p.flush o).shallower.depth, templateTag o .closing s p, ?_, fun _ => rfl⟩
      unfold templateTag Page.block
      rw [if_pos htag.2]
      dsimp only
      rw [Page.flush_of_line_nil (p := (p.flush o).shallower) p.line_flush]
      exact ⟨p.line_flush, rfl, rfl⟩
    | divider =>
      refine ⟨(p.flush o).depth - 1, templateTag o .divider s p, ?_, fun _ => rfl⟩
      unfold templateTag
      rw [if_pos htag.2]
      exact ⟨p.line_flush, rfl, rfl⟩

end PatternBridge.Markup
