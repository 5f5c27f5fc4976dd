import PatternBridge.Proofs.Markup.Contents

/-! Formatting past one element more, whatever becomes of its content. -/

namespace PatternBridge.Markup
open Text

variable {o : Options} {s t w r v name n slice b close lead : Text} {p : Page}

theorem Reads.opening {a b' : Text} {T : List Token} (h : Reads o a (slice ++ (b ++ v)) T)
    (hread : readToken? (slice ++ (b ++ v)) = some (.opening name slice, b ++ v))
    (hraw : (Token.opening name slice).opensRaw o = some name)
    (hsplit : splitAtLetters ("</" ++ name) (b ++ v) = (b, v)) (hends : ['>'] <:+ slice)
    (hrelaid : ∀ a, ['>'] <:+ a → Relaid v a b b') :
    Reads o (a ++ (slice ++ b')) v (T ++ .opening name slice :: rawToken b') := by
  have hslice : slice ≠ [] := (eq_append_of_readToken? hread).2
  have hrelaid' := hrelaid slice hends
  have halters := (hrelaid (a ++ slice) (hends.trans (List.suffix_append a slice))).alters
  have hread' : readToken? ((Token.opening name slice).slice ++ (b' ++ ([] ++ v))) =
      some (.opening name slice, b' ++ ([] ++ v)) :=
    (hrelaid'.alters.token slice List.suffix_rfl hslice).2 _ [] (List.append_nil _).symm trivial hread
  have hsplit' := hrelaid'.splitAtLetters (name_of_readToken? hread) hsplit
  have hopening := Reads.raw hread' hraw hsplit' (.nil v)
  rw [List.append_nil, List.append_nil] at hopening
  refine Reads.append ?_ hopening
  have halter := h.alter halters fun hnil => absurd hnil hslice
  rwa [← List.append_assoc] at halter

structure OpensBlock (o : Options) (name slice rest : Text) : Prop where
  read : readToken? (slice ++ rest) = some (.opening name slice, rest)
  isInline : o.isInline name = false

namespace OpensBlock
variable {rest : Text}

theorem head? (h : OpensBlock o name slice rest) : ∀ c ∈ (slice ++ rest).head?, c = '<' := by
  intro c hc
  exact Option.some.inj (hc.symm.trans (angles_of_readToken? h.read trivial (by simp)).1)

theorem ends (h : OpensBlock o name slice rest) : ['>'] <:+ slice :=
  (angles_of_readToken? h.read trivial (by simp)).2

theorem breaksLine (h : OpensBlock o name slice rest) : (Token.opening name slice).breaksLine o := by
  simp [Token.breaksLine, isInlineToken, h.isInline]

theorem gap (ho : o.Plain) (h : OpensBlock o name slice rest)
    (hseam : Seam o s t w (slice ++ rest) p lead) : Gap t w (p.lineStart o p.depth) (slice ++ rest) :=
  hseam.gap_lineStart ho p.depth (.inl h.head?)

end OpensBlock

theorem printTokens_opening_of_inlineBody? {body : Text} {K after : List Token}
    (hname : o.isInline name = false) (hraw : (Token.opening name slice).opensRaw o = none)
    (hbody : inlineBody? o name K = some (body, after)) (p : Page) :
    printTokens o p (.opening name slice :: K) =
      printTokens o ((p.flush o).emitAt o p.depth (slice ++ body)) after := by
  have hplain : o.isUnformatted name = false ∧ o.isContentUnformatted name = false := by
    simpa [Token.opensRaw] using hraw
  have hprint : printToken o (.opening name slice) K p =
      ((p.flush o).emitAt o p.depth (slice ++ body), after) := by
    simp [printToken, openElement, hname, hplain, hbody, Page.emit, Page.depth_flush]
  rw [printTokens_cons, hprint]

theorem printTokens_opening_verbatim (hname : o.isInline name = false)
    (hunformatted : o.isUnformatted name) (p : Page) (K : List Token) :
    printTokens o p (.opening name slice :: (rawToken b ++ [.closing n close] ++ K)) =
      printTokens o ((p.flush o).emitAt o p.depth (slice ++ (b ++ close))) K := by
  have hprint : printToken o (.opening name slice) (rawToken b ++ [.closing n close] ++ K) p =
      ((p.flush o).emitAt o p.depth (slice ++ (b ++ close)), K) := by
    rw [List.append_assoc, List.singleton_append]
    simp [printToken, openElement, hname, hunformatted, verbatim_rawToken, Page.emit,
      Page.depth_flush]
  rw [printTokens_cons, hprint]

theorem printTokens_opening_content (hname : o.isInline name = false)
    (hunformatted : o.isUnformatted name = false) (hcontent : o.isContentUnformatted name)
    {K after : List Token} (hbody : rawBody K = ([], K)) (hclose : closingTag name K = (close, after))
    (p : Page) : printTokens o p (.opening name slice :: (rawToken b ++ K)) =
      printTokens o ((p.flush o).contentElement o slice b close) after := by
  have hprint : printToken o (.opening name slice) (rawToken b ++ K) p =
      ((p.flush o).contentElement o slice b close, after) := by
    simp [printToken, openElement, hname, hunformatted, hcontent, rawBody_rawToken hbody, hclose]
  rw [printTokens_cons, hprint]

namespace Seam

theorem verbatim (ho : o.Plain) (h : Seam o s t w (slice ++ (b ++ (close ++ r))) p lead)
    (hopens : OpensBlock o name slice (b ++ (close ++ r))) (hunformatted : o.isUnformatted name)
    (hsplit : splitAtLetters ("</" ++ name) (b ++ (close ++ r)) = (b, close ++ r))
    (hclose : readToken? (close ++ r) = some (.closing n close, r)) :
    ∃ t' p', Front o s t' r p' := by
  have hraw : (Token.opening name slice).opensRaw o = some name := by
    simp [Token.opensRaw, hunformatted]
  have hpiece := Piece.raw ho hopens.isInline hraw hopens.read hsplit hclose (.refl _ _ _)
  have hseam : Seam o s t w (slice ++ (b ++ close ++ r)) p lead := by rwa [List.append_assoc]
  have hgap := hopens.gap ho h
  rw [← List.append_assoc b close r] at hgap
  have hprint (K : List Token) : printTokens o p
      (.opening name slice :: (rawToken b ++ [.closing n close] ++ K)) =
        printTokens o ((p.flush o).emitAt o p.depth (slice ++ (b ++ close))) K :=
    printTokens_opening_verbatim hopens.isInline hunformatted p K
  have hends : ['>'] <:+ close := (angles_of_readToken? hclose trivial (by simp)).2
  refine ⟨_, _, hseam.breaks (.opening name slice) p.depth hpiece hopens.breaksLine hgap (.refl _ _)
    (hprint _) (fun K _ => hprint K) p.line_flush rfl
    (Page.output_emitAt h.tidy.blank p.depth (slice ++ (b ++ close))) (.inl ?_)⟩
  exact (hends.trans (List.suffix_append b close)).trans (List.suffix_append slice _)

theorem content (ho : o.Plain) (h : Seam o s t w (slice ++ (b ++ (close ++ r))) p lead)
    (hopens : OpensBlock o name slice (b ++ (close ++ r))) (hunformatted : o.isUnformatted name = false)
    (hcontent : o.isContentUnformatted name)
    (hsplit : splitAtLetters ("</" ++ name) (b ++ (close ++ r)) = (b, close ++ r))
    (hclose : readToken? (close ++ r) = some (.closing name close, r)) :
    ∃ t' p', Front o s t' r p' := by
  have hraw : (Token.opening name slice).opensRaw o = some name := by
    simp [Token.opensRaw, hcontent]
  have hend : Blank (bodyEnd o p.depth b) := blank_of_ascii (blank_bodyEnd ho p.depth b)
  have hrelaid {a : Text} (ha : ['>'] <:+ a) :=
    relaid_laidBody ho p.depth b ha (head?_of_splitAtLetters hsplit) hend
  have hpiece := Piece.raw ho hopens.isInline hraw hopens.read hsplit hclose (hrelaid hopens.ends)
  have hseam : Seam o s t w (slice ++ (b ++ close ++ r)) p lead := by rwa [List.append_assoc]
  have hgap := hopens.gap ho h
  rw [← List.append_assoc b close r] at hgap
  have hm := (hrelaid (hopens.ends.trans (List.suffix_append (t ++ p.lineStart o p.depth) slice))).alters
  rw [← List.append_assoc b, ← List.append_assoc _ close] at hm
  have hprint (b' : Text) (K : List Token) : printTokens o p
      (.opening name slice :: (rawToken b' ++ [.closing name close] ++ K)) =
        printTokens o ((p.flush o).contentElement o slice b' close) K := by
    rw [List.append_assoc]
    exact printTokens_opening_content hopens.isInline hunformatted hcontent rfl (by simp [closingTag]) p
  have hcloseNe : close.isEmpty = false :=
    List.isEmpty_eq_false_iff.2 (eq_append_of_readToken? hclose).2
  obtain ⟨hline, hblank, houtput⟩ := output_contentElement (o := o) h.tidy.blank slice b close
  rw [if_neg (by simp [hcloseNe]), ← List.append_assoc (laidBody o p.depth b)] at houtput
  have hends : ['>'] <:+ close := (angles_of_readToken? hclose trivial (by simp)).2
  refine ⟨_, _, hseam.breaks (.opening name slice) p.depth hpiece hopens.breaksLine hgap hm
    (hprint b _) (fun K _ => ?_) hline hblank houtput (.inl ?_)⟩
  · rw [← contentElement_laidBody ho p.depth b hend]
    exact hprint _ K
  · exact (hends.trans (List.suffix_append _ close)).trans (List.suffix_append slice _)

theorem unclosed (ho : o.Plain) (h : Seam o s t w (slice ++ (b ++ v)) p lead)
    (hopens : OpensBlock o name slice (b ++ v)) (hunformatted : o.isUnformatted name = false)
    (hcontent : o.isContentUnformatted name)
    (hsplit : splitAtLetters ("</" ++ name) (b ++ v) = (b, v))
    (hclose : closingTag name (cells o v) = ([], cells o v)) :
    ∃ t' p', Seam o s t' [] v p' [] := by
  have hraw : (Token.opening name slice).opensRaw o = some name := by
    simp [Token.opensRaw, hcontent]
  have hhead := head?_of_splitAtLetters hsplit
  have hcells := cells_raw hopens.read hraw hsplit
  obtain ⟨T₁, hread, hT₁⟩ := h.read _ (hopens.gap ho h)
  obtain ⟨done, hdone, -⟩ := h.done
  have hprint (b' : Text) {K : List Token} (hK : Follows o (cells o v) K) : printTokens o p
      (.opening name slice :: (rawToken b' ++ K)) =
        printTokens o ((p.flush o).contentElement o slice b' []) K :=
    printTokens_opening_content hopens.isInline hunformatted hcontent hK.raw (hK.close name hclose) p
  have hflush {x : Text} (hx : ∀ c ∈ x, isAsciiBlank c) (K : List Token) :
      printTokens o (p.inline x) (.opening name slice :: K) =
        printTokens o p (.opening name slice :: K) := by
    rw [printTokens_cons, printTokens_cons,
      printToken_of_flush hopens.breaksLine (Page.flush_inline_blank p hx)]
  obtain ⟨hline, hblank, houtput⟩ := output_contentElement (o := o) h.tidy.blank slice b []
  rw [if_pos List.isEmpty_nil, List.append_nil, List.append_nil, h.output] at houtput
  have hgap {t' w' : Text} (hw' : ∀ c ∈ w', isAsciiBlank c) : Gap t' [] w' v :=
    ⟨hw', (Slack.before hhead).alters (fun _ hc => absurd hc List.not_mem_nil) (blank_of_ascii hw'),
      fun _ => .inl rfl⟩
  refine ⟨_, (p.flush o).contentElement o slice b [], ⟨hblank, .inl hline⟩, houtput,
    fun _ hc => absurd hc List.not_mem_nil, fun c hc => by rw [hhead c hc]; rfl, ?_, fun w' hw' => ?_,
    fun hne => absurd hline hne, fun _ => ⟨rfl, fun w' hw' _ => hgap hw'⟩,
    done ++ .opening name slice :: rawToken b, ?_, fun hbrace => ?_⟩
  · rw [inline_nil, h.source, hcells, hflush h.blank_lead, hprint b (.refl v)]
  · have hblank' := blank_of_ascii hw'.blank
    have hread' := hread.opening hopens.read hraw hsplit hopens.ends fun a ha =>
      relaid_laidBody ho p.depth b ha hhead hblank'
    refine ⟨T₁ ++ .opening name slice :: rawToken (laidBody o p.depth b ++ w'), ?_,
      fun K hK => ⟨[], fun _ hc => absurd hc List.not_mem_nil, fun hne => absurd hline hne, ?_⟩⟩
    · simpa [List.append_assoc] using hread'
    · have hK' : Follows o (cells o (slice ++ (b ++ v)))
          (.opening name slice :: (rawToken (laidBody o p.depth b ++ w') ++ K)) := by
        rw [hcells]
        exact .of_breaks hopens.isInline ho slice _ _
      obtain ⟨x, hx, -, hprinted⟩ := hT₁ _ hK'
      rw [List.append_assoc, List.cons_append, hprinted, hflush hx, hprint _ hK, inline_nil,
        contentElement_laidBody ho p.depth b hblank']
  · rw [hdone, hcells, List.append_assoc]
    rfl
  · exact absurd (hhead '{' hbrace) (by decide)

theorem openInline (ho : o.Plain) (h : Seam o s t w (slice ++ (b ++ v)) p lead)
    (hread : readToken? (slice ++ (b ++ v)) = some (.opening name slice, b ++ v))
    (hinline : o.isInline name) (hraw : (Token.opening name slice).opensRaw o = some name)
    (hsplit : splitAtLetters ("</" ++ name) (b ++ v) = (b, v)) :
    ∃ t' w' p' lead', Seam o s t' w' v p' lead' := by
  have hhead := head?_of_splitAtLetters hsplit
  have hcells := cells_raw hread hraw hsplit
  have hends : ['>'] <:+ slice := (angles_of_readToken? hread trivial (by simp)).2
  have hbareSlice : BareEnds isAsciiBlank slice := bare_of_readToken? hread
  obtain ⟨core, tail, rfl, htail, hbare⟩ : ∃ core tail, b = core ++ tail ∧
      (∀ c ∈ tail, isAsciiBlank c) ∧ BareEnds isAsciiBlank (slice ++ core) := by
    refine ⟨dropEndWhile isAsciiBlank b, _, (dropEndWhile_append_dropped isAsciiBlank b).symm,
      fun c hc => List.mem_takeWhile_imp (List.mem_reverse.1 hc), ?_⟩
    by_cases hnil : dropEndWhile isAsciiBlank b = []
    · rwa [hnil, List.append_nil]
    · obtain ⟨u, d, hlast, hd⟩ := exists_concat_dropEndWhile hnil
      obtain ⟨⟨c, t, rfl, hc⟩, -⟩ := hbareSlice
      exact ⟨⟨c, _, rfl, hc⟩, c :: t ++ u, d, by rw [hlast, List.append_assoc], hd⟩
  obtain ⟨w', hgap, htidy, houtput, halike⟩ := h.exists_gap ho hbare
  obtain ⟨T₁, hread₁, hT₁⟩ := h.read w' hgap
  obtain ⟨done, hdone, -⟩ := h.done
  have hslice : slice ≠ [] := (eq_append_of_readToken? hread).2
  have hne : (p.inline (lead ++ (slice ++ core))).line ≠ [] := by
    show p.line ++ (lead ++ (slice ++ core)) ≠ []
    simp [hslice]
  have hflow (q : Page) (w'' : Text) (K : List Token) : printTokens o q
      (.opening name slice :: (rawToken (core ++ w'') ++ K)) =
        printTokens o ((q.inline (slice ++ core)).inline w'') K := by
    have hprint : printToken o (.opening name slice) (rawToken (core ++ w'') ++ K) q =
        (q.inline slice, rawToken (core ++ w'') ++ K) := by
      simp [printToken, openElement, hinline]
    rw [printTokens_cons, hprint]
    dsimp only
    rw [printTokens_rawToken, inline_inline, inline_inline, List.append_assoc]
  refine ⟨_, tail, _, tail, htidy, houtput, htail, fun c hc => by rw [hhead c hc]; rfl, ?_,
    fun w'' hw'' => ?_, fun _ => ⟨?_, htail, htail, .refl _ _, fun hnil => .inl hnil⟩,
    fun hline => absurd hline hne, done ++ .opening name slice :: rawToken (core ++ tail), ?_,
    fun hbrace => ?_⟩
  · rw [h.source, hcells, hflow, inline_inline p lead]
  · have hread' := hread₁.opening hread hraw hsplit hends fun a _ => Relaid.append_left (k := core)
      (.blank (.before hhead) (blank_of_ascii htail) (blank_of_ascii hw''.blank))
    refine ⟨T₁ ++ .opening name slice :: rawToken (core ++ w''), ?_, fun K hK => ?_⟩
    · simpa [List.append_assoc] using hread'
    · have hK' : Follows o (cells o (slice ++ (core ++ tail ++ v)))
          (.opening name slice :: (rawToken (core ++ w'') ++ K)) := by
        rw [hcells]
        refine hK.rawToken ho name slice fun hnil => ?_
        obtain ⟨rfl, rfl⟩ := List.append_eq_nil_iff.1 hnil
        obtain rfl | rfl | ht := hw''.kept rfl
        · exact .inl rfl
        · exact .inr fun n => by rw [cells_nil, inlineBody?]
        · simp [hslice] at ht
      obtain ⟨x, hx, hlead, hprinted⟩ := hT₁ _ hK'
      refine ⟨w'', hw''.blank, fun _ _ => ?_, ?_⟩
      · assumption
      · rw [List.append_assoc, List.cons_append, hprinted, hflow]
        exact printTokens_alike ho.newlines ((halike x hx hlead).inline w'') K
  · simp [hslice]
  · rw [hdone, hcells, List.append_assoc]
    rfl
  · exact absurd (hhead '{' hbrace) (by decide)

theorem oneLine (ho : o.Plain) {rest body : Text} {after : List Token}
    (h : Seam o s t w (slice ++ rest) p lead) (hopens : OpensBlock o name slice rest)
    (hraw : (Token.opening name slice).opensRaw o = none)
    (hbody : inlineBody? o name (cells o rest) = some (body, after)) :
    ∃ t' m r p', rest = m ++ r ∧ Front o s t' r p' := by
  obtain ⟨m, r, taken, T, rfl, rfl, hline⟩ := exists_oneLine ho hbody
  have hne : slice ≠ [] := (eq_append_of_readToken? hopens.read).2
  have hread : readToken? ((Token.opening name slice).slice ++ (body ++ r)) =
      some (.opening name slice, body ++ r) :=
    ((hline.alters slice).token slice List.suffix_rfl hne).2 _ [] (List.append_nil _).symm trivial
      hopens.read
  have hpiece : Piece o r slice m body (.opening name slice :: taken) (.opening name slice :: T) :=
    { cells := by rw [cells_token hopens.read hraw, hline.cells]; rfl
      reads := .token hread trivial hraw hline.reads
      nonempty := hne
      hasCells := List.cons_ne_nil _ _
      settled := hline.settled.append (T := [.opening name slice]) hline.ne_nil
      follows := fun K _ => .of_breaks hopens.isInline ho slice _ _ }
  have hprint {K after : List Token} (hK : inlineBody? o name K = some (body, after)) :
      printTokens o p (.opening name slice :: K) =
        printTokens o ((p.flush o).emitAt o p.depth (slice ++ body)) after :=
    printTokens_opening_of_inlineBody? hopens.isInline hraw hK p
  have hsource := hprint hbody
  rw [hline.cells] at hsource
  refine ⟨_, m, r, _, rfl, h.breaks (.opening name slice) p.depth hpiece hopens.breaksLine (hopens.gap ho h)
    (hline.alters _) hsource (fun K _ => hprint (hline.inline K)) p.line_flush rfl
    (Page.output_emitAt h.tidy.blank p.depth (slice ++ body)) (.inl ?_)⟩
  exact hline.ends.trans (List.suffix_append slice body)

end Seam

end PatternBridge.Markup
