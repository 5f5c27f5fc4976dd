import PatternBridge.Proofs.Markup.OneLine
import PatternBridge.Proofs.Markup.Relaid

/-! Formatting one element more together with its content: on one line, as it stands, or line by line. -/

namespace PatternBridge.Markup
open Text

variable {o : Options} {s t w r v name slice b b' close lead : Text} {n : Text} {p p' : Page}
  {K K' : List Token}

theorem Follows.of_breaks (hname : o.isInline name = false) (ho : o.Plain) (slice : Text)
    (K K' : List Token) : Follows o (.opening name slice :: K) (.opening name slice :: K') where
  body := by
    intro n _
    rw [inlineBody?_cons ho.newlines (fun _ h => by cases h), if_neg]
    show ¬ o.isInline name = true
    simp [hname]
  close := fun _ _ => rfl
  raw := rfl

theorem Follows.rawToken (ho : o.Plain) (h : Follows o K K') (name slice : Text)
    (hb : b' = [] → b = [] ∨ ∀ n, inlineBody? o n K = none) :
    Follows o (.opening name slice :: (rawToken b ++ K)) (.opening name slice :: (rawToken b' ++ K')) where
  body := by
    intro n hnone
    rw [inlineBody?_cons ho.newlines (fun _ h => by cases h)] at hnone ⊢
    split at hnone
    · next hinline =>
      rw [if_pos hinline, Option.map_eq_none_iff]
      rw [Option.map_eq_none_iff] at hnone
      by_cases hnil : b' = []
      · refine hnil ▸ h.body n ?_
        rcases hb hnil with rfl | hK
        · exact hnone
        · exact hK n
      · rw [Markup.rawToken, if_neg (by simpa using hnil), List.singleton_append,
          inlineBody?_cons ho.newlines (fun _ h => by cases h)]
        rfl
    · next hinline => rw [if_neg hinline]
  close := fun _ _ => rfl
  raw := rfl

theorem Relaid.refl (y a s : Text) : Relaid y a s s := by
  have hnil := (Relaid.nil (y := y) (a ++ s)).append_left
  rwa [List.append_nil] at hnil

theorem head?_of_startsWithLetters {c : Char} (h : startsWithLetters ("</" ++ n) s) (hc : c ∈ s.head?) :
    c = '<' := by
  obtain ⟨t, rfl⟩ := List.head?_eq_some_iff.1 hc
  obtain ⟨hfirst, -⟩ := List.cons_prefix_cons.1 (startsWithLetters_iff.1 h)
  have hfirst : '<' = c.toLower := hfirst
  obtain ⟨hge, hle, hlower⟩ | ⟨-, hsame⟩ := toLower_cases c
  · rw [← hfirst] at hlower
    have hnat : ('<' : Char).toNat = 60 := rfl
    omega
  · rw [hfirst, hsame]

theorem head?_of_splitAtLetters (h : splitAtLetters ("</" ++ n) s = (b, v)) : ∀ c ∈ v.head?, c = '<' := by
  intro c hc
  obtain ⟨-, rfl | hv, -⟩ := of_splitAtLetters h
  · cases hc
  · exact head?_of_startsWithLetters hv hc

theorem readToken?_of_cells {tok : Token} (hmark : tok.isMark) (h : cells o s = tok :: K) :
    ∃ r, readToken? s = some (tok, r) ∧ (tok.opensRaw o = none → K = cells o r) := by
  cases s with
  | nil =>
    rw [cells_nil] at h
    cases h
  | cons c s =>
    cases hread : readToken? (c :: s) with
    | none =>
      obtain ⟨t, rest, hcells⟩ := exists_addCell c (cells o s)
      rw [cells_cons hread, hcells] at h
      rw [← (List.cons.inj h).1] at hmark
      cases hmark
    | some split =>
      obtain ⟨tok', r⟩ := split
      obtain ⟨-, htext⟩ := ne_of_isMark (isMark_of_readToken? hread)
      have hcells : cells o (c :: s) = tok' :: (cells o (c :: s)).tail := by
        rw [cells, tokens_of_readToken? hread, cellsOf_cons htext]
        rfl
      obtain ⟨rfl, -⟩ := List.cons.inj (h.symm.trans hcells)
      refine ⟨r, rfl, fun hraw => ?_⟩
      rw [cells_token hread hraw] at h
      exact (List.cons.inj h).2.symm

theorem rawBody_rawToken (hK : rawBody K = ([], K)) (b : Text) : rawBody (rawToken b ++ K) = (b, K) := by
  unfold rawToken
  split
  · next h => rw [List.isEmpty_iff.1 h]; exact hK
  · rfl

theorem verbatim_rawToken (b n close : Text) (K : List Token) :
    verbatim (rawToken b ++ .closing n close :: K) = (b ++ close, K) := by
  unfold rawToken
  split
  · next h => rw [List.isEmpty_iff.1 h]; rfl
  · rfl

theorem printTokens_rawToken (b : Text) (K : List Token) (p : Page) :
    printTokens o p (rawToken b ++ K) = printTokens o (p.inline b) K := by
  unfold rawToken
  split
  · next h => rw [List.isEmpty_iff.1 h, inline_nil]; rfl
  · rw [List.singleton_append, printTokens_cons]
    rfl

theorem Piece.raw (ho : o.Plain) (hname : o.isInline name = false)
    (hraw : (Token.opening name slice).opensRaw o = some name)
    (hread : readToken? (slice ++ (b ++ (close ++ r))) = some (.opening name slice, b ++ (close ++ r)))
    (hsplit : splitAtLetters ("</" ++ name) (b ++ (close ++ r)) = (b, close ++ r))
    (hclose : readToken? (close ++ r) = some (.closing n close, r))
    (hrelaid : Relaid (close ++ r) slice b b') :
    Piece o r slice (b ++ close) (b' ++ close)
      (.opening name slice :: (rawToken b ++ [.closing n close]))
      (.opening name slice :: (rawToken b' ++ [.closing n close])) := by
  have hne : slice ≠ [] := (eq_append_of_readToken? hread).2
  have hread' : readToken? ((Token.opening name slice).slice ++ (b' ++ (close ++ r))) =
      some (.opening name slice, b' ++ (close ++ r)) :=
    (hrelaid.alters.token slice List.suffix_rfl hne).2 _ [] (List.append_nil _).symm trivial hread
  have hsplit' := hrelaid.splitAtLetters (name_of_readToken? hread) hsplit
  have hclosing : Reads o close r [.closing n close] := by
    have hclose' : readToken? ((Token.closing n close).slice ++ ([] ++ r)) =
        some (.closing n close, [] ++ r) := hclose
    have htoken := Reads.token (o := o) hclose' trivial rfl (.nil r)
    rwa [List.append_nil] at htoken
  refine ⟨?_, ?_, hne, List.cons_ne_nil _ _, ?_, fun K _ => .of_breaks hname ho slice _ _⟩
  · rw [List.append_assoc, cells_raw hread hraw hsplit, cells_token hclose rfl, List.cons_append,
      List.append_assoc]
    rfl
  · exact .raw hread' hraw hsplit' hclosing
  · exact (settled_singleton rfl (fun _ h => by cases h) (fun _ h => by cases h)).append
      (T := .opening name slice :: rawToken b') (List.cons_ne_nil _ _)

/-! The content that is laid out line by line. -/

def laidBody (o : Options) (depth : Nat) (body : Text) : Text :=
  if isBlankText body then [] else laidLines o (depth + 1) (dedent body)

def bodyEnd (o : Options) (depth : Nat) (body : Text) : Text :=
  if isBlankText body then [] else o.eol ++ Page.indented o depth []

theorem blank_bodyEnd (ho : o.Plain) (depth : Nat) (body : Text) :
    ∀ c ∈ bodyEnd o depth body, isAsciiBlank c := by
  intro c hc
  unfold bodyEnd at hc
  split at hc
  · cases hc
  · rcases List.mem_append.1 hc with h | h
    · exact ho.blank_eol c h
    · exact (ho.of_mem_indented h).1

theorem relaid_laidBody (ho : o.Plain) {a y : Text} (depth : Nat) (body : Text) (ha : ['>'] <:+ a)
    (hy : ∀ c ∈ y.head?, c = '<') (hw : Blank w) :
    Relaid y a body (laidBody o depth body ++ w) := by
  unfold laidBody
  split
  · next h => exact .blank (.before hy) (List.all_eq_true.1 h) hw
  · next h => exact relaid_body ho (depth + 1) (by simpa using h) ha hy hw

theorem contentElement_laidBody (ho : o.Plain) (depth : Nat) (body : Text) (hw : Blank w)
    (slice close : Text) (p : Page) : p.contentElement o slice (laidBody o depth body ++ w) close =
      p.contentElement o slice body close := by
  have hdedent : dedent (laidBody o depth body ++ w) = dedent body := by
    unfold laidBody
    split
    · next h =>
      rw [List.nil_append, dedent_eq_nil_iff.2 (List.all_eq_true.2 hw), dedent_eq_nil_iff.2 h]
    · exact dedent_laidLines ho (depth + 1) body hw
  have hblank : isBlankText (laidBody o depth body ++ w) = isBlankText body := by
    rw [Bool.eq_iff_iff, ← dedent_eq_nil_iff, hdedent, dedent_eq_nil_iff]
  unfold Page.contentElement
  rw [hdedent, hblank]

theorem intercalate_bodyLines (lines : List Text) (hblank : p.blank = 0) (hline : p.line = [])
    (hlines : p.lines ≠ #[]) : (p.bodyLines o lines).line = [] ∧ (p.bodyLines o lines).blank = 0 ∧
      (p.bodyLines o lines).lines ≠ #[] ∧ (p.bodyLines o lines).depth = p.depth ∧
      o.eol.intercalate (p.bodyLines o lines).lines.toList =
        o.eol.intercalate p.lines.toList ++ laidLines o (p.depth + 1) lines := by
  unfold Page.bodyLines
  induction lines generalizing p with
  | nil => exact ⟨hline, hblank, hlines, rfl, (List.append_nil _).symm⟩
  | cons line lines ih =>
    rw [List.foldl_cons]
    split
    · next hempty =>
      obtain ⟨hline', hblank', hlines', hdepth, hjoin⟩ :=
        ih (p := { p with lines := p.lines.push [] }) hblank hline (by simp)
      refine ⟨hline', hblank', hlines', hdepth, hjoin.trans ?_⟩
      rw [Array.toList_push, intercalate_concat, if_neg (by simpa using hlines)]
      simp [laidLines, indentedLine, List.isEmpty_iff.1 hempty]
    · next hempty =>
      have hpush := Page.lines_emitAt (o := o) hblank (p.depth + 1) line
      obtain ⟨hline', hblank', hlines', hdepth, hjoin⟩ :=
        ih (p := p.emitAt o (p.depth + 1) line) rfl hline
          (fun h => by rw [h] at hpush; simp at hpush)
      refine ⟨hline', hblank', hlines', hdepth, hjoin.trans ?_⟩
      have hlaid : laidLines o (p.depth + 1) (line :: lines) =
          o.eol ++ Page.indented o (p.depth + 1) line ++ laidLines o (p.depth + 1) lines := by
        rw [laidLines, List.flatMap_cons, indentedLine, if_neg hempty]
        rfl
      rw [hpush, intercalate_concat, if_neg (by simpa using hlines), hlaid]
      exact List.append_assoc _ _ _

theorem output_contentElement (hp : p.blank = 0) (slice body close : Text) :
    ((p.flush o).contentElement o slice body close).line = [] ∧
      ((p.flush o).contentElement o slice body close).blank = 0 ∧
      ((p.flush o).contentElement o slice body close).output o = p.output o ++
        (p.lineStart o p.depth ++ (slice ++ (laidBody o p.depth body ++
          ((if close.isEmpty then [] else bodyEnd o p.depth body) ++ close)))) := by
  have hdepth : (p.flush o).depth = p.depth := Page.depth_flush p
  have hemit : ∀ s, (p.flush o).emit o s = (p.flush o).emitAt o p.depth s := fun s => by
    rw [Page.emit, hdepth]
  by_cases hbody : isBlankText body
  · have hpage : (p.flush o).contentElement o slice body close =
        (p.flush o).emitAt o p.depth (slice ++ close) := by
      rw [Page.contentElement, if_pos hbody, hemit]
    rw [hpage, Page.output_emitAt hp, laidBody, bodyEnd, if_pos hbody, if_pos hbody, ite_self]
    exact ⟨p.line_flush, rfl, rfl⟩
  · have hopen : ((p.flush o).emitAt o p.depth slice).lines ≠ #[] := by
      intro h
      have hlines := Page.lines_emitAt (o := o) (Page.blank_flush (o := o) hp) p.depth slice
      rw [h] at hlines
      simp at hlines
    have hopened := Page.output_emitAt (o := o) hp p.depth slice
    rw [Page.output_of_line_nil (p := (p.flush o).emitAt o p.depth slice) p.line_flush] at hopened
    obtain ⟨hline, hblank, hlines, hdepth', hjoin⟩ := intercalate_bodyLines (o := o) (dedent body)
      (p := (p.flush o).emitAt o p.depth slice) rfl p.line_flush hopen
    have hbodyDepth : ((p.flush o).emitAt o p.depth slice).depth = p.depth := hdepth
    rw [hopened, hbodyDepth] at hjoin
    rw [hbodyDepth] at hdepth'
    rw [Page.contentElement, if_neg hbody, hemit, laidBody, bodyEnd, if_neg hbody, if_neg hbody]
    dsimp only
    split
    · next hclose =>
      refine ⟨hline, hblank, ?_⟩
      rw [Page.output_of_line_nil hline, hjoin, List.isEmpty_iff.1 hclose]
      simp [List.append_assoc]
    · refine ⟨hline, rfl, ?_⟩
      rw [Page.emit, Page.output_of_line_nil (p := Page.emitAt o _ close _) hline,
        Page.intercalate_emitAt hblank, if_neg (by simpa using hlines), hjoin, hdepth',
        Page.indented_eq_append p.depth close]
      simp [List.append_assoc]

end PatternBridge.Markup
