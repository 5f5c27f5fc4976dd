import PatternBridge.Proofs.Markup.Output
import PatternBridge.Proofs.Markup.Reads

/-! Formatting text that is formatted in part. The text printed so far with the rest of the source
behind it is printed as the source is, and the white space between the two may become what the
printer puts there. -/

namespace PatternBridge.Markup
open Text

variable {o : Options} {s t u v w w' r slice : Text} {p p' : Page} {K K' : List Token}

/-- What goes by the tokens that follow goes the same way before `K'` as before `K`. -/
structure Follows (o : Options) (K K' : List Token) : Prop where
  body : ∀ name, inlineBody? o name K = none → inlineBody? o name K' = none
  close : ∀ name, closingTag name K = ([], K) → closingTag name K' = ([], K')
  raw : rawBody K' = ([], K')

theorem rawBody_of_not_raw {tok : Token} (h : ∀ s, tok ≠ .raw s) (K : List Token) :
    rawBody (tok :: K) = ([], tok :: K) := by
  cases tok with
  | raw s => exact absurd rfl (h s)
  | _ => rfl

theorem rawBody_cells (o : Options) (s : Text) : rawBody (cells o s) = ([], cells o s) := by
  cases s with
  | nil =>
    rw [cells_nil]
    rfl
  | cons c s =>
    cases hread : readToken? (c :: s) with
    | none =>
      obtain ⟨t, rest, hcells⟩ := exists_addCell c (cells o s)
      rw [cells_cons hread, hcells]
      rfl
    | some split =>
      have hmark := isMark_of_readToken? hread
      rw [cells, tokens_of_readToken? hread, cellsOf_cons fun t ht => by rw [ht] at hmark; cases hmark]
      exact rawBody_of_not_raw (fun t ht => by rw [ht] at hmark; cases hmark) _

namespace Follows

theorem refl (s : Text) : Follows o (cells o s) (cells o s) :=
  ⟨fun _ => id, fun _ => id, rawBody_cells o s⟩

theorem closingTag_closing (name n s : Text) (K : List Token) :
    closingTag name (.closing n s :: K) =
      if n == name then (s, K) else ([], .closing n s :: K) := rfl

theorem cons (ho : o.Plain) {tok : Token} (htok : ∀ s, tok ≠ .raw s) (h : Follows o K K') :
    Follows o (tok :: K) (tok :: K') where
  body := by
    intro name hnone
    by_cases hclosing : ∃ s, tok = .closing name s
    · obtain ⟨s, rfl⟩ := hclosing
      rw [inlineBody?_closing] at hnone
      cases hnone
    · have hname : ∀ s, tok ≠ .closing name s := fun s hs => hclosing ⟨s, hs⟩
      rw [inlineBody?_cons ho.newlines hname] at hnone ⊢
      split at hnone
      · next hinline =>
        rw [if_pos hinline, h.body name (Option.map_eq_none_iff.1 hnone)]
        rfl
      · next hinline => rw [if_neg hinline]
  close := by
    intro name hclose
    cases tok with
    | closing n s =>
      rw [closingTag_closing] at hclose ⊢
      split at hclose
      · exact absurd (congrArg (fun split => split.2.length) hclose) (by simp)
      · next hn => rw [if_neg hn]
    | _ => rfl
  raw := rawBody_of_not_raw htok K'

end Follows

def gapCells (w : Text) : List Token := if w.isEmpty then [] else [.text w]

theorem cells_gap_append (hw : ∀ c ∈ w, isAsciiBlank c) (hv : ∀ c ∈ v.head?, isAsciiBlank c = false) :
    cells o (w ++ v) = gapCells w ++ cells o v := by
  unfold gapCells
  split
  · next h => rw [List.isEmpty_iff.1 h]; rfl
  · next h => exact cells_blank_append hw (by simpa using h) hv

theorem reads_gapCells (hw : ∀ c ∈ w, isAsciiBlank c) (hv : ∀ c ∈ v.head?, isAsciiBlank c = false) :
    Reads o w v (gapCells w) := by
  unfold gapCells
  split
  · next h => rw [List.isEmpty_iff.1 h]; exact .nil v
  · next h =>
    have hgap := Reads.gap (o := o) (a := []) hw (by simpa using h) hv (.nil v)
    rwa [List.append_nil] at hgap

theorem Follows.gap (ho : o.Plain) (h : Follows o K K') (hkept : w' = [] → w = [] ∨ K = []) :
    Follows o (gapCells w ++ K) (gapCells w' ++ K') := by
  have htext {w : Text} (hw : ¬ w.isEmpty) : gapCells w = [.text w] := if_neg hw
  have hbody (w : Text) (K : List Token) (name : Text) :
      inlineBody? o name (gapCells w ++ K) = none ↔ inlineBody? o name K = none := by
    unfold gapCells
    split
    · rfl
    · rw [List.singleton_append, inlineBody?_cons ho.newlines (fun _ h => by cases h),
        if_pos (show isInlineToken o (.text w) from rfl), Option.map_eq_none_iff]
  refine ⟨fun name hnone => ?_, fun name hclose => ?_, ?_⟩
  · rw [hbody] at hnone ⊢
    exact h.body name hnone
  · by_cases hw' : w'.isEmpty
    · have hclose' : closingTag name K = ([], K) := by
        rcases hkept (List.isEmpty_iff.1 hw') with rfl | rfl
        · exact hclose
        · rfl
      have happ := h.close name hclose'
      rwa [List.isEmpty_iff.1 hw']
    · rw [htext hw']
      rfl
  · by_cases hw' : w'.isEmpty
    · rw [List.isEmpty_iff.1 hw']
      exact h.raw
    · rw [htext hw']
      rfl

def Page.pad (w : Text) (p : Page) : Text := if p.line.isEmpty || w.isEmpty then [] else " "

theorem blank_pad (w : Text) (p : Page) : ∀ c ∈ p.pad w, isAsciiBlank c := by
  unfold Page.pad
  split
  · exact List.forall_mem_nil _
  · exact List.all_eq_true.1 rfl

theorem printTokens_gapCells (ho : o.Plain) (hw : ∀ c ∈ w, isAsciiBlank c) (p : Page)
    (K : List Token) : printTokens o p (gapCells w ++ K) = printTokens o (p.inline (p.pad w)) K := by
  unfold gapCells Page.pad
  cases hempty : w.isEmpty with
  | true =>
    rw [Bool.or_true, if_pos rfl, if_pos rfl, inline_nil]
    rfl
  | false =>
    rw [if_neg Bool.false_ne_true, Bool.or_false, List.singleton_append, printTokens_text,
      text_of_all_blank ho.newlines hw]
    split
    · rw [inline_nil]
    · rfl

/-- White space between `t` and `v` may be `w'` where it was `w`. -/
structure Gap (t w w' v : Text) : Prop where
  blank : ∀ c ∈ w', isAsciiBlank c
  alters : Alters t (w ++ v) (w' ++ v)
  kept : w' = [] → w = [] ∨ v = [] ∨ t = []

/-- The opening braces at the end of `t` stand at the end of `t'`. -/
def Braces (t t' : Text) : Prop :=
  ∀ m, m = "\x7b".toList ∨ m = "\x7b\x7b".toList → m <:+ t → m <:+ t'

/-- Between `t`, which was printed onto `p`, and the rest `v` of the source there is white space that
is still to be printed; `lead` is what it puts onto the current line. -/
structure Seam (o : Options) (s t w v : Text) (p : Page) (lead : Text) : Prop where
  tidy : p.Tidy
  output : p.output o = t
  blank : ∀ c ∈ w, isAsciiBlank c
  nonblank : ∀ c ∈ v.head?, isAsciiBlank c = false
  source : printTokens o {} (cells o s) = printTokens o (p.inline lead) (cells o v)
  read : ∀ w', Gap t w w' v → ∃ T, Reads o (t ++ w') v T ∧ ∀ K, Follows o (cells o v) K →
    ∃ x, (∀ c ∈ x, isAsciiBlank c) ∧ (p.line ≠ [] → w' = lead → x = lead) ∧
      printTokens o {} (T ++ K) = printTokens o (p.inline x) K
  leads : p.line ≠ [] → t ≠ [] ∧ (∀ c ∈ lead, isAsciiBlank c) ∧ Gap t w lead v
  free : p.line = [] → lead = [] ∧ ∀ w', (∀ c ∈ w', isAsciiBlank c) → (t ≠ [] → w' ≠ []) →
    Gap t w w' v
  done : ∃ done, cells o s = done ++ cells o v ∧
    (v.head? = some '{' → w = [] → Braces t (slices done))

/-- All of `t` was printed onto `p`, and the rest of the source is `u`. -/
structure Front (o : Options) (s t u : Text) (p : Page) : Prop where
  tidy : p.Tidy
  output : p.output o = t
  nonempty : t ≠ []
  source : printTokens o {} (cells o s) = printTokens o p (cells o u)
  read : ∃ T, Reads o t u T ∧ Settled o T ∧ ∀ K, Follows o (cells o u) K →
    printTokens o {} (T ++ K) = printTokens o p K
  ends : p.line = [] → ['>'] <:+ t ∨ "\x7d\x7d".toList <:+ t
  done : ∃ done, cells o s = done ++ cells o u ∧ Braces t (slices done)

theorem exists_blank_append (s : Text) : ∃ w v, s = w ++ v ∧ (∀ c ∈ w, isAsciiBlank c) ∧
    ∀ c ∈ v.head?, isAsciiBlank c = false := by
  refine ⟨s.takeWhile isAsciiBlank, s.dropWhile isAsciiBlank,
    List.takeWhile_append_dropWhile.symm, fun c => List.mem_takeWhile_imp, fun c hc => ?_⟩
  have hnot := List.head?_dropWhile_not isAsciiBlank s
  rw [Option.mem_def.1 hc] at hnot
  simpa using hnot

theorem blank_of_ascii (hw : ∀ c ∈ w, isAsciiBlank c) : Blank w := fun c hc =>
  isBlank_of_isAsciiBlank (hw c hc)

theorem exists_seam_start (ho : o.Plain) (s : Text) : ∃ w v, s = w ++ v ∧ Seam o s [] w v {} [] := by
  obtain ⟨w, v, hs, hw, hv⟩ := exists_blank_append s
  have hgap {w' : Text} (hw' : ∀ c ∈ w', isAsciiBlank c) : Gap [] w w' v :=
    ⟨hw', (Slack.start rfl).alters (blank_of_ascii hw) (blank_of_ascii hw'), fun _ => .inr (.inr rfl)⟩
  refine ⟨w, v, hs, Page.tidy_start, rfl, hw, hv, ?_, fun w' hw' => ⟨gapCells w', ?_, fun K _ => ⟨[], ?_⟩⟩,
    fun h => absurd rfl h, fun _ => ⟨rfl, fun w' hw' _ => hgap hw'⟩, gapCells w, ?_, fun _ _ m hm h => ?_⟩
  · rw [hs, cells_gap_append hw hv, printTokens_gapCells ho hw]
    rfl
  · exact reads_gapCells hw'.blank hv
  · exact ⟨fun _ h => absurd h List.not_mem_nil, fun _ _ => rfl, printTokens_gapCells ho hw'.blank _ _⟩
  · rw [hs, cells_gap_append hw hv]
  · rcases hm with rfl | rfl <;> exact absurd (List.suffix_nil.1 h) (by decide)

theorem Front.exists_seam (ho : o.Plain) (h : Front o s t u p) :
    ∃ w v lead, u = w ++ v ∧ Seam o s t w v p lead := by
  obtain ⟨w, v, rfl, hw, hv⟩ := exists_blank_append u
  obtain ⟨T, hread, hsettled, hprint⟩ := h.read
  obtain ⟨done, hdone, hbraces⟩ := h.done
  have hcells := cells_gap_append (o := o) hw hv
  refine ⟨w, v, p.pad w, rfl, h.tidy, h.output, hw, hv, ?_, fun w' hw' => ⟨T ++ gapCells w', ?_, fun K hK => ?_⟩,
    fun hline => ⟨h.nonempty, blank_pad w p, ?_⟩, fun hline => ⟨?_, fun w' hw' hne => ?_⟩,
    done ++ gapCells w, ?_, fun _ hnil => ?_⟩
  · rw [h.source, hcells, printTokens_gapCells ho hw]
  · have hread' := hread.alter (z := []) (by simpa using hw'.alters) fun _ => hsettled
    exact Reads.append hread' (reads_gapCells hw'.blank hv)
  · have hK' : Follows o (cells o (w ++ v)) (gapCells w' ++ K) := by
      rw [hcells]
      refine hK.gap ho fun hnil => ?_
      obtain h₁ | h₁ | h₁ := hw'.kept hnil
      · exact .inl h₁
      · exact .inr (by rw [h₁, cells_nil])
      · exact absurd h₁ h.nonempty
    refine ⟨p.pad w', blank_pad w' p, fun hline hlead => ?_, ?_⟩
    · rw [hlead]
      unfold Page.pad
      cases w <;> simp [hline]
    · rw [List.append_assoc, hprint _ hK', printTokens_gapCells ho hw'.blank]
  · by_cases hnil : w = []
    · subst hnil
      have hpad : p.pad [] = [] := by simp [Page.pad]
      rw [hpad]
      exact ⟨fun _ h => absurd h List.not_mem_nil, .refl _ _, fun _ => .inl rfl⟩
    · have hpad : p.pad w = [' '] := by simp [Page.pad, hline, hnil]
      refine ⟨blank_pad w p, ?_, fun h => ?_⟩
      · exact (Slack.between hnil (by rw [hpad]; exact List.cons_ne_nil _ _)).alters
          (blank_of_ascii hw) (blank_of_ascii (blank_pad w p))
      · rw [hpad] at h
        cases h
  · simp [Page.pad, hline]
  · have hne' := hne h.nonempty
    refine ⟨hw', ?_, fun h => absurd h hne'⟩
    by_cases hnil : w = []
    · exact (Slack.behind hnil hne' (h.ends hline)).alters (blank_of_ascii hw) (blank_of_ascii hw')
    · exact (Slack.between hnil hne').alters (blank_of_ascii hw) (blank_of_ascii hw')
  · rw [hdone, hcells, List.append_assoc]
  · rwa [hnil, gapCells, if_pos List.isEmpty_nil, List.append_nil]

namespace Seam

theorem blank_lead (h : Seam o s t w v p lead) : ∀ c ∈ lead, isAsciiBlank c := by
  by_cases hline : p.line = []
  · rw [(h.free hline).1]
    exact fun _ hc => absurd hc List.not_mem_nil
  · exact (h.leads hline).2.1

theorem finish (ho : o.Plain) (h : Seam o s t w [] p lead) :
    printTokens o {} (cells o (beautify o s)) = printTokens o {} (cells o s) := by
  have hflush {x : Text} (hx : ∀ c ∈ x, isAsciiBlank c) :
      printTokens o (p.inline x) (cells o []) = p.flush o := by
    rw [cells_nil, printTokens, Page.flush_inline_blank p hx]
  have hsource := h.source.trans (hflush h.blank_lead)
  obtain ⟨w', hbeautify, hw'⟩ : ∃ w', beautify o s = t ++ w' ∧ ∀ c ∈ w', isAsciiBlank c := by
    rw [beautify, printed_tokens ho.newlines, hsource, assemble, ← h.output, Page.output]
    split
    · next hempty =>
      rw [List.isEmpty_iff.1 hempty]
      exact ⟨[], rfl, fun _ hc => absurd hc List.not_mem_nil⟩
    · refine ⟨_, rfl, fun c hc => ?_⟩
      split at hc
      · exact ho.blank_eol c hc
      · cases hc
  have hgap : Gap t w w' [] :=
    ⟨hw', (Slack.before fun _ hc => by cases hc).alters (blank_of_ascii h.blank) (blank_of_ascii hw'),
      fun _ => .inr (.inl rfl)⟩
  obtain ⟨T, hread, hprint⟩ := h.read w' hgap
  obtain ⟨x, hx, -, hK⟩ := hprint _ (.refl [])
  have hcells := hread.cells_eq
  rw [List.append_nil] at hcells
  rw [hbeautify, hcells, hK, hflush hx, hsource]

end Seam

theorem slices_textCells (s : Text) : slices (textCells s) = s := by
  induction s using text_induction with
  | nil => rfl
  | char c s hc ih =>
    rw [textCells_cons hc]
    exact congrArg (c :: ·) ih
  | blank w s hw hne hs ih =>
    rw [textCells_blank_append hw hne hs]
    exact congrArg (w ++ ·) ih

theorem slices_cellsOf (toks : List Token) : slices (cellsOf toks) = slices toks := by
  induction toks with
  | nil => rfl
  | cons tok toks ih =>
    have hcons : slices (cellsOf (tok :: toks)) = tok.slice ++ slices (cellsOf toks) := by
      by_cases htext : ∃ s, tok = .text s
      · obtain ⟨s, rfl⟩ := htext
        rw [cellsOf_text, slices_append, slices_textCells]
        rfl
      · rw [cellsOf_cons fun s hs => htext ⟨s, hs⟩]
        rfl
    rw [hcons, ih]
    rfl

theorem slices_cells (o : Options) (s : Text) : slices (cells o s) = s := by
  rw [cells, slices_cellsOf, slices_tokens]

/-- Behind its first part `slice`, a piece of the source in front of `r` is `m'` in the output where it
was `m`, and the cells of it are `T` where they were `taken`. -/
structure Piece (o : Options) (r slice m m' : Text) (taken T : List Token) : Prop where
  cells : cells o (slice ++ (m ++ r)) = taken ++ cells o r
  reads : Reads o (slice ++ m') r T
  nonempty : slice ≠ []
  hasCells : T ≠ []
  settled : Settled o T
  follows : ∀ K, Follows o (Markup.cells o r) K → Follows o (taken ++ Markup.cells o r) (T ++ K)

/-- From the page `p` with any white space behind it that `w'` may put there, the cells are printed
to `p'`. -/
def PrintsTo (o : Options) (r : Text) (p : Page) (w' lead : Text) (L : List Token) (p' : Page) :
    Prop :=
  ∀ K x, Follows o (cells o r) K → (∀ c ∈ x, isAsciiBlank c) → (p.line ≠ [] → w' = lead → x = lead) →
    printTokens o (p.inline x) (L ++ K) = printTokens o p' K

theorem braces_of_ends (h : ['>'] <:+ t ∨ "\x7d\x7d".toList <:+ t) (t' : Text) : Braces t t' := by
  have hlast (c : Char) (hc : c = '>' ∨ c = '}') (hct : [c] <:+ t) : Braces t t' := by
    rintro m hm hsuffix
    have hbrace : ['{'] <:+ t := by
      rcases hm with rfl | rfl
      · exact hsuffix
      · exact List.IsSuffix.trans ⟨['{'], rfl⟩ hsuffix
    obtain ⟨front, hfront⟩ := hct
    obtain ⟨front', hfront'⟩ := hbrace
    have heq := (List.append_inj' (hfront.trans hfront'.symm) rfl).2
    rcases hc with rfl | rfl <;> exact absurd heq (by decide)
  rcases h with h | h
  · exact hlast '>' (.inl rfl) h
  · exact hlast '}' (.inr rfl) (List.IsSuffix.trans ⟨['}'], rfl⟩ h)

theorem braces_concat {D : Text} {c : Char} (hgap : Gap t w w' (c :: r))
    (h : c = '{' → w = [] → Braces t D) : Braces (t ++ (w' ++ [c])) (D ++ [c]) := by
  have hlast {m : Text} (hm : m ++ ['{'] <:+ t ++ (w' ++ [c])) : c = '{' ∧ m <:+ t ++ w' := by
    obtain ⟨front, hfront⟩ := hm
    rw [← List.append_assoc, ← List.append_assoc] at hfront
    obtain ⟨hinit, hc⟩ := List.append_inj' hfront rfl
    exact ⟨(List.cons.inj hc).1.symm, ⟨front, hinit⟩⟩
  rintro m (rfl | rfl) hsuffix
  · obtain ⟨rfl, -⟩ := hlast (m := []) hsuffix
    exact List.suffix_append D _
  · obtain ⟨rfl, hbefore⟩ := hlast (m := ['{']) hsuffix
    have hw' : w' = [] := by
      rcases List.eq_nil_or_concat w' with rfl | ⟨w₁, d, rfl⟩
      · rfl
      · obtain ⟨front, hfront⟩ := hbefore
        rw [List.concat_eq_append, ← List.append_assoc] at hfront
        have hd := (List.append_inj' hfront rfl).2
        have hblank := hgap.blank d (by simp)
        rw [← (List.cons.inj hd).1] at hblank
        exact absurd hblank (by decide)
    rw [hw', List.append_nil] at hbefore
    obtain hw | hv | ht := hgap.kept hw'
    · obtain ⟨front, hfront⟩ := h rfl hw ['{'] (.inl rfl) hbefore
      exact ⟨front, by rw [← hfront, List.append_assoc]; rfl⟩
    · cases hv
    · rw [ht] at hbefore
      exact absurd (List.suffix_nil.1 hbefore) (by decide)

/-- A piece of the source is printed behind white space. -/
theorem Seam.step {m m' : Text} {taken T : List Token}
    (h : Seam o s t w (slice ++ (m ++ r)) p lead) (hpiece : Piece o r slice m m' taken T)
    (hgap : Gap t w w' (slice ++ (m ++ r))) (hm : Alters (t ++ w' ++ slice) (m ++ r) (m' ++ r))
    (hsource : printTokens o (p.inline lead) (taken ++ cells o r) = printTokens o p' (cells o r))
    (hprint : PrintsTo o r p w' lead T p')
    (htidy : p'.Tidy) (houtput : p'.output o = t ++ (w' ++ (slice ++ m')))
    (hends : (['>'] <:+ slice ++ m' ∨ "\x7d\x7d".toList <:+ slice ++ m') ∨
      p'.line ≠ [] ∧ ∃ c, slice = [c] ∧ m = [] ∧ m' = []) :
    Front o s (t ++ (w' ++ (slice ++ m'))) r p' := by
  obtain ⟨T₁, hread, hT₁⟩ := h.read w' hgap
  obtain ⟨done, hdone, hbraces⟩ := h.done
  have hbehind {mark : Text} (hmark : mark <:+ slice ++ m') : mark <:+ t ++ (w' ++ (slice ++ m')) :=
    (hmark.trans (List.suffix_append w' _)).trans (List.suffix_append t _)
  refine ⟨htidy, houtput, by simp [hpiece.nonempty], ?_, ⟨T₁ ++ T, ?_, hpiece.settled.append hpiece.hasCells,
    fun K hK => ?_⟩, fun hline => ?_, done ++ taken, ?_, ?_⟩
  · rw [h.source, hpiece.cells, hsource]
  · have hread' := hread.alter hm fun hnil => absurd hnil hpiece.nonempty
    rw [← List.append_assoc t w' _]
    refine Reads.append ?_ hpiece.reads
    rwa [List.append_assoc]
  · have hK' := hpiece.follows K hK
    rw [← hpiece.cells] at hK'
    obtain ⟨x, hx, hlead, hprinted⟩ := hT₁ _ hK'
    rw [List.append_assoc, hprinted]
    exact hprint K x hK hx hlead
  · obtain hends | ⟨hne, -⟩ := hends
    · exact hends.imp hbehind hbehind
    · exact absurd hline hne
  · rw [hdone, hpiece.cells, List.append_assoc]
  · obtain hends | ⟨-, c, rfl, rfl, rfl⟩ := hends
    · exact braces_of_ends (hends.imp hbehind hbehind) _
    · have htaken : slices taken = [c] := by
        have hslices := congrArg slices hpiece.cells
        rw [slices_cells, slices_append, slices_cells] at hslices
        exact (List.append_cancel_right hslices).symm
      rw [slices_append, htaken]
      refine braces_concat hgap fun hc => hbraces ?_
      rw [hc]
      rfl

end PatternBridge.Markup
