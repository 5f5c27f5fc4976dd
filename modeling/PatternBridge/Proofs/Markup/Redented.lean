import PatternBridge.Proofs.Markup.Output
import PatternBridge.Proofs.Markup.Respacing

/-! A body that was laid out anew has the same lines without their common indentation. -/

namespace PatternBridge.Text

section
variable {α β : Type} {p : α → Bool} {q : β → Bool}

theorem exists_trimWith (p : α → Bool) (s : List α) :
    ∃ front back, s = front ++ (trimWith p s ++ back) ∧ (∀ c ∈ front, p c) ∧ ∀ c ∈ back, p c := by
  refine ⟨s.takeWhile p, ((s.dropWhile p).reverse.takeWhile p).reverse, ?_, fun c hc => ?_,
    fun c hc => ?_⟩
  · rw [trimWith, dropEndWhile_append_dropped, List.takeWhile_append_dropWhile]
  · exact List.mem_takeWhile_imp hc
  · exact List.mem_takeWhile_imp (List.mem_reverse.1 hc)

theorem exists_concat_dropEndWhile {s : List α} (h : dropEndWhile p s ≠ []) :
    ∃ t c, dropEndWhile p s = t ++ [c] ∧ p c = false := by
  unfold dropEndWhile at h ⊢
  cases hdrop : s.reverse.dropWhile p with
  | nil => simp [hdrop] at h
  | cons c t =>
    have hc := List.head?_dropWhile_not p s.reverse
    rw [hdrop] at hc
    exact ⟨t.reverse, c, List.reverse_cons, by simpa using hc⟩

theorem ends_trimWith {s : List α} (h : trimWith p s ≠ []) :
    (∃ c t, trimWith p s = c :: t ∧ p c = false) ∧
      ∃ t c, trimWith p s = t ++ [c] ∧ p c = false := by
  refine ⟨?_, exists_concat_dropEndWhile h⟩
  obtain ⟨c, t, hdrop⟩ : ∃ c t, s.dropWhile p = c :: t := by
    refine List.exists_cons_of_ne_nil fun hnil => h ?_
    rw [trimWith, hnil]
    rfl
  have hc := List.head?_dropWhile_not p s
  rw [hdrop] at hc
  obtain ⟨d, u, htrim⟩ := List.exists_cons_of_ne_nil h
  have happend := dropEndWhile_append_dropped p (s.dropWhile p)
  rw [← trimWith, htrim, hdrop] at happend
  obtain rfl := (List.cons.inj happend).1
  exact ⟨d, u, htrim, by simpa using hc⟩

theorem trimWith_trimWith (p : α → Bool) (s : List α) :
    trimWith p (trimWith p s) = trimWith p s := by
  by_cases h : trimWith p s = []
  · rw [h]
    rfl
  · exact trimWith_of_ends (ends_trimWith h).1 (ends_trimWith h).2

theorem trimWith_map {f : α → β} {s : List α} (h : ∀ c ∈ s, q (f c) = p c) :
    trimWith q (s.map f) = (trimWith p s).map f := by
  have hdrop {t : List α} (ht : ∀ c ∈ t, q (f c) = p c) :
      (t.map f).dropWhile q = (t.dropWhile p).map f := by
    induction t with
    | nil => rfl
    | cons c t ih =>
      rw [List.map_cons, List.dropWhile_cons, List.dropWhile_cons, ht c List.mem_cons_self]
      split
      · exact ih fun d hd => ht d (List.mem_cons_of_mem _ hd)
      · rfl
  have hsub : ∀ c ∈ (s.dropWhile p).reverse, q (f c) = p c := fun c hc =>
    h c ((List.dropWhile_suffix p).subset (List.mem_reverse.1 hc))
  rw [trimWith, trimWith, hdrop h, dropEndWhile, dropEndWhile, ← List.map_reverse, hdrop hsub,
    List.map_reverse]

end

theorem trimEnd_append_of_blank (s : Text) {w : Text} (hw : ∀ c ∈ w, isBlank c) :
    trimEnd (s ++ w) = trimEnd s := by
  unfold trimEnd dropEndWhile
  rw [List.reverse_append, List.dropWhile_append_of_pos fun c hc => hw c (List.mem_reverse.1 hc)]

theorem trimEnd_concat (s : Text) {c : Char} (hc : isBlank c = false) :
    trimEnd (s ++ [c]) = s ++ [c] := by
  unfold trimEnd dropEndWhile
  rw [List.reverse_append, List.reverse_singleton, List.singleton_append, List.dropWhile_cons,
    if_neg (by simp [hc]), List.reverse_cons, List.reverse_reverse]

theorem exists_trimEnd (s : Text) : ∃ w, s = trimEnd s ++ w ∧ ∀ c ∈ w, isBlank c :=
  ⟨(s.reverse.takeWhile isBlank).reverse, (dropEndWhile_append_dropped isBlank s).symm,
    fun _ hc => List.mem_takeWhile_imp (List.mem_reverse.1 hc)⟩

theorem exists_concat_trimEnd {s : Text} (h : trimEnd s ≠ []) :
    ∃ t c, trimEnd s = t ++ [c] ∧ isBlank c = false := exists_concat_dropEndWhile h

theorem isBlankText_intercalate {mark : Text} (hmark : isBlankText mark) {lines : List Text}
    (h : ∀ line ∈ lines, isBlankText line) : isBlankText (mark.intercalate lines) := by
  induction lines using List.twoStepInduction with
  | nil => rfl
  | singleton p =>
    rw [List.intercalate_singleton]
    exact h p List.mem_cons_self
  | cons_cons p q rest _ ih =>
    have hrest := ih q fun line hline => h line (List.mem_cons_of_mem p hline)
    have hp := h p List.mem_cons_self
    unfold isBlankText at hmark hrest hp ⊢
    rw [List.intercalate_cons_cons, List.all_append, List.all_append, hp, hmark, hrest]
    rfl

theorem trimEnd_eq_nil_iff {s : Text} : trimEnd s = [] ↔ isBlankText s := by
  unfold trimEnd dropEndWhile isBlankText
  rw [List.reverse_eq_nil_iff, List.dropWhile_eq_nil_iff, List.all_eq_true]
  simp

end PatternBridge.Text

namespace PatternBridge.Markup
open Text

variable {o : Options} {s w : Text}

def trimmedLines (s : Text) : List Text := (s.splitOn '\n').map trimEnd

theorem bodyLines_eq (s : Text) : bodyLines s = trimWith List.isEmpty (trimmedLines s) := rfl

theorem trimmedLines_append (s t : Text) :
    trimmedLines (s ++ '\n' :: t) = trimmedLines s ++ trimmedLines t := by
  unfold trimmedLines List.splitOn
  rw [List.splitOnP_append_cons s t (by decide), List.map_append]

theorem trimmedLines_of_notMem (h : '\n' ∉ s) : trimmedLines s = [trimEnd s] := by
  have hsplit : s.splitOn '\n' = [s] := List.splitOnP_eq_singleton fun c hc => by
    simpa using ne_of_mem_of_not_mem hc h
  rw [trimmedLines, hsplit]
  rfl

theorem trimmedLines_of_blank (hw : Blank w) :
    trimmedLines w = List.replicate (trimmedLines w).length [] := by
  refine List.eq_replicate_iff.2 ⟨rfl, fun line hline => ?_⟩
  obtain ⟨piece, hpiece, rfl⟩ := List.mem_map.1 hline
  exact trimEnd_line_eq_nil (List.all_eq_true.2 hw) hpiece

theorem trimmedLines_append_blank (hs : '\n' ∉ s) (hw : Blank w) :
    ∃ n, trimmedLines (s ++ w) = trimEnd s :: List.replicate n [] := by
  by_cases hmem : '\n' ∈ w
  · obtain ⟨w₁, w₂, rfl, hw₁⟩ := List.eq_append_cons_of_mem hmem
    have hblank : Blank w₁ := fun c hc => hw c (List.mem_append_left _ hc)
    have hblank₂ : Blank w₂ := fun c hc => hw c (by simp [hc])
    refine ⟨(trimmedLines w₂).length, ?_⟩
    rw [← List.append_assoc, trimmedLines_append, trimmedLines_of_notMem (by simp [hs, hw₁]),
      trimEnd_append_of_blank s hblank, ← trimmedLines_of_blank hblank₂]
    rfl
  · refine ⟨0, ?_⟩
    rw [trimmedLines_of_notMem (by simp [hs, hmem]), trimEnd_append_of_blank s hw]
    rfl

theorem of_mem_bodyLines {line : Text} (h : line ∈ bodyLines s) :
    '\n' ∉ line ∧ (line ≠ [] → ∃ t c, line = t ++ [c] ∧ isBlank c = false) := by
  obtain ⟨front, back, hlines, -, -⟩ := exists_trimWith List.isEmpty (trimmedLines s)
  have hmem : line ∈ trimmedLines s := by
    rw [hlines, ← bodyLines_eq]
    exact List.mem_append_right _ (List.mem_append_left _ h)
  obtain ⟨piece, hpiece, rfl⟩ := List.mem_map.1 hmem
  refine ⟨fun hbreak => ?_, exists_concat_trimEnd⟩
  obtain ⟨w, hpieceEq, -⟩ := exists_trimEnd piece
  have hnot := notMem_of_mem_splitOn hpiece
  rw [hpieceEq] at hnot
  exact hnot (List.mem_append_left _ hbreak)

/-! Common indentation. -/

theorem leadingBlanks_append (hw : ∀ c ∈ w, isAsciiBlank c) (s : Text) :
    leadingBlanks (w ++ s) = w.length + leadingBlanks s := by
  rw [leadingBlanks, List.takeWhile_append_of_pos hw, List.length_append, leadingBlanks]

theorem exists_leadingBlanks {k : Nat} (h : k ≤ leadingBlanks s) :
    (∀ c ∈ s.take k, isAsciiBlank c) ∧ (s.take k).length = k := by
  have hstarts : s.take k <+: s.takeWhile isAsciiBlank :=
    List.prefix_of_prefix_length_le (List.take_prefix k s) (List.takeWhile_prefix _)
      (Nat.le_trans (List.length_take_le k s) h)
  have hlength : leadingBlanks s ≤ s.length := (List.takeWhile_prefix _).length_le
  exact ⟨fun c hc => List.mem_takeWhile_imp (hstarts.subset hc), by
    rw [List.length_take]
    omega⟩

theorem leadingBlanks_drop {k : Nat} (h : k ≤ leadingBlanks s) :
    leadingBlanks (s.drop k) = leadingBlanks s - k := by
  obtain ⟨hblank, hlength⟩ := exists_leadingBlanks h
  have happend := leadingBlanks_append hblank (s.drop k)
  rw [List.take_append_drop, hlength] at happend
  omega

theorem leadingBlanks_concat_le (t : Text) {c : Char} (hc : isBlank c = false) :
    leadingBlanks (t ++ [c]) ≤ t.length := by
  have hascii : isAsciiBlank c = false := by
    rw [Bool.eq_false_iff]
    intro h
    rw [isBlank_of_isAsciiBlank h] at hc
    cases hc
  unfold leadingBlanks
  rw [List.takeWhile_append]
  split
  · rw [List.takeWhile_cons, if_neg (by simp [hascii]), List.append_nil]
  · exact (List.takeWhile_prefix _).length_le

theorem exists_commonIndent {lines : List Text} (h : ∃ line ∈ lines, line ≠ []) :
    ∃ line ∈ lines, line ≠ [] ∧ leadingBlanks line = commonIndent lines := by
  obtain ⟨line, hline, hne⟩ := h
  unfold commonIndent
  cases hmin : ((lines.filter (!·.isEmpty)).map leadingBlanks).min? with
  | none =>
    have hmem : leadingBlanks line ∈ (lines.filter (!·.isEmpty)).map leadingBlanks :=
      List.mem_map_of_mem (List.mem_filter.2 ⟨hline, by simpa using hne⟩)
    simp [List.min?_eq_none_iff.1 hmin] at hmem
  | some n =>
    obtain ⟨least, hleast, rfl⟩ := List.mem_map.1 (List.min?_eq_some_iff.1 hmin).1
    obtain ⟨hmem, hne⟩ := List.mem_filter.1 hleast
    exact ⟨least, hmem, by simpa using hne, rfl⟩

theorem commonIndent_eq {lines : List Text} {n : Nat}
    (hle : ∀ line ∈ lines, line ≠ [] → n ≤ leadingBlanks line)
    (hex : ∃ line ∈ lines, line ≠ [] ∧ leadingBlanks line = n) : commonIndent lines = n := by
  obtain ⟨line, hline, hne, rfl⟩ := hex
  obtain ⟨least, hleast, hne', heq⟩ := exists_commonIndent ⟨line, hline, hne⟩
  exact Nat.le_antisymm (commonIndent_le hline hne) (heq ▸ hle least hleast hne')

theorem bodyLines_drop {line : Text} (h : line ∈ bodyLines s) (hne : line ≠ []) :
    commonIndent (bodyLines s) ≤ leadingBlanks line ∧
      ∃ t c, line.drop (commonIndent (bodyLines s)) = t ++ [c] ∧ isBlank c = false := by
  have hle := commonIndent_le h hne
  obtain ⟨t, c, rfl, hc⟩ := (of_mem_bodyLines h).2 hne
  refine ⟨hle, t.drop (commonIndent (bodyLines s)), c, ?_, hc⟩
  rw [List.drop_append_of_le_length (Nat.le_trans hle (leadingBlanks_concat_le t hc))]

theorem drop_eq_nil_iff {line : Text} (h : line ∈ bodyLines s) :
    line.drop (commonIndent (bodyLines s)) = [] ↔ line = [] := by
  refine ⟨fun hdrop => ?_, fun hnil => by rw [hnil, List.drop_nil]⟩
  by_contra hne
  obtain ⟨-, t, c, heq, -⟩ := bodyLines_drop h hne
  simp [heq] at hdrop

theorem of_mem_dedent {line : Text} (h : line ∈ dedent s) : '\n' ∉ line ∧
    (line ≠ [] → ∃ t c, line = t ++ [c] ∧ isBlank c = false) := by
  obtain ⟨l, hl, rfl⟩ := List.mem_map.1 h
  refine ⟨fun hmem => (of_mem_bodyLines hl).1 (List.mem_of_mem_drop hmem), fun hne => ?_⟩
  obtain ⟨-, t, c, heq, hc⟩ := bodyLines_drop hl (mt (drop_eq_nil_iff hl).2 hne)
  exact ⟨t, c, heq, hc⟩

theorem ends_bodyLines (h : bodyLines s ≠ []) :
    (∃ first rest, bodyLines s = first :: rest ∧ first ≠ []) ∧
      ∃ front last, bodyLines s = front ++ [last] ∧ last ≠ [] := by
  obtain ⟨⟨first, rest, hstart, hfirst⟩, front, last, hend, hlast⟩ :=
    ends_trimWith (s := trimmedLines s) h
  exact ⟨⟨first, rest, hstart, by simpa using hfirst⟩, front, last, hend, by simpa using hlast⟩

theorem forall_trimmedLines_eq_nil_iff :
    (∀ line ∈ trimmedLines s, line = []) ↔ isBlankText s := by
  refine ⟨fun h => ?_, fun h line hline => ?_⟩
  · have hpieces : ∀ piece ∈ s.splitOn '\n', isBlankText piece := fun piece hpiece =>
      trimEnd_eq_nil_iff.1 (h _ (List.mem_map_of_mem hpiece))
    have hjoin := isBlankText_intercalate (show isBlankText ['\n'] from rfl) hpieces
    rwa [List.intercalate_splitOn] at hjoin
  · obtain ⟨piece, hpiece, rfl⟩ := List.mem_map.1 hline
    exact trimEnd_line_eq_nil h hpiece

theorem bodyLines_eq_nil_iff : bodyLines s = [] ↔ isBlankText s := by
  obtain ⟨front, back, hlines, hfront, hback⟩ := exists_trimWith List.isEmpty (trimmedLines s)
  rw [← bodyLines_eq] at hlines
  rw [← forall_trimmedLines_eq_nil_iff]
  refine ⟨fun h line hline => ?_, fun h => ?_⟩
  · rw [hlines, h] at hline
    rcases List.mem_append.1 hline with hline | hline
    · exact List.isEmpty_iff.1 (hfront line hline)
    · exact List.isEmpty_iff.1 (hback line hline)
  · by_contra hne
    obtain ⟨⟨first, rest, heq, hfirst⟩, -⟩ := ends_bodyLines hne
    have hmem : first ∈ trimmedLines s := by
      rw [hlines, heq]
      exact List.mem_append_right _ (List.mem_append_left _ List.mem_cons_self)
    exact hfirst (h first hmem)

theorem dedent_eq_nil_iff : dedent s = [] ↔ isBlankText s :=
  List.map_eq_nil_iff.trans bodyLines_eq_nil_iff

theorem exists_mem_bodyLines (h : dedent s ≠ []) : ∃ line ∈ bodyLines s, line ≠ [] := by
  have hlines : bodyLines s ≠ [] := fun hnil => h (by rw [dedent, hnil]; rfl)
  obtain ⟨⟨first, rest, heq, hfirst⟩, -⟩ := ends_bodyLines hlines
  exact ⟨first, heq ▸ List.mem_cons_self, hfirst⟩

theorem commonIndent_dedent (h : dedent s ≠ []) : commonIndent (dedent s) = 0 := by
  obtain ⟨least, hleast, hne, hcommon⟩ := exists_commonIndent (exists_mem_bodyLines h)
  refine commonIndent_eq (fun _ _ _ => Nat.zero_le _)
    ⟨_, List.mem_map_of_mem hleast, mt (drop_eq_nil_iff hleast).1 hne, ?_⟩
  rw [leadingBlanks_drop (Nat.le_of_eq hcommon.symm), hcommon, Nat.sub_self]

theorem trimWith_dedent (s : Text) : trimWith List.isEmpty (dedent s) = dedent s := by
  have hempty : ∀ line ∈ bodyLines s,
      (line.drop (commonIndent (bodyLines s))).isEmpty = line.isEmpty := fun line hline => by
    rw [Bool.eq_iff_iff, List.isEmpty_iff, List.isEmpty_iff, drop_eq_nil_iff hline]
  exact (trimWith_map hempty).trans (congrArg _ (trimWith_trimWith _ _))

def shifted (w line : Text) : Text := if line.isEmpty then [] else w ++ line

theorem shifted_of_ne_nil {line : Text} (h : line ≠ []) (w : Text) : shifted w line = w ++ line :=
  if_neg (by simpa using h)

theorem isEmpty_shifted (w line : Text) : (shifted w line).isEmpty = line.isEmpty := by
  cases line with
  | nil => rfl
  | cons c line =>
    rw [shifted_of_ne_nil (List.cons_ne_nil c line), Bool.eq_iff_iff]
    simp

theorem trimWith_shifted (w s : Text) :
    trimWith List.isEmpty ((dedent s).map (shifted w)) = (dedent s).map (shifted w) := by
  rw [trimWith_map fun line _ => isEmpty_shifted w line, trimWith_dedent]

theorem of_mem_dedent_shifted (hw : '\n' ∉ w) {line : Text} (h : line ∈ dedent s) :
    '\n' ∉ shifted w line ∧ trimEnd (shifted w line) = shifted w line := by
  obtain ⟨hbreak, hlast⟩ := of_mem_dedent h
  by_cases hne : line = []
  · rw [hne]
    exact ⟨List.not_mem_nil, rfl⟩
  · obtain ⟨t, c, rfl, hc⟩ := hlast hne
    rw [shifted_of_ne_nil hne]
    refine ⟨fun hmem => (List.mem_append.1 hmem).elim hw hbreak, ?_⟩
    rw [← List.append_assoc, trimEnd_concat _ hc]

theorem commonIndent_shifted (hw : ∀ c ∈ w, isAsciiBlank c) {lines : List Text}
    (h : ∃ line ∈ lines, line ≠ []) :
    commonIndent (lines.map (shifted w)) = w.length + commonIndent lines := by
  have hlead {line : Text} (hne : line ≠ []) :
      leadingBlanks (shifted w line) = w.length + leadingBlanks line := by
    rw [shifted_of_ne_nil hne, leadingBlanks_append hw]
  refine commonIndent_eq (fun line hline hne => ?_) ?_
  · obtain ⟨l, hl, rfl⟩ := List.mem_map.1 hline
    have hne' : l ≠ [] := by
      rintro rfl
      exact hne rfl
    rw [hlead hne']
    exact Nat.add_le_add_left (commonIndent_le hl hne') _
  · obtain ⟨l, hl, hne, heq⟩ := exists_commonIndent h
    refine ⟨_, List.mem_map_of_mem hl, ?_, by rw [hlead hne, heq]⟩
    rw [shifted_of_ne_nil hne]
    simp [hne]

theorem dedent_of_shifted (hw : ∀ c ∈ w, isAsciiBlank c) {body : Text}
    (h : bodyLines body = (dedent s).map (shifted w)) : dedent body = dedent s := by
  by_cases hnil : dedent s = []
  · rw [dedent, h, hnil]
    rfl
  obtain ⟨line, hline, hne⟩ := exists_mem_bodyLines hnil
  have hex : ∃ line ∈ dedent s, line ≠ [] :=
    ⟨_, List.mem_map_of_mem hline, mt (drop_eq_nil_iff hline).1 hne⟩
  rw [dedent, h, commonIndent_shifted hw hex, commonIndent_dedent hnil, Nat.add_zero, List.map_map]
  refine List.map_id'' (fun line => ?_) _
  show (shifted w line).drop _ = line
  by_cases hempty : line = []
  · rw [hempty]
    exact List.drop_nil
  · rw [shifted_of_ne_nil hempty, List.drop_left]

def indentedLine (o : Options) (depth : Nat) (line : Text) : Text :=
  if line.isEmpty then [] else Page.indented o depth line

theorem indentedLine_eq_shifted (o : Options) (depth : Nat) :
    indentedLine o depth = shifted (Page.indented o depth []) := by
  funext line
  rw [indentedLine, Page.indented_eq_append, shifted]

def laidLines (o : Options) (depth : Nat) (lines : List Text) : Text :=
  lines.flatMap fun line => o.eol ++ indentedLine o depth line

section
variable (ho : o.Plain)
include ho

theorem trimmedLines_laidLines (depth : Nat) {lines : List Text} (hw : Blank w) (hs : '\n' ∉ s)
    (hlines : ∀ line ∈ lines, '\n' ∉ indentedLine o depth line ∧
      trimEnd (indentedLine o depth line) = indentedLine o depth line) :
    ∃ n, trimmedLines (s ++ (laidLines o depth lines ++ w)) =
      trimEnd s :: (lines.map (indentedLine o depth) ++ List.replicate n []) := by
  induction lines generalizing s with
  | nil => exact trimmedLines_append_blank hs hw
  | cons line lines ih =>
    obtain ⟨e, heol, hblank, hbreak⟩ := ho.exists_eol
    obtain ⟨hline, htrim⟩ := hlines line List.mem_cons_self
    obtain ⟨n, hrest⟩ := ih hline fun l hl => hlines l (List.mem_cons_of_mem _ hl)
    refine ⟨n, ?_⟩
    have hsplit : s ++ (laidLines o depth (line :: lines) ++ w) =
        s ++ e ++ '\n' :: (indentedLine o depth line ++ (laidLines o depth lines ++ w)) := by
      rw [laidLines, List.flatMap_cons, heol]
      simp [laidLines, heol]
    rw [hsplit, trimmedLines_append, trimmedLines_of_notMem (by simp [hs, hbreak]),
      trimEnd_append_of_blank s fun c hc => isBlank_of_isAsciiBlank (hblank c hc), hrest, htrim]
    rfl

theorem dedent_laidLines (depth : Nat) (body : Text) (hw : Blank w) :
    dedent (laidLines o depth (dedent body) ++ w) = dedent body := by
  have hindent : ∀ c ∈ Page.indented o depth [], isAsciiBlank c ∧ c ≠ '\n' := fun c hc =>
    ho.of_mem_indented hc
  obtain ⟨n, hlines⟩ : ∃ n, trimmedLines (laidLines o depth (dedent body) ++ w) =
      [] :: ((dedent body).map (indentedLine o depth) ++ List.replicate n []) :=
    trimmedLines_laidLines ho depth hw (s := []) List.not_mem_nil fun line hline => by
      rw [indentedLine_eq_shifted]
      exact of_mem_dedent_shifted (fun hmem => (hindent _ hmem).2 rfl) hline
  refine dedent_of_shifted (w := Page.indented o depth []) (fun c hc => (hindent c hc).1) ?_
  rw [bodyLines_eq, hlines, trimWith, List.dropWhile_cons, if_pos List.isEmpty_nil, ← trimWith,
    trimWith_append_of_all _ fun line hline => by rw [List.eq_of_mem_replicate hline]; rfl,
    indentedLine_eq_shifted, trimWith_shifted]

end

end PatternBridge.Markup
