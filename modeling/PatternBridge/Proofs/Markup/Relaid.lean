import PatternBridge.Proofs.Markup.Reads
import PatternBridge.Proofs.Markup.Redented

/-! Text with other white space where that changes nothing of what is read in front of it. The body
of an element becomes such a text when its lines are laid out anew. -/

namespace PatternBridge.Markup
open Text

variable {o : Options} {a k s s' w w' y : Text}

/-- Between `a` and `y` there is other white space in `s'` than in `s`. -/
inductive Relaid (y : Text) : Text → Text → Text → Prop
  | nil (a : Text) : Relaid y a [] []
  | char {a s s' : Text} (c : Char) (h : Relaid y (a ++ [c]) s s') : Relaid y a (c :: s) (c :: s')
  | gap {a w w' s s' : Text} (hslack : Slack a w w' (s ++ y)) (hw : Blank w) (hw' : Blank w')
      (h : Relaid y (a ++ w') s s') : Relaid y a (w ++ s) (w' ++ s')

namespace Relaid

theorem alters (h : Relaid y a s s') : Alters a (s ++ y) (s' ++ y) := by
  induction h with
  | nil a => exact .refl _ _
  | char c _ ih => exact ih.append (z := [c])
  | gap hslack hw hw' _ ih =>
    rw [List.append_assoc, List.append_assoc]
    exact (hslack.alters hw hw').trans ih.append

theorem append_left (h : Relaid y (a ++ k) s s') : Relaid y a (k ++ s) (k ++ s') := by
  induction k generalizing a with
  | nil => rwa [List.append_nil] at h
  | cons c k ih => exact .char c (ih (by rwa [List.append_assoc]))

theorem blank (hslack : Slack a w w' y) (hw : Blank w) (hw' : Blank w') : Relaid y a w w' := by
  have hgap := Relaid.gap (y := y) (s := []) hslack hw hw' (.nil _)
  rwa [List.append_nil, List.append_nil] at hgap

theorem letters {name : Text} (h : Relaid y a s s') (hname : ∀ c ∈ name, isNameChar c)
    (hs : ∀ i < s.length, startsWithLetters ("</" ++ name) ((s ++ y).drop i) = false) :
    ∀ i < s'.length, startsWithLetters ("</" ++ name) ((s' ++ y).drop i) = false := by
  induction h with
  | nil a => exact hs
  | @char a s s' c h ih =>
    intro i hi
    cases i with
    | zero =>
      have hsuffix : [c] <:+ a ++ [c] := List.suffix_append a [c]
      exact (h.alters.letters [c] hsuffix (List.cons_ne_nil _ _) name hname).trans
        (hs 0 (Nat.zero_lt_succ _))
    | succ i =>
      exact ih (fun i hi => hs (i + 1) (Nat.succ_lt_succ hi)) i (Nat.lt_of_succ_lt_succ hi)
  | @gap a w w' s s' hslack hw hw' h ih =>
    intro i hi
    by_cases hlt : i < w'.length
    · have hdrop : (w' ++ s' ++ y).drop i = w'[i] :: (w'.drop (i + 1) ++ (s' ++ y)) := by
        rw [List.append_assoc, List.drop_append_of_le_length (Nat.le_of_lt hlt),
          List.drop_eq_getElem_cons hlt]
        rfl
      have hblank : isBlank w'[i] := hw' _ (List.getElem_mem hlt)
      rw [hdrop]
      exact startsWithLetters_blank_cons hblank _
    · obtain ⟨j, rfl⟩ := Nat.exists_eq_add_of_le (Nat.le_of_not_lt hlt)
      rw [List.append_assoc, List.drop_append, List.drop_eq_nil_of_le (Nat.le_add_right _ _),
        List.nil_append, Nat.add_sub_cancel_left]
      refine ih (fun i hi => ?_) j (by rw [List.length_append] at hi; omega)
      have hold := hs (w.length + i) (by rw [List.length_append]; omega)
      rwa [List.append_assoc, List.drop_append, List.drop_eq_nil_of_le (Nat.le_add_right _ _),
        List.nil_append, Nat.add_sub_cancel_left] at hold

theorem splitAtLetters {name : Text} (h : Relaid y a s s') (hname : ∀ c ∈ name, isNameChar c)
    (hsplit : Markup.splitAtLetters ("</" ++ name) (s ++ y) = (s, y)) :
    Markup.splitAtLetters ("</" ++ name) (s' ++ y) = (s', y) := by
  obtain ⟨-, htail, hbody⟩ := of_splitAtLetters hsplit
  exact splitAtLetters_append htail (h.letters hname hbody)

end Relaid

theorem drop_trimEnd_ne_nil {k : Nat} (hk : k ≤ leadingBlanks (trimEnd s)) (h : trimEnd s ≠ []) :
    (trimEnd s).drop k ≠ [] := by
  obtain ⟨t, c, htrim, hc⟩ := exists_concat_trimEnd h
  have hle := leadingBlanks_concat_le t hc
  rw [htrim] at hk ⊢
  rw [List.drop_append_of_le_length (Nat.le_trans hk hle)]
  simp

theorem relaid_lines (ho : o.Plain) (depth k : Nat) {pieces : List Text} {b z z' : Text}
    (hpieces : ∀ piece ∈ pieces, trimEnd piece ≠ [] → k ≤ leadingBlanks (trimEnd piece))
    (hb : Blank b) (hend : ∀ a b, Blank b → Relaid y a (b ++ z) z') :
    Relaid y a (b ++ (pieces.flatMap ('\n' :: ·) ++ z))
      (laidLines o depth (pieces.map fun piece => (trimEnd piece).drop k) ++ z') := by
  induction pieces generalizing a b with
  | nil => exact hend a b hb
  | cons piece pieces ih =>
    have hrest (a : Text) {b : Text} := ih (a := a) (b := b) fun p hp =>
      hpieces p (List.mem_cons_of_mem _ hp)
    have heol : Blank o.eol := fun c hc => isBlank_of_isAsciiBlank (ho.blank_eol c hc)
    have hbreak : Blank (b ++ ['\n']) := hb.append (by intro c hc; rw [List.mem_singleton.1 hc]; rfl)
    obtain ⟨b', hpiece, hb'⟩ := exists_trimEnd piece
    by_cases hempty : trimEnd piece = []
    · have hgap := Relaid.gap (y := y) (a := a) (.between (by simp) ho.eol_ne_nil) hbreak heol
        (hrest (a ++ o.eol) (b := piece) (by rw [hpiece, hempty]; exact hb'))
      simpa [laidLines, indentedLine, hempty, List.append_assoc] using hgap
    · have hk := hpieces piece List.mem_cons_self hempty
      obtain ⟨hblank, -⟩ := exists_leadingBlanks hk
      have hcore := drop_trimEnd_ne_nil hk hempty
      have hindent : Blank (o.eol ++ Page.indented o depth []) :=
        heol.append fun c hc => isBlank_of_isAsciiBlank (ho.of_mem_indented hc).1
      have hgap := Relaid.gap (y := y) (a := a) (.between (by simp) (by simp [ho.eol_ne_nil]))
        (hbreak.append fun c hc => isBlank_of_isAsciiBlank (hblank c hc))
        hindent
        ((hrest _ hb').append_left (k := (trimEnd piece).drop k))
      have hold : b ++ ['\n'] ++ (trimEnd piece).take k ++ ((trimEnd piece).drop k ++
          (b' ++ (pieces.flatMap ('\n' :: ·) ++ z))) =
          b ++ ((piece :: pieces).flatMap ('\n' :: ·) ++ z) := by
        conv_rhs => rw [List.flatMap_cons, hpiece]
        rw [List.append_assoc (b ++ ['\n']), ← List.append_assoc ((trimEnd piece).take k),
          List.take_append_drop]
        simp [List.append_assoc]
      rw [hold] at hgap
      simpa [laidLines, indentedLine, hcore, Page.indented_eq_append depth ((trimEnd piece).drop k),
        List.append_assoc] using hgap

theorem intercalate_lineBreak (front rest : List Text) (l : Text) :
    ['\n'].intercalate (front ++ l :: rest) =
      front.flatMap (· ++ ['\n']) ++ (l ++ rest.flatMap ('\n' :: ·)) := by
  induction front with
  | nil =>
    rw [List.nil_append]
    induction rest generalizing l with
    | nil => simp
    | cons m rest ih =>
      rw [List.intercalate_cons_cons, ih]
      simp
  | cons k front ih =>
    rw [List.cons_append, List.intercalate_cons_of_ne_nil (by simp), ih]
    simp

theorem blank_flatMap {pieces : List Text} {f : Text → Text} (h : ∀ piece ∈ pieces, isBlankText piece)
    (hf : ∀ piece, isBlankText piece → Blank (f piece)) : Blank (pieces.flatMap f) := by
  intro c hc
  obtain ⟨piece, hpiece, hmem⟩ := List.mem_flatMap.1 hc
  exact hf piece (h piece hpiece) c hmem

/-- A body falls into blank lines, the lines that it is laid out by, and blank lines. -/
theorem exists_pieces {body : Text} (hbody : isBlankText body = false) :
    ∃ front first pieces back, body =
        front.flatMap (· ++ ['\n']) ++ (first ++ (pieces ++ back).flatMap ('\n' :: ·)) ∧
      (∀ piece ∈ front ++ back, isBlankText piece) ∧ trimEnd first ≠ [] ∧
      bodyLines body = (first :: pieces).map trimEnd := by
  obtain ⟨front, back, hpieces, hfront, hback⟩ := exists_trimWith isBlankText (body.splitOn '\n')
  have hlines : bodyLines body = (trimWith isBlankText (body.splitOn '\n')).map trimEnd :=
    trimWith_map fun piece _ => by
      rw [Bool.eq_iff_iff, List.isEmpty_iff, trimEnd_eq_nil_iff]
  have hne : trimWith isBlankText (body.splitOn '\n') ≠ [] := by
    intro hnil
    rw [hnil] at hlines
    rw [bodyLines_eq_nil_iff.1 hlines] at hbody
    cases hbody
  obtain ⟨⟨first, pieces, hfirst, hblank⟩, -⟩ := ends_trimWith hne
  rw [hfirst] at hlines hpieces
  refine ⟨front, first, pieces, back, ?_, fun piece hpiece => ?_, ?_, hlines⟩
  · rw [← intercalate_lineBreak, ← List.cons_append, ← hpieces, List.intercalate_splitOn]
  · exact (List.mem_append.1 hpiece).elim (hfront piece) (hback piece)
  · exact mt trimEnd_eq_nil_iff.1 (Bool.eq_false_iff.1 hblank)

theorem relaid_body (ho : o.Plain) (depth : Nat) {body : Text} (hbody : isBlankText body = false)
    (ha : ['>'] <:+ a) (hy : ∀ c ∈ y.head?, c = '<') (hw' : Blank w') :
    Relaid y a body (laidLines o depth (dedent body) ++ w') := by
  obtain ⟨front, first, pieces, back, hbodyEq, hblank, hfirst, hlines⟩ := exists_pieces hbody
  have hdedent : dedent body = (bodyLines body).map (·.drop (commonIndent (bodyLines body))) := rfl
  have hle (line : Text) (hline : line ∈ bodyLines body) (hne : line ≠ []) :=
    commonIndent_le hline hne
  revert hdedent hle
  generalize commonIndent (bodyLines body) = k
  rw [hlines]
  intro hdedent hle
  have hk : ∀ piece ∈ first :: pieces, trimEnd piece ≠ [] → k ≤ leadingBlanks (trimEnd piece) :=
    fun piece hpiece => hle _ (List.mem_map_of_mem hpiece)
  have hkFirst := hk first List.mem_cons_self hfirst
  obtain ⟨b, hb, hbBlank⟩ := exists_trimEnd first
  have hlead : Blank (front.flatMap (· ++ ['\n']) ++ (trimEnd first).take k) := by
    refine Blank.append (blank_flatMap (fun piece h => hblank piece (List.mem_append_left _ h))
      fun piece h => ?_) fun c hc => isBlank_of_isAsciiBlank ((exists_leadingBlanks hkFirst).1 c hc)
    exact Blank.append (List.all_eq_true.1 h) (by intro c hc; rw [List.mem_singleton.1 hc]; rfl)
  -- what stands behind the last line goes, up to the end
  have hend (a b : Text) (hb : Blank b) : Relaid y a (b ++ back.flatMap ('\n' :: ·)) w' := by
    refine .blank (.before hy) (hb.append (blank_flatMap (fun piece h =>
      hblank piece (List.mem_append_right _ h)) fun piece h => ?_)) hw'
    exact List.all_eq_true.1 (Bool.and_eq_true_iff.2 ⟨rfl, h⟩)
  have hindent : Blank (o.eol ++ Page.indented o depth []) :=
    Blank.append (fun c hc => isBlank_of_isAsciiBlank (ho.blank_eol c hc))
      fun c hc => isBlank_of_isAsciiBlank (ho.of_mem_indented hc).1
  have hindentNe : o.eol ++ Page.indented o depth [] ≠ [] := by simp [ho.eol_ne_nil]
  have hslack (s : Text) : Slack a (front.flatMap (· ++ ['\n']) ++ (trimEnd first).take k)
      (o.eol ++ Page.indented o depth []) s := by
    by_cases h : front.flatMap (· ++ ['\n']) ++ (trimEnd first).take k = []
    · exact .behind h hindentNe (.inl ha)
    · exact .between h hindentNe
  have hrest (a : Text) := relaid_lines (y := y) (a := a) ho depth k
    (fun piece hmem => hk piece (List.mem_cons_of_mem _ hmem)) hbBlank hend
  have hgap := Relaid.gap (hslack _) hlead hindent
    ((hrest _).append_left (k := (trimEnd first).drop k))
  have hold : front.flatMap (· ++ ['\n']) ++ (trimEnd first).take k ++ ((trimEnd first).drop k ++
      (b ++ (pieces.flatMap ('\n' :: ·) ++ back.flatMap ('\n' :: ·)))) = body := by
    conv_rhs => rw [hbodyEq, hb]
    rw [List.append_assoc (front.flatMap _), ← List.append_assoc ((trimEnd first).take k),
      List.take_append_drop]
    simp [List.append_assoc]
  rw [hold] at hgap
  simpa [hdedent, laidLines, indentedLine, drop_trimEnd_ne_nil hkFirst hfirst, Function.comp_def,
    Page.indented_eq_append depth ((trimEnd first).drop k), List.append_assoc] using hgap

end PatternBridge.Markup
