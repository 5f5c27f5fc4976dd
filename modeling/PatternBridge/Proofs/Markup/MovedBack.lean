import Mathlib.Data.List.Infix
import PatternBridge.Proofs.Markup.Moving

/-! Moving the names of block openers forward and back again gives the same text. The marker behind
a moved name is only found from the opener that the name belongs to, since an opener from which name
characters lead up to it would stand before another opener in the text itself. -/

namespace PatternBridge.Markup
open Text

/-- No opener of a block tag stands behind another one with name characters alone between them. -/
def OpenersApart (s : Text) : Prop :=
  ∀ t ∈ s.tails, ∀ p ∈ blockOpener? t, ∀ n ≤ (p.2.takeWhile isTagNameChar).length,
    blockOpener? (p.2.drop n) = none

instance (s : Text) : Decidable (OpenersApart s) := by
  unfold OpenersApart
  infer_instance

theorem OpenersApart.of_suffix {s t : Text} (h : OpenersApart s) (ht : t <:+ s) :
    OpenersApart t := by
  intro u hu
  exact h u ((List.mem_tails u s).2 (((List.mem_tails u t).1 hu).trans ht))

theorem takeWhile_append_of_stop {α : Type} {p : α → Bool} {u v : List α} (hu : ∀ a ∈ u, p a)
    (hv : ∀ a ∈ v.head?, p a = false) :
    (u ++ v).takeWhile p = u ∧ (u ++ v).dropWhile p = v := by
  rw [List.takeWhile_append_of_pos hu, List.dropWhile_append_of_pos hu]
  cases v with
  | nil => simp
  | cons a v =>
    have ha : ¬p a = true := by simp [hv a rfl]
    rw [List.takeWhile_cons_of_neg ha, List.dropWhile_cons_of_neg ha, List.append_nil]
    exact ⟨rfl, rfl⟩

theorem eq_of_first {α : Type} [DecidableEq α] {a : α} {u u' v v' : List α} (hu : a ∉ u)
    (hu' : a ∉ u') (h : u ++ a :: v = u' ++ a :: v') : u = u' := by
  have hcut {w : List α} (hw : a ∉ w) (x : List α) :
      (w ++ a :: x).takeWhile (fun b => decide (b ≠ a)) = w := by
    refine (takeWhile_append_of_stop ?_ (by simp)).1
    exact fun b hb => decide_eq_true fun hba => hw (hba ▸ hb)
  rw [← hcut hu v, h, hcut hu' v']

theorem blockOpener?_eq_some {s opener t : Text} (h : blockOpener? s = some (opener, t)) :
    ∃ c, isControl c ∧ opener = ['{', '{', c] ∧ s = '{' :: '{' :: c :: t := by
  unfold blockOpener? at h
  split at h
  · next c u =>
    obtain ⟨hc, heq⟩ := Option.ite_none_right_eq_some.1 h
    obtain ⟨rfl, rfl⟩ := Prod.mk.inj (Option.some.inj heq)
    exact ⟨c, hc, rfl, rfl⟩
  · cases h

theorem blockOpener?_append {s opener t : Text} (h : blockOpener? s = some (opener, t)) (u : Text) :
    blockOpener? (opener ++ u) = some (opener, u) := by
  obtain ⟨c, hc, rfl, -⟩ := blockOpener?_eq_some h
  exact if_pos hc

theorem ne_marker_of_isTagNameChar {c : Char} (h : isTagNameChar c) : c ≠ marker := by
  rintro rfl
  exact absurd h (by decide)

theorem not_isTagNameChar_of_isGapChar {c : Char} (h : isGapChar c) : isTagNameChar c = false := by
  simp [isTagNameChar, isBlank_of_isGapChar c h]

/-- An opener whose name stands behind white space without a marker. -/
structure Spaced (s opener gap name rest : Text) : Prop where
  eq_append : s = opener ++ (gap ++ (name ++ rest))
  opener : blockOpener? s = some (opener, gap ++ (name ++ rest))
  gap_ne_nil : gap ≠ []
  gap_blank : ∀ c ∈ gap, isGapChar c
  name_ne_nil : name ≠ []
  name_chars : ∀ c ∈ name, isTagNameChar c

theorem spaced_of_protectTag? {s a rest : Text} (hs : marker ∉ s)
    (h : protectTag? s = some (a, rest)) :
    ∃ opener gap name, Spaced s opener gap name rest ∧
      a = opener ++ (name ++ (gap ++ [marker])) := by
  simp only [protectTag?, Option.bind_eq_some_iff, Option.ite_none_left_eq_some,
    Option.some.injEq, Prod.mk.injEq, Bool.or_eq_true, not_or, List.isEmpty_iff] at h
  obtain ⟨⟨opener, t⟩, ho, ⟨hgap, hname⟩, rfl, rfl⟩ := h
  have hsplit : t = t.takeWhile isBlank ++ ((t.dropWhile isBlank).takeWhile isTagNameChar ++
      (t.dropWhile isBlank).dropWhile isTagNameChar) := by
    rw [List.takeWhile_append_dropWhile, List.takeWhile_append_dropWhile]
  refine ⟨opener, t.takeWhile isBlank, _, ⟨?_, ?_, hgap, ?_, hname, ?_⟩, by simp⟩
  · rw [← hsplit]
    exact eq_append_of_blockOpener? ho
  · rw [← hsplit]
    exact ho
  · intro c hc
    have hblank : isBlank c := List.all_eq_true.1 List.all_takeWhile c hc
    have hne : c ≠ marker := by
      rintro rfl
      rw [eq_append_of_blockOpener? ho] at hs
      exact hs (List.mem_append_right _ ((List.takeWhile_prefix _).subset hc))
    simp [isGapChar, hblank, hne]
  · exact fun c hc => List.all_eq_true.1 List.all_takeWhile c hc

namespace Spaced
variable {s opener gap name rest : Text}

theorem rest_suffix (h : Spaced s opener gap name rest) : rest <:+ s := by
  rw [h.eq_append, ← List.append_assoc, ← List.append_assoc]
  exact List.suffix_append _ rest

theorem restoreTag? (h : Spaced s opener gap name rest) (t : Text) :
    restoreTag? (opener ++ (name ++ (gap ++ marker :: t))) = some (opener ++ gap ++ name, t) := by
  obtain ⟨g, gap', hgap⟩ := List.exists_cons_of_ne_nil h.gap_ne_nil
  have hg : isGapChar g := h.gap_blank g (by simp [hgap])
  obtain ⟨hname, hafter⟩ := takeWhile_append_of_stop (v := gap ++ marker :: t) h.name_chars (by
    intro c hc
    have hcg : g = c := by simpa [hgap] using hc
    exact hcg ▸ not_isTagNameChar_of_isGapChar hg)
  obtain ⟨hblank, hmarker⟩ := takeWhile_append_of_stop (v := marker :: t) h.gap_blank (by
    intro c hc
    obtain rfl : marker = c := by simpa using hc
    decide)
  rw [Markup.restoreTag?, blockOpener?_append h.opener, Option.bind_some]
  simp only [hname, hafter, hblank, hmarker]
  simp [h.gap_ne_nil, h.name_ne_nil]

theorem marker_notMem (h : Spaced s opener gap name rest) (hs : marker ∉ s) :
    marker ∉ opener ++ (name ++ gap) := by
  rw [h.eq_append] at hs
  simp only [List.mem_append, not_or] at hs ⊢
  exact ⟨hs.1, hs.2.2.1, hs.2.1⟩

end Spaced

theorem restoreTag?_eq_some {s a rest : Text} (h : restoreTag? s = some (a, rest)) :
    ∃ opener name gap, blockOpener? s = some (opener, name ++ (gap ++ marker :: rest)) ∧
      (∀ c ∈ name, isTagNameChar c) ∧ ∀ c ∈ gap, isGapChar c := by
  simp only [restoreTag?, Option.bind_eq_some_iff] at h
  obtain ⟨⟨opener, t⟩, ho, h⟩ := h
  split at h
  · next c t' ht =>
    obtain ⟨hfound, heq⟩ := Option.ite_none_left_eq_some.1 h
    obtain ⟨-, rfl⟩ := Prod.mk.inj (Option.some.inj heq)
    have hc : c = marker := by
      simp only [Bool.or_eq_true, not_or] at hfound
      simpa using hfound.2
    have hsplit : t = t.takeWhile isTagNameChar ++
        ((t.dropWhile isTagNameChar).takeWhile isGapChar ++ marker :: t') := by
      rw [← hc, ← ht, List.takeWhile_append_dropWhile, List.takeWhile_append_dropWhile]
    refine ⟨opener, t.takeWhile isTagNameChar,
      (t.dropWhile isTagNameChar).takeWhile isGapChar, ?_, ?_, ?_⟩
    · rw [ho, ← hsplit]
    · exact fun c hc => List.all_eq_true.1 List.all_takeWhile c hc
    · exact fun c hc => List.all_eq_true.1 List.all_takeWhile c hc
  · cases h

/-- Up to the first marker of a text with its names moved, only the last opener before it has been
changed. -/
theorem exists_spaced_of_protect {s a r : Text} (hs : marker ∉ s) (ha : marker ∉ a)
    (h : protect s = a ++ marker :: r) :
    ∃ before t opener gap name rest, s = before ++ t ∧ Spaced t opener gap name rest ∧
      a = before ++ (opener ++ (name ++ gap)) := by
  induction a generalizing s with
  | nil =>
    cases s with
    | nil => simp [protect] at h
    | cons c s =>
      have hc : c ≠ marker := fun hc => hs (by simp [hc])
      rw [protect] at h
      split at h
      · next a rest hp =>
        obtain ⟨opener, gap, name, hsp, rfl⟩ := spaced_of_protectTag? hs hp
        obtain ⟨d, -, rfl, -⟩ := blockOpener?_eq_some hsp.opener
        exact absurd (List.cons.inj h).1 (by decide)
      · exact absurd (List.cons.inj h).1 hc
  | cons d a ih =>
    cases s with
    | nil => simp [protect] at h
    | cons c s =>
      rw [protect] at h
      split at h
      · next b rest hp =>
        obtain ⟨opener, gap, name, hsp, rfl⟩ := spaced_of_protectTag? hs hp
        have hfirst : (opener ++ (name ++ gap)) ++ marker :: protect rest =
            (d :: a) ++ marker :: r := by
          rw [← h]
          simp
        have heq := eq_of_first (hsp.marker_notMem hs) ha hfirst
        exact ⟨[], c :: s, opener, gap, name, rest, rfl, hsp, by rw [← heq, List.nil_append]⟩
      · obtain ⟨rfl, htail⟩ := List.cons.inj h
        obtain ⟨before, t, opener, gap, name, rest, rfl, hsp, rfl⟩ :=
          ih (fun hm => hs (List.mem_cons_of_mem _ hm))
            (fun hm => ha (List.mem_cons_of_mem _ hm)) htail
        exact ⟨c :: before, t, opener, gap, name, rest, rfl, hsp, rfl⟩

theorem protect_eq_cons {s r : Text} {c : Char} (hs : marker ∉ s) (h : protect s = c :: r) :
    (c = '{' ∧ ∃ r', r = '{' :: r') ∨ ∃ s', s = c :: s' ∧ protect s' = r := by
  cases s with
  | nil => simp [protect] at h
  | cons d s =>
    rw [protect] at h
    split at h
    · next a rest hp =>
      obtain ⟨opener, gap, name, hsp, rfl⟩ := spaced_of_protectTag? hs hp
      obtain ⟨x, -, rfl, -⟩ := blockOpener?_eq_some hsp.opener
      obtain ⟨rfl, rfl⟩ := List.cons.inj h
      exact .inl ⟨rfl, _, rfl⟩
    · obtain ⟨rfl, rfl⟩ := List.cons.inj h
      exact .inr ⟨s, rfl, rfl⟩

theorem blockOpener?_of_protect {s opener t : Text} {c : Char} (hs : marker ∉ s)
    (h : blockOpener? (c :: protect s) = some (opener, t)) :
    ∃ u, blockOpener? (c :: s) = some (opener, u) ∧ protect u = t ∧ u <:+ s := by
  obtain ⟨d, hd, rfl, hcons⟩ := blockOpener?_eq_some h
  have hdbrace : d ≠ '{' := by
    rintro rfl
    exact absurd hd (by decide)
  obtain ⟨rfl, hbrace⟩ := List.cons.inj hcons
  rcases protect_eq_cons hs hbrace with ⟨-, r, hr⟩ | ⟨s', rfl, hcontrol⟩
  · exact absurd (List.cons.inj hr).1 hdbrace
  have hs' : marker ∉ s' := fun hm => hs (List.mem_cons_of_mem _ hm)
  rcases protect_eq_cons hs' hcontrol with ⟨hc, -⟩ | ⟨u, rfl, hu⟩
  · exact absurd hc hdbrace
  · exact ⟨u, if_pos hd, hu, (List.suffix_cons d u).trans (List.suffix_cons '{' _)⟩

theorem all_of_append_eq {name gap before r : Text} (hname : ∀ c ∈ name, isTagNameChar c)
    (hgap : ∀ c ∈ gap, isGapChar c) (h : name ++ gap = before ++ '{' :: r) :
    ∀ c ∈ before, isTagNameChar c := by
  rcases List.append_eq_append_iff.1 h with ⟨w, -, hw⟩ | ⟨w, hw, -⟩
  · have hbrace : isGapChar '{' := hgap '{' (by simp [hw])
    exact absurd hbrace (by decide)
  · intro c hc
    exact hname c (by simp [hw, hc])

theorem restoreTag?_eq_none {s : Text} {c : Char} (hs : marker ∉ s) (ho : OpenersApart (c :: s)) :
    restoreTag? (c :: protect s) = none := by
  by_contra hne
  obtain ⟨⟨a, rest⟩, hr⟩ := Option.ne_none_iff_exists'.1 hne
  obtain ⟨opener, name, gap, hopener, hname, hgap⟩ := restoreTag?_eq_some hr
  obtain ⟨u, hu, hprotect, hsuffix⟩ := blockOpener?_of_protect hs hopener
  have hfirst : marker ∉ name ++ gap := by
    intro hm
    rcases List.mem_append.1 hm with hm | hm
    · exact ne_marker_of_isTagNameChar (hname _ hm) rfl
    · exact absurd (hgap _ hm) (by decide)
  -- the marker is that of an opener in the text, and name characters lead up to it
  obtain ⟨before, t, opener', gap', name', rest', rfl, hsp, heq⟩ :=
    exists_spaced_of_protect (fun hm => hs (hsuffix.subset hm)) hfirst
      (hprotect.trans (List.append_assoc name gap _).symm)
  obtain ⟨d, -, rfl, -⟩ := blockOpener?_eq_some hsp.opener
  have hbefore := all_of_append_eq hname hgap heq
  have hlength : before.length ≤ ((before ++ t).takeWhile isTagNameChar).length := by
    rw [List.takeWhile_append_of_pos hbefore, List.length_append]
    exact Nat.le_add_right _ _
  have hnone := ho _ ((List.mem_tails _ _).2 List.suffix_rfl) _ (Option.mem_def.2 hu) _ hlength
  rw [List.drop_left, hsp.opener] at hnone
  cases hnone

theorem restore_protect {s : Text} (hs : marker ∉ s) (ho : OpenersApart s) :
    restore (protect s) = s := by
  fun_induction protect s with
  | case1 => exact restore.eq_1
  | case2 c s a rest h ih =>
    obtain ⟨opener, gap, name, hsp, rfl⟩ := spaced_of_protectTag? hs h
    obtain ⟨d, -, hd, -⟩ := blockOpener?_eq_some hsp.opener
    have hrest := ih (fun hm => hs (hsp.rest_suffix.subset hm)) (ho.of_suffix hsp.rest_suffix)
    have hmoved := hsp.restoreTag? (protect rest)
    rw [hd] at hmoved
    rw [hsp.eq_append, hd]
    simp only [List.append_assoc, List.cons_append, List.nil_append] at hmoved ⊢
    rw [restore, hmoved]
    simp [hrest]
  | case3 c s h ih =>
    have hs' : marker ∉ s := fun hm => hs (List.mem_cons_of_mem _ hm)
    rw [restore, restoreTag?_eq_none hs' ho]
    exact congrArg (c :: ·) (ih hs' (ho.of_suffix (List.suffix_cons c s)))

/-- The name of the first opener ends in another one. -/
theorem restore_protect_names :
    let s : Text := "\x7b\x7b#  each\x7b\x7b# items\x7d\x7d<li>\x7b\x7b/\n each\x7d\x7d"
    marker ∉ s ∧ OpenersApart s ∧ restore (protect s) = s :=
  have hs : marker ∉ _ := by decide
  have ho : OpenersApart _ := by decide +kernel
  ⟨hs, ho, restore_protect hs ho⟩

end PatternBridge.Markup
