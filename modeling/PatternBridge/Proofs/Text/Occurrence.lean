import Mathlib.Data.List.Infix
import PatternBridge.Text.Search

/-! The first occurrence of a mark in a text. It is found whatever follows it, and text that has no
character of the mark neither makes nor hides an occurrence. -/

namespace PatternBridge.Text

variable {mark s t a k r : Text}

theorem cut?_eq_none_iff : cut? mark s = none ↔ ¬ mark <:+: s := by
  induction s with
  | nil =>
    rw [List.infix_nil, cut?]
    cases mark with
    | nil => simp
    | cons c mark => simp
  | cons c s ih =>
    rw [List.infix_cons_iff, cut?]
    split
    · next hstarts =>
      exact ⟨fun hnone => absurd hnone (Option.some_ne_none _), fun hnot => absurd (.inl hstarts) hnot⟩
    · next hstarts =>
      rw [Option.map_eq_none_iff, ih, not_or]
      exact ⟨fun hs => ⟨hstarts, hs⟩, And.right⟩

theorem through?_eq_none_iff : through? mark s = none ↔ ¬ mark <:+: s := by
  rw [through?, Option.map_eq_none_iff, cut?_eq_none_iff]

theorem exists_through? (h : mark <:+: s) : ∃ k r, through? mark s = some (k, r) := by
  cases hs : through? mark s with
  | none => exact absurd h (through?_eq_none_iff.1 hs)
  | some split => exact ⟨split.1, split.2, rfl⟩

theorem cut?_append_of_cut? (h : cut? mark s = some (a, r)) (t : Text) :
    cut? mark (a ++ (mark ++ t)) = some (a, t) := by
  induction s generalizing a with
  | nil =>
    simp only [cut?, Option.ite_none_right_eq_some, Option.some.injEq, Prod.mk.injEq] at h
    obtain ⟨hmark, rfl, -⟩ := h
    rw [List.isEmpty_iff.1 hmark]
    cases t with
    | nil => rfl
    | cons c t => rfl
  | cons c s ih =>
    simp only [cut?] at h
    split at h
    · obtain ⟨rfl, -⟩ := Prod.mk.inj (Option.some.inj h)
      cases mark with
      | nil =>
        cases t with
        | nil => rfl
        | cons d t => rfl
      | cons d mark =>
        rw [List.nil_append, List.cons_append, cut?, ← List.cons_append,
          if_pos (List.prefix_append (d :: mark) t), List.drop_left]
    · next hnot =>
      obtain ⟨⟨b, r'⟩, hb, heq⟩ := Option.map_eq_some_iff.1 h
      obtain ⟨rfl, rfl⟩ := Prod.mk.inj heq
      have hs := eq_append_of_cut? hb
      -- whether the mark stands at the start is told by the text up to its occurrence
      have hstarts : ¬ mark <+: c :: (b ++ (mark ++ t)) := by
        intro hmark
        rw [← List.append_assoc, ← List.cons_append] at hmark
        have hfirst : mark <+: c :: (b ++ mark) :=
          List.prefix_of_prefix_length_le hmark (List.prefix_append ..) (by simp; omega)
        apply hnot
        rw [hs, ← List.append_assoc, ← List.cons_append]
        exact hfirst.trans (List.prefix_append ..)
      rw [List.cons_append, cut?, if_neg hstarts, ih hb]
      rfl

theorem through?_append_of_through? (h : through? mark s = some (k, r)) (t : Text) :
    through? mark (k ++ t) = some (k, t) := by
  obtain ⟨⟨a, r'⟩, ha, heq⟩ := Option.map_eq_some_iff.1 h
  obtain ⟨rfl, -⟩ := Prod.mk.inj heq
  rw [through?, List.append_assoc, cut?_append_of_cut? ha]
  rfl

theorem suffix_of_through? (h : through? mark s = some (k, r)) : mark <:+ k := by
  obtain ⟨⟨a, r'⟩, -, heq⟩ := Option.map_eq_some_iff.1 h
  obtain ⟨rfl, -⟩ := Prod.mk.inj heq
  exact List.suffix_append a mark

theorem through?_append (h : through? mark s = some (k, r)) (t : Text) :
    through? mark (s ++ t) = some (k, r ++ t) := by
  rw [eq_append_of_through? h, List.append_assoc, through?_append_of_through? h]

theorem through?_eq_self_iff (hmark : mark ≠ []) :
    through? mark s = some (s, []) ↔ mark <:+ s ∧ ¬ mark <:+: s.dropLast := by
  constructor
  · intro h
    have hsuffix := suffix_of_through? h
    refine ⟨hsuffix, fun hinfix => ?_⟩
    obtain ⟨k, r, hk⟩ := exists_through? hinfix
    have hs : s ≠ [] := by
      rintro rfl
      exact hmark (List.suffix_nil.1 hsuffix)
    have happend := through?_append hk [s.getLast hs]
    rw [List.dropLast_concat_getLast, h] at happend
    simp at happend
  · rintro ⟨hsuffix, hinfix⟩
    obtain ⟨k, r, hk⟩ := exists_through? hsuffix.isInfix
    obtain rfl := eq_append_of_through? hk
    rcases List.eq_nil_or_concat r with rfl | ⟨r, d, rfl⟩
    · rw [hk, List.append_nil]
    · rw [List.concat_eq_append, ← List.append_assoc, List.dropLast_concat] at hinfix
      exact absurd ((suffix_of_through? hk).isInfix.trans (List.prefix_append k r).isInfix) hinfix

theorem exists_of_prefix_append (h : mark <+: s ++ t) (hs : ¬ mark <+: s) :
    ∃ c m, mark = s ++ c :: m ∧ c :: m <+: t := by
  obtain hmark | ⟨m, rfl⟩ := List.prefix_or_prefix_of_prefix h (List.prefix_append s t)
  · exact absurd hmark hs
  · cases m with
    | nil => exact absurd (by rw [List.append_nil]) hs
    | cons c m => exact ⟨c, m, rfl, (List.prefix_append_right_inj s).1 h⟩

theorem prefix_append_iff_of_notMem (ht : ∀ c ∈ t.head?, c ∉ mark) :
    mark <+: s ++ t ↔ mark <+: s := by
  refine ⟨fun h => ?_, fun h => h.trans (List.prefix_append s t)⟩
  by_contra hs
  obtain ⟨c, m, rfl, rest, rfl⟩ := exists_of_prefix_append h hs
  exact ht c rfl (by simp)

theorem suffix_append_iff_of_notMem (hs : ∀ c ∈ s.getLast?, c ∉ mark) :
    mark <:+ s ++ t ↔ mark <:+ t := by
  rw [← List.reverse_prefix, List.reverse_append, prefix_append_iff_of_notMem, List.reverse_prefix]
  intro c hc
  rw [List.head?_reverse] at hc
  simpa using hs c hc

theorem isInfix_append_of_notMem (h : mark <:+: s ++ t) (ht : ∀ c ∈ t.head?, c ∉ mark) :
    mark <:+: s ∨ mark <:+: t := by
  obtain hs | ht' | ⟨m, m', rfl, hm, hm'⟩ := List.infix_append_iff.1 h
  · exact .inl hs
  · exact .inr ht'
  · cases m' with
    | nil => exact .inl (by rw [List.append_nil]; exact hm.isInfix)
    | cons c m' =>
      obtain ⟨rest, hrest⟩ := hm'
      exact absurd (List.mem_append_right _ List.mem_cons_self) (ht c (by rw [← hrest]; rfl))

/-- A mark that is not in `s` and does not reach from `s` into `t` is found where it is in `t`. -/
theorem through?_append_of_not_isInfix (hs : ¬ mark <:+: s)
    (hpart : ∀ m m', mark = m ++ m' → m ≠ [] → m' ≠ [] → m <:+ s → ¬ m' <+: t) :
    through? mark (s ++ t) = (through? mark t).map fun split => (s ++ split.1, split.2) := by
  induction s with
  | nil => exact Option.map_id'.symm
  | cons c s ih =>
    have hrest := ih (fun h => hs (List.infix_cons_iff.2 (.inr h))) fun m m' hm hne hne' hsuffix =>
      hpart m m' hm hne hne' (hsuffix.trans (List.suffix_cons c s))
    have hstarts : ¬ mark <+: c :: (s ++ t) := by
      intro hprefix
      rw [← List.cons_append] at hprefix
      obtain ⟨d, m, hmark, ht⟩ := exists_of_prefix_append hprefix fun h => hs h.isInfix
      exact hpart (c :: s) (d :: m) hmark (List.cons_ne_nil _ _) (List.cons_ne_nil _ _)
        List.suffix_rfl ht
    rw [through?] at hrest ⊢
    rw [List.cons_append, cut?, if_neg hstarts, Option.map_map]
    have hcons := congrArg (Option.map fun split : Text × Text => (c :: split.1, split.2)) hrest
    rw [Option.map_map, Option.map_map] at hcons
    exact hcons

theorem isInfix_of_isInfix_append (h : mark <:+: s ++ t) (hmark : mark ≠ [])
    (hs : ∀ c ∈ s, c ∉ mark) : mark <:+: t := by
  induction s with
  | nil => exact h
  | cons c s ih =>
    rw [List.cons_append] at h
    obtain hstarts | hinfix := List.infix_cons_iff.1 h
    · obtain ⟨d, m, rfl⟩ := List.exists_cons_of_ne_nil hmark
      obtain ⟨rest, hrest⟩ := hstarts
      obtain rfl := (List.cons.inj hrest).1
      exact absurd List.mem_cons_self (hs d List.mem_cons_self)
    · exact ih hinfix fun d hd => hs d (List.mem_cons_of_mem _ hd)

end PatternBridge.Text
