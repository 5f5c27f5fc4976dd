import PatternBridge.Proofs.Text.Solid

/-! Pieces that stand in a text one behind the other, apart from each other and each in one stretch.
They stay there when text is put around them, and when white space is trimmed that none of them
starts or ends with. -/

namespace PatternBridge.Text

/-- The pieces stand in the text in their order, and no two of them share a character of it. -/
inductive InOrder : List Text → Text → Prop
  | nil (s : Text) : InOrder [] s
  | cons (gap piece : Text) {pieces : List Text} {rest : Text} (h : InOrder pieces rest) :
      InOrder (piece :: pieces) (gap ++ (piece ++ rest))

/-- A text that neither starts nor ends with a character of the class. -/
structure BareEnds (p : Char → Bool) (s : Text) : Prop where
  first : ∃ c t, s = c :: t ∧ p c = false
  last : ∃ t c, s = t ++ [c] ∧ p c = false

theorem BareEnds.append {p : Char → Bool} {s t : Text} (hs : BareEnds p s) (body : Text)
    (ht : BareEnds p t) : BareEnds p (s ++ (body ++ t)) := by
  obtain ⟨⟨c, u, rfl, hc⟩, -⟩ := hs
  obtain ⟨-, ⟨v, d, rfl, hd⟩⟩ := ht
  exact ⟨⟨c, _, rfl, hc⟩, ⟨c :: u ++ (body ++ v), d, by simp, hd⟩⟩

theorem exists_glue (mark : Text) (as bs : List Text) :
    ∃ glue, mark.intercalate (as ++ bs) = mark.intercalate as ++ (glue ++ mark.intercalate bs) := by
  induction as using List.twoStepInduction with
  | nil => exact ⟨[], rfl⟩
  | singleton a =>
    cases bs with
    | nil => exact ⟨[], by simp⟩
    | cons b bs => exact ⟨mark, by simp [List.intercalate_cons_cons]⟩
  | cons_cons a b as _ ih =>
    obtain ⟨glue, hglue⟩ := ih b
    refine ⟨glue, ?_⟩
    rw [List.cons_append, List.cons_append, List.intercalate_cons_cons, ← List.cons_append, hglue,
      List.intercalate_cons_cons, List.append_assoc (a ++ mark)]

namespace InOrder
variable {ps qs : List Text} {s t : Text}

theorem self (s : Text) : InOrder [s] s := by
  have h := cons [] s (nil [])
  rwa [List.nil_append, List.append_nil] at h

theorem isInfix {piece : Text} (h : InOrder (piece :: ps) s) : piece <:+: s := by
  cases h with
  | cons gap piece h => exact ⟨gap, _, List.append_assoc ..⟩

theorem behind (s : Text) (h : InOrder ps t) : InOrder ps (s ++ t) := by
  cases h with
  | nil => exact nil _
  | cons gap piece h =>
    rw [← List.append_assoc]
    exact cons (s ++ gap) piece h

theorem append (h : InOrder ps s) (h' : InOrder qs t) : InOrder (ps ++ qs) (s ++ t) := by
  induction h with
  | nil s => exact h'.behind s
  | cons gap piece _ ih =>
    rw [List.append_assoc, List.append_assoc]
    exact cons gap piece ih

theorem before (h : InOrder ps s) (t : Text) : InOrder ps (s ++ t) := by
  have happend := h.append (nil t)
  rwa [List.append_nil] at happend

theorem reverse (h : InOrder ps s) : InOrder (ps.map List.reverse).reverse s.reverse := by
  induction h with
  | nil s => exact nil _
  | cons gap piece _ ih =>
    rw [List.map_cons, List.reverse_cons, List.reverse_append, List.reverse_append,
      List.append_assoc]
    exact ih.append ((self piece.reverse).before gap.reverse)

section
variable {p : Char → Bool}

theorem dropWhile (h : InOrder ps s) (hps : ∀ x ∈ ps, BareEnds p x) :
    InOrder ps (s.dropWhile p) := by
  cases h with
  | nil => exact nil _
  | cons gap piece h =>
    obtain ⟨c, x, rfl, hc⟩ := (hps piece List.mem_cons_self).first
    induction gap with
    | nil =>
      rw [List.nil_append, List.cons_append, List.dropWhile_cons, hc]
      exact cons [] (c :: x) h
    | cons d gap ih =>
      rw [List.cons_append, List.dropWhile_cons]
      split
      · exact ih
      · exact cons (d :: gap) (c :: x) h

theorem trimWith (h : InOrder ps s) (hps : ∀ x ∈ ps, BareEnds p x) :
    InOrder ps (trimWith p s) := by
  have hrev : ∀ x ∈ (ps.map List.reverse).reverse, BareEnds p x := by
    intro x hx
    obtain ⟨y, hy, rfl⟩ := List.mem_map.1 (List.mem_reverse.1 hx)
    obtain ⟨⟨c, t, hfirst, hc⟩, ⟨u, d, hlast, hd⟩⟩ := hps y hy
    exact ⟨⟨d, u.reverse, by simp [hlast], hd⟩, ⟨t.reverse, c, by simp [hfirst], hc⟩⟩
  have hend := ((h.dropWhile hps).reverse.dropWhile hrev).reverse
  have htwice : (List.reverse ∘ List.reverse : Text → Text) = id :=
    funext fun x => List.reverse_reverse x
  rwa [List.map_reverse, List.reverse_reverse, List.map_map, htwice, List.map_id] at hend

theorem eq_nil (h : InOrder ps []) (hps : ∀ x ∈ ps, BareEnds p x) : ps = [] := by
  generalize hs : ([] : Text) = s at h
  cases h with
  | nil => rfl
  | cons gap piece h =>
    obtain ⟨c, t, rfl, -⟩ := (hps piece List.mem_cons_self).first
    simp at hs

end

theorem intercalate_append (mark : Text) {as bs : List Text} (h : InOrder ps (mark.intercalate as))
    (h' : InOrder qs (mark.intercalate bs)) : InOrder (ps ++ qs) (mark.intercalate (as ++ bs)) := by
  obtain ⟨glue, hglue⟩ := exists_glue mark as bs
  rw [hglue]
  exact h.append (h'.behind glue)

end InOrder

end PatternBridge.Text
