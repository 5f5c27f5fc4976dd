import PatternBridge.Markup.Marker
import PatternBridge.Proofs.Text.Solid

/-! Moving the names of block openers moves them past white space only, so both directions keep all
other characters. -/

namespace PatternBridge.Markup
open Text

theorem eq_append_of_blockOpener? {s opener t : Text} (h : blockOpener? s = some (opener, t)) :
    s = opener ++ t := by
  unfold blockOpener? at h
  split at h
  · split at h
    · simp only [Option.some.injEq, Prod.mk.injEq] at h
      obtain ⟨rfl, rfl⟩ := h
      rfl
    · simp at h
  · simp at h

theorem isBlank_of_isGapChar (c : Char) (h : isGapChar c) : isBlank c := by
  simp only [isGapChar, Bool.and_eq_true] at h
  exact h.1

theorem solid_marker : solid [marker] = [] := by decide

theorem solid_of_protectTag? {s a t : Text} (h : protectTag? s = some (a, t)) :
    solid a ++ solid t = solid s := by
  simp only [protectTag?, Option.bind_eq_some_iff, Option.ite_none_left_eq_some,
    Option.some.injEq, Prod.mk.injEq] at h
  obtain ⟨⟨opener, u⟩, ho, -, rfl, rfl⟩ := h
  have hgap := solid_takeWhile_eq_nil (p := isBlank) (fun _ hc => hc) u
  have hname := congrArg solid
    (List.takeWhile_append_dropWhile (p := isTagNameChar) (l := u.dropWhile isBlank))
  rw [solid_append, solid_dropWhile (p := isBlank) fun _ hc => hc] at hname
  rw [eq_append_of_blockOpener? ho]
  simp only [solid_append, hgap, solid_marker, List.append_nil, List.append_assoc, hname]

theorem solid_of_restoreTag? {s a t : Text} (h : restoreTag? s = some (a, t)) :
    solid a ++ solid t = solid s := by
  simp only [restoreTag?, Option.bind_eq_some_iff] at h
  obtain ⟨⟨opener, u⟩, ho, h⟩ := h
  split at h
  · next c rest hr =>
    simp only [Option.ite_none_left_eq_some, Bool.or_eq_true, not_or, Option.some.injEq,
      Prod.mk.injEq] at h
    obtain ⟨⟨-, hc⟩, rfl, rfl⟩ := h
    have hrest : solid (u.dropWhile isTagNameChar) = solid rest := by
      have hmarker : c = marker := by simpa using hc
      rw [← solid_dropWhile isBlank_of_isGapChar, hr, hmarker, solid_cons, solid_marker,
        List.nil_append]
    have hgap := solid_takeWhile_eq_nil isBlank_of_isGapChar (u.dropWhile isTagNameChar)
    have hname := congrArg solid (List.takeWhile_append_dropWhile (p := isTagNameChar) (l := u))
    rw [solid_append, hrest] at hname
    rw [eq_append_of_blockOpener? ho]
    simp only [solid_append, hgap, List.append_assoc, List.nil_append, hname]
  · simp at h

theorem solid_protect (s : Text) : solid (protect s) = solid s := by
  fun_induction protect s with
  | case1 => rfl
  | case2 c s a rest h ih => rw [solid_append, ih, solid_of_protectTag? h]
  | case3 c s h ih => rw [solid_cons, ih, ← solid_cons]

theorem solid_restore (s : Text) : solid (restore s) = solid s := by
  fun_induction restore s with
  | case1 => rfl
  | case2 c s a rest h ih => rw [solid_append, ih, solid_of_restoreTag? h]
  | case3 c s h ih => rw [solid_cons, ih, ← solid_cons]

end PatternBridge.Markup
