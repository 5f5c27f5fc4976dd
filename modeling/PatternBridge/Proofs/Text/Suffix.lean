import Mathlib.Data.List.Basic
import PatternBridge.Text.Search

/-! Suffixes of names. A suffix with a dot at its start and none behind it is all of what follows the
last dot, so two texts that end in different ones differ. -/

namespace PatternBridge.Text

theorem dropSuffix?_append (stem suffix : Text) :
    dropSuffix? suffix (stem ++ suffix) = some stem := by
  have h : suffix.reverse.isPrefixOf? (stem ++ suffix).reverse = some stem.reverse :=
    List.isPrefixOf?_eq_some_iff_append_eq.2 List.reverse_append.symm
  rw [dropSuffix?, h, Option.map_some, List.reverse_reverse]

theorem eq_of_dot_suffix {a r m : Text} (ha : '.' ∉ a) (hm : '.' ∉ m)
    (h : '.' :: r <:+ a ++ '.' :: m) : r = m := by
  induction a with
  | nil =>
    rcases List.suffix_cons_iff.1 h with h | h
    · exact (List.cons.inj h).2
    · exact absurd (h.subset List.mem_cons_self) hm
  | cons c a ih =>
    rcases List.suffix_cons_iff.1 h with h | h
    · exact absurd (List.mem_cons.2 (.inl (List.cons.inj h).1)) ha
    · exact ih (fun hmem => ha (List.mem_cons_of_mem _ hmem)) h

theorem append_ne_of_endsWith {ext m : Text} (hdot : ext.head? = some '.') (hm : '.' ∉ m)
    (hend : endsWith ext ('.' :: m) = false) (stem stem' : Text) :
    stem ++ ext ≠ stem' ++ '.' :: m := by
  have hnot : ¬ '.' :: m <:+ ext := by
    unfold endsWith at hend
    rw [← List.isSuffixOf_iff_suffix, hend]
    exact Bool.false_ne_true
  intro h
  obtain ⟨r, rfl⟩ := List.head?_eq_some_iff.1 hdot
  have hsuffix : '.' :: r <:+ stem' ++ '.' :: m := ⟨stem, h⟩
  -- one of the two is a suffix of the other, as both are suffixes of one text
  rcases List.suffix_or_suffix_of_suffix hsuffix (List.suffix_append stem' _) with hr | hr
  · have hrm : r = m := eq_of_dot_suffix (a := []) (by simp) hm hr
    rw [hrm] at hnot
    exact hnot List.suffix_rfl
  · exact hnot hr

end PatternBridge.Text
