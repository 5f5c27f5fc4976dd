import Mathlib.Data.List.Induction
import PatternBridge.Text.Search

/-! The characters of a class in a text. Trimming and joining by characters of no interest do not
change which of the class are there and in what order. -/

namespace PatternBridge.Text

section
variable {α : Type} {p keep : α → Bool} (hp : ∀ a, p a → keep a = false)
include hp

theorem filter_eq_nil_of_all {s : List α} (h : s.all p) : s.filter keep = [] := by
  apply List.filter_eq_nil_iff.2
  intro a ha
  rw [hp a (List.all_eq_true.1 h a ha)]
  exact Bool.false_ne_true

theorem filter_dropWhile (s : List α) : (s.dropWhile p).filter keep = s.filter keep := by
  have h := congrArg (List.filter keep) (List.takeWhile_append_dropWhile (p := p) (l := s))
  rwa [List.filter_append, filter_eq_nil_of_all hp List.all_takeWhile, List.nil_append] at h

theorem filter_dropEndWhile (s : List α) : (dropEndWhile p s).filter keep = s.filter keep := by
  have h := congrArg (List.filter keep) (dropEndWhile_append_dropped p s)
  have hdropped : (s.reverse.takeWhile p).reverse.all p := by
    rw [List.all_reverse]
    exact List.all_takeWhile
  rwa [List.filter_append, filter_eq_nil_of_all hp hdropped, List.append_nil] at h

theorem filter_trimWith (s : List α) : (trimWith p s).filter keep = s.filter keep := by
  rw [trimWith, filter_dropEndWhile hp, filter_dropWhile hp]

end

section
variable {keep : Char → Bool}

theorem filter_flatten_map {f : Text → Text} {ss : List Text}
    (hf : ∀ s ∈ ss, (f s).filter keep = s.filter keep) :
    (ss.map f).flatten.filter keep = ss.flatten.filter keep := by
  rw [List.filter_flatten, List.filter_flatten, List.map_map]
  exact congrArg List.flatten (List.map_congr_left hf)

theorem filter_intercalate {mark : Text} (h : mark.filter keep = []) (ss : List Text) :
    (mark.intercalate ss).filter keep = ss.flatten.filter keep := by
  induction ss using List.twoStepInduction with
  | nil => rfl
  | singleton p => simp
  | cons_cons p q r _ ih => simp [List.intercalate_cons_cons, h, ih q]

theorem subset_intercalate {mark s : Text} {ss : List Text} (h : s ∈ ss) :
    s ⊆ mark.intercalate ss := by
  induction ss using List.twoStepInduction with
  | nil => exact absurd h List.not_mem_nil
  | singleton p =>
    rw [List.mem_singleton.1 h, List.intercalate_singleton]
    exact List.Subset.refl p
  | cons_cons p q r _ ih =>
    rw [List.intercalate_cons_cons]
    rcases List.mem_cons.1 h with rfl | h
    · rw [List.append_assoc]
      exact List.subset_append_left s _
    · exact List.Subset.trans (ih q h) (List.subset_append_right (p ++ mark) _)

end

theorem notMem_of_mem_splitOn {c : Char} {s piece : Text} (h : piece ∈ s.splitOn c) : c ∉ piece := by
  induction s generalizing piece with
  | nil =>
    rw [List.splitOn_nil] at h
    rw [List.mem_singleton.1 h]
    exact List.not_mem_nil
  | cons d s ih =>
    obtain ⟨first, rest, hs⟩ := List.exists_cons_of_ne_nil (List.splitOn_ne_nil c s)
    rw [List.splitOn_cons_eq_if_modifyHead, hs] at h
    rw [hs] at ih
    split at h
    · rcases List.mem_cons.1 h with rfl | h
      · exact List.not_mem_nil
      · exact ih h
    · next hd =>
      rcases List.mem_cons.1 h with rfl | h
      · rintro (_ | ⟨_, hmem⟩)
        · exact hd (beq_self_eq_true c)
        · exact ih List.mem_cons_self hmem
      · exact ih (List.mem_cons_of_mem _ h)

end PatternBridge.Text
