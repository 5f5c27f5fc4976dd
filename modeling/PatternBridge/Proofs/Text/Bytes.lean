import Mathlib.Data.List.Infix
import Mathlib.Order.Bounds.Basic
import PatternBridge.Text.Bytes

/-! Lengths in bytes. The boundaries of a text are the lengths of its prefixes, and the search backward
from a limit ends at the greatest of them, so that a cut text is the longest prefix of whole characters
that fits. -/

namespace PatternBridge.Text

variable {n : Nat} {s p q : Text}

theorem byteLength_append (a b : Text) : byteLength (a ++ b) = byteLength a + byteLength b := by
  induction a with
  | nil => exact (Nat.zero_add _).symm
  | cons c a ih => rw [List.cons_append, byteLength, byteLength, ih, Nat.add_assoc]

theorem byteLength_le_of_prefix (h : p <+: s) : byteLength p ≤ byteLength s := by
  obtain ⟨rest, rfl⟩ := h
  rw [byteLength_append]
  exact Nat.le_add_right _ _

theorem prefix_of_byteLength_le (hp : p <+: s) (hq : q <+: s) (h : byteLength p ≤ byteLength q) :
    p <+: q := by
  obtain hpq | ⟨rest, rfl⟩ := List.prefix_or_prefix_of_prefix hp hq
  · exact hpq
  · rw [byteLength_append] at h
    cases rest with
    | nil => rw [List.append_nil]
    | cons c rest =>
      have hc := c.utf8Size_pos
      rw [byteLength] at h
      omega

theorem takeBytes_of_prefix (h : p <+: s) : takeBytes (byteLength p) s = p := by
  induction p generalizing s with
  | nil =>
    cases s with
    | nil => rfl
    | cons c s => exact if_neg (Nat.not_le_of_lt c.utf8Size_pos)
  | cons c p ih =>
    obtain ⟨rest, rfl⟩ := h
    rw [List.cons_append, takeBytes, byteLength, if_pos (Nat.le_add_right _ _),
      Nat.add_sub_cancel_left, ih (List.prefix_append p rest)]

theorem isBoundary_iff : isBoundary n s ↔ ∃ p, p <+: s ∧ byteLength p = n := by
  induction s generalizing n with
  | nil =>
    rw [isBoundary, beq_iff_eq]
    constructor
    · rintro rfl
      exact ⟨[], List.nil_prefix, rfl⟩
    · rintro ⟨p, hp, rfl⟩
      rw [List.prefix_nil.1 hp, byteLength]
  | cons c s ih =>
    rw [isBoundary, Bool.or_eq_true, Bool.and_eq_true, beq_iff_eq, decide_eq_true_eq, ih]
    constructor
    · rintro (rfl | ⟨hle, p, hp, hlength⟩)
      · exact ⟨[], List.nil_prefix, rfl⟩
      · refine ⟨c :: p, (List.prefix_cons_inj c).2 hp, ?_⟩
        rw [byteLength, hlength, Nat.add_sub_cancel' hle]
    · rintro ⟨p, hp, rfl⟩
      cases p with
      | nil => exact .inl rfl
      | cons d p =>
        obtain ⟨rfl, htail⟩ := List.cons_prefix_cons.1 hp
        exact .inr ⟨Nat.le_add_right _ _, p, htail, (Nat.add_sub_cancel_left _ _).symm⟩

theorem isGreatest_lastBoundary (s : Text) (n : Nat) :
    IsGreatest {i | i ≤ n ∧ isBoundary i s} (lastBoundary s n) := by
  induction n with
  | zero => exact ⟨⟨Nat.le_refl 0, isBoundary_iff.2 ⟨[], List.nil_prefix, rfl⟩⟩, fun _ hi => hi.1⟩
  | succ n ih =>
    rw [lastBoundary]
    split
    · next h => exact ⟨⟨Nat.le_refl _, h⟩, fun _ hi => hi.1⟩
    · next h =>
      refine ⟨⟨Nat.le_succ_of_le ih.1.1, ih.1.2⟩, fun i hi => ih.2 ⟨?_, hi.2⟩⟩
      have hne : i ≠ n + 1 := fun heq => h (heq ▸ hi.2)
      exact Nat.le_of_lt_succ (Nat.lt_of_le_of_ne hi.1 hne)

theorem lastBoundary_of_le (h : byteLength s ≤ n) : lastBoundary s n = byteLength s := by
  refine (isGreatest_lastBoundary s n).unique ⟨⟨h, isBoundary_iff.2 ⟨s, List.prefix_rfl, rfl⟩⟩, ?_⟩
  rintro i ⟨-, hi⟩
  obtain ⟨p, hp, rfl⟩ := isBoundary_iff.1 hi
  exact byteLength_le_of_prefix hp

theorem truncate_prefix (n : Nat) (s : Text) :
    truncate n s <+: s ∧ byteLength (truncate n s) = lastBoundary s n := by
  unfold truncate
  split
  · next h => exact ⟨List.prefix_rfl, (lastBoundary_of_le h).symm⟩
  · obtain ⟨p, hp, hlength⟩ := isBoundary_iff.1 (isGreatest_lastBoundary s n).1.2
    rw [← hlength, takeBytes_of_prefix hp]
    exact ⟨hp, rfl⟩

theorem prefix_truncate (hp : p <+: s) (h : byteLength p ≤ n) : p <+: truncate n s := by
  obtain ⟨hcut, hlength⟩ := truncate_prefix n s
  refine prefix_of_byteLength_le hp hcut (hlength ▸ ?_)
  exact (isGreatest_lastBoundary s n).2 ⟨h, isBoundary_iff.2 ⟨p, hp, rfl⟩⟩

end PatternBridge.Text
