import Mathlib.Data.List.Basic
import PatternBridge.Text.Blank

/-! Maximal runs of a character in a text. A run is found in the part of the text that it starts in, as
long as that part does not end in the middle of one. -/

namespace PatternBridge.Text

variable {c d : Char} {n k : Nat} {p s a b before after : Text}

/-- The text has `c` exactly `n` times between `before` and `after`. -/
structure Run (c : Char) (n : Nat) (s before after : Text) : Prop where
  pos : 0 < n
  eq : s = before ++ (List.replicate n c ++ after)
  before_ne : before.getLast? ≠ some c
  after_ne : after.head? ≠ some c

/-- The places at which a run of `n` times `c` starts. -/
def runsOf (c : Char) (n : Nat) (s : Text) : Set Nat :=
  {i | ∃ before after, Run c n s before after ∧ before.length = i}

theorem exists_eq_replicate_append (c : Char) (s : Text) :
    ∃ n b, s = List.replicate n c ++ b ∧ b.head? ≠ some c := by
  induction s with
  | nil => exact ⟨0, [], rfl, by simp⟩
  | cons d s ih =>
    by_cases hd : d = c
    · obtain ⟨n, b, rfl, hb⟩ := ih
      exact ⟨n + 1, b, by rw [hd, List.replicate_succ, List.cons_append], hb⟩
    · exact ⟨0, d :: s, rfl, by simpa using hd⟩

theorem exists_eq_append_replicate (c : Char) (s : Text) :
    ∃ n a, s = a ++ List.replicate n c ∧ a.getLast? ≠ some c := by
  obtain ⟨n, b, hs, hb⟩ := exists_eq_replicate_append c s.reverse
  refine ⟨n, b.reverse, ?_, by rwa [List.getLast?_reverse]⟩
  rw [← List.reverse_reverse s, hs, List.reverse_append, List.reverse_replicate]

theorem exists_run (h : s = before ++ c :: after) :
    ∃ i j a b, before = a ++ List.replicate i c ∧ after = List.replicate j c ++ b ∧
      Run c (i + 1 + j) s a b := by
  obtain ⟨i, a, rfl, ha⟩ := exists_eq_append_replicate c before
  obtain ⟨j, b, rfl, hb⟩ := exists_eq_replicate_append c after
  refine ⟨i, j, a, b, rfl, rfl, by omega, ?_, ha, hb⟩
  rw [h, List.replicate_add, List.replicate_add, List.append_assoc, List.append_assoc,
    List.append_assoc]
  rfl

theorem replicate_append_inj (ha : a.head? ≠ some c) (hb : b.head? ≠ some c)
    (h : List.replicate n c ++ a = List.replicate k c ++ b) : n = k ∧ a = b := by
  induction n generalizing k with
  | zero =>
    cases k with
    | zero => exact ⟨rfl, h⟩
    | succ k => exact absurd (by rw [List.replicate_zero, List.nil_append] at h; rw [h]; rfl) ha
  | succ n ih =>
    cases k with
    | zero => exact absurd (by rw [List.replicate_zero, List.nil_append] at h; rw [← h]; rfl) hb
    | succ k =>
      obtain ⟨hn, hab⟩ := ih (List.cons.inj h).2
      exact ⟨congrArg Nat.succ hn, hab⟩

theorem not_run_nil : ¬ Run c n [] before after := by
  intro h
  have hlength := congrArg List.length h.eq
  have := h.pos
  simp at hlength
  omega

theorem Run.of_append (h : Run c n (p ++ s) (p ++ before) after) : Run c n s before after := by
  refine ⟨h.pos, List.append_cancel_left (h.eq.trans (List.append_assoc _ _ _)), ?_, h.after_ne⟩
  intro hlast
  exact h.before_ne (by rw [List.getLast?_append, hlast, Option.some_or])

theorem Run.append (h : Run c n s before after) (hp : before = [] → p.getLast? ≠ some c) :
    Run c n (p ++ s) (p ++ before) after := by
  refine ⟨h.pos, by rw [h.eq, List.append_assoc], ?_, h.after_ne⟩
  cases before with
  | nil => rw [List.append_nil]; exact hp rfl
  | cons d before => rw [List.getLast?_append_cons]; exact h.before_ne

theorem Run.exists_cons (h : Run c n s [] after) : ∃ t, s = c :: t := by
  obtain ⟨m, rfl⟩ := Nat.exists_eq_add_one.2 h.pos
  exact ⟨_, h.eq⟩

theorem run_replicate_append_iff (hk : 0 < k) (hs : s.head? ≠ some c) :
    Run c n (List.replicate k c ++ s) before after ↔
      before = [] ∧ n = k ∧ after = s ∨
      ∃ before', before = List.replicate k c ++ before' ∧ Run c n s before' after := by
  constructor
  · intro h
    obtain ⟨m, rfl, -⟩ | ⟨m, hm, hafter⟩ := List.append_eq_append_iff.1 h.eq
    · exact .inr ⟨m, rfl, h.of_append⟩
    · have hbefore : before = [] := by
        rcases List.eq_nil_or_concat before with hnil | ⟨front, d, rfl⟩
        · exact hnil
        · have hd : d ∈ List.replicate k c := hm ▸ by simp
          exact absurd (by simp [List.eq_of_mem_replicate hd]) h.before_ne
      rw [hbefore, List.nil_append] at hm
      obtain ⟨hn, hafter⟩ := replicate_append_inj h.after_ne hs (hm ▸ hafter)
      exact .inl ⟨hbefore, hn, hafter⟩
  · rintro (⟨rfl, rfl, rfl⟩ | ⟨before', rfl, h⟩)
    · exact ⟨hk, rfl, by simp, hs⟩
    · refine h.append ?_
      rintro rfl
      obtain ⟨t, rfl⟩ := h.exists_cons
      exact absurd rfl hs

theorem run_append_iff_of_notMem (hp : c ∉ p) :
    Run c n (p ++ s) before after ↔ ∃ before', before = p ++ before' ∧ Run c n s before' after := by
  constructor
  · intro h
    obtain ⟨m, rfl, -⟩ | ⟨m, rfl, hafter⟩ := List.append_eq_append_iff.1 h.eq
    · exact ⟨m, rfl, h.of_append⟩
    · cases m with
      | nil =>
        refine ⟨[], by rw [List.append_nil, List.append_nil], ?_⟩
        exact ⟨h.pos, hafter.symm, by simp, h.after_ne⟩
      | cons d m =>
        obtain ⟨j, rfl⟩ := Nat.exists_eq_add_one.2 h.pos
        rw [(List.cons.inj hafter).1] at hp
        exact absurd (by simp) hp
  · rintro ⟨before', rfl, h⟩
    exact h.append fun _ hlast => hp (List.mem_of_getLast? hlast)

end PatternBridge.Text
