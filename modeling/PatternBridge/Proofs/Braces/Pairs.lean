import Mathlib.Data.List.SplitBy
import PatternBridge.Braces.Escape
import PatternBridge.Proofs.Text.Runs

/-! Escaping from the left, by pairs of opening braces and by threes and pairs of closing ones. It
gives what escaping by runs gives. -/

namespace PatternBridge.Braces
open Text

def escapeWith (opening closing : Text) : Text → Text
  | [] => []
  | '{' :: '{' :: s => opening ++ escapeWith opening closing s
  | '}' :: '}' :: '}' :: s => '}' :: (closing ++ escapeWith opening closing s)
  | '}' :: '}' :: s => closing ++ escapeWith opening closing s
  | c :: s => c :: escapeWith opening closing s

section
variable {opening closing s : Text} {c : Char}

theorem escapeWith_cons (h : c = '{' ∨ c = '}' → s.head? ≠ some c) :
    escapeWith opening closing (c :: s) = c :: escapeWith opening closing s := by
  apply escapeWith.eq_5
  · rintro t rfl rfl
    exact h (.inl rfl) rfl
  · rintro t rfl rfl
    exact h (.inr rfl) rfl
  · rintro t rfl rfl
    exact h (.inr rfl) rfl

theorem escapeWith_closing (h : s.head? ≠ some '}') :
    escapeWith opening closing ('}' :: '}' :: s) = closing ++ escapeWith opening closing s := by
  apply escapeWith.eq_4
  rintro t rfl
  exact h rfl

end

theorem openRun_add_two (n : Nat) : openRun (n + 2) = openLookup ++ openRun n := by
  rw [openRun, openRun, Nat.add_div_right n Nat.two_pos, Nat.add_mod_right, List.replicate_succ,
    List.flatten_cons, List.append_assoc]

theorem escapeWith_opening_run {t : Text} (ht : t.head? ≠ some '{') (n : Nat) :
    escapeWith openLookup closeLookup (List.replicate n '{' ++ t) =
      openRun n ++ escapeWith openLookup closeLookup t := by
  induction n using Nat.twoStepInduction with
  | zero => rfl
  | one => exact escapeWith_cons fun _ => ht
  | more n ih _ =>
    rw [openRun_add_two, List.append_assoc, ← ih]
    exact escapeWith.eq_2 ..

theorem escapeWith_closing_run {t : Text} (ht : t.head? ≠ some '}') (n : Nat) :
    escapeWith openLookup closeLookup (List.replicate n '}' ++ t) =
      closeRun n ++ escapeWith openLookup closeLookup t := by
  fun_induction closeRun n with
  | case1 => rfl
  | case2 => exact escapeWith_cons fun _ => ht
  | case3 => exact escapeWith_closing ht
  | case4 n ih =>
    rw [List.cons_append, List.append_assoc, ← ih]
    exact escapeWith.eq_3 ..

@[simp] theorem encode_nil : encode [] = [] := rfl

theorem encode_append {u v : Text} (h : ∀ c ∈ u.getLast?, v.head? ≠ some c) :
    encode (u ++ v) = encode u ++ encode v := by
  have hsplit : (u ++ v).splitBy (· == ·) = u.splitBy (· == ·) ++ v.splitBy (· == ·) := by
    apply List.splitBy_append
    intro c hc d hd
    apply beq_eq_false_iff_ne.2
    rintro rfl
    exact h c hc hd
  rw [encode, hsplit, List.flatMap_append]
  rfl

theorem encode_run {c : Char} {t : Text} (ht : t.head? ≠ some c) (n : Nat) :
    encode (List.replicate (n + 1) c ++ t) = encodeRun (List.replicate (n + 1) c) ++ encode t := by
  have hrun : (List.replicate (n + 1) c).splitBy (· == ·) = [List.replicate (n + 1) c] := by
    apply List.splitBy_of_isChain (by simp)
    exact List.isChain_replicate_of_rel _ (beq_self_eq_true c)
  rw [encode_append, encode, hrun, List.flatMap_singleton]
  intro d hd
  rwa [List.eq_of_mem_replicate (List.mem_of_getLast? hd)]

theorem encode_eq_escapeWith (s : Text) : encode s = escapeWith openLookup closeLookup s := by
  induction hlength : s.length using Nat.strong_induction_on generalizing s with
  | _ k ih =>
    subst hlength
    cases s with
    | nil => rfl
    | cons c s =>
      obtain ⟨n, t, rfl, ht⟩ := exists_eq_replicate_append c s
      have hrest : encode t = escapeWith openLookup closeLookup t := by
        refine ih _ ?_ t rfl
        rw [List.length_cons, List.length_append]
        omega
      rw [← List.cons_append, ← List.replicate_succ, encode_run ht, hrest]
      by_cases hopen : c = '{'
      · rw [hopen] at ht ⊢
        rw [escapeWith_opening_run ht, List.replicate_succ, encodeRun, List.length_replicate]
      by_cases hclose : c = '}'
      · rw [hclose] at ht ⊢
        rw [escapeWith_closing_run ht, List.replicate_succ, encodeRun, List.length_replicate]
      -- what is no brace stays as it is
      have hself (n : Nat) (t : Text) : escapeWith openLookup closeLookup (List.replicate n c ++ t) =
          List.replicate n c ++ escapeWith openLookup closeLookup t := by
        induction n with
        | zero => rfl
        | succ n ih =>
          rw [List.replicate_succ, List.cons_append, escapeWith_cons (by simp [hopen, hclose]), ih]
          rfl
      rw [hself, List.replicate_succ, encodeRun]
      · rintro u hu
        exact hopen (List.cons.inj hu).1
      · rintro u hu
        exact hclose (List.cons.inj hu).1

section
variable {s : Text} {c : Char}

theorem encode_opening (s : Text) : encode ('{' :: '{' :: s) = openLookup ++ encode s := by
  rw [encode_eq_escapeWith, escapeWith.eq_2, encode_eq_escapeWith]

theorem encode_three (s : Text) :
    encode ('}' :: '}' :: '}' :: s) = '}' :: (closeLookup ++ encode s) := by
  rw [encode_eq_escapeWith, escapeWith.eq_3, encode_eq_escapeWith]

theorem encode_closing (h : s.head? ≠ some '}') :
    encode ('}' :: '}' :: s) = closeLookup ++ encode s := by
  rw [encode_eq_escapeWith, escapeWith_closing h, encode_eq_escapeWith]

theorem encode_cons (h : c = '{' ∨ c = '}' → s.head? ≠ some c) : encode (c :: s) = c :: encode s := by
  rw [encode_eq_escapeWith, escapeWith_cons h, encode_eq_escapeWith]

end

@[elab_as_elim]
theorem encode_induction {P : Text → Prop} (nil : P [])
    (opening : ∀ s, P s → P ('{' :: '{' :: s)) (three : ∀ s, P s → P ('}' :: '}' :: '}' :: s))
    (two : ∀ s, s.head? ≠ some '}' → P s → P ('}' :: '}' :: s))
    (char : ∀ c s, (c = '{' ∨ c = '}' → s.head? ≠ some c) → P s → P (c :: s)) (x : Text) : P x := by
  fun_induction escapeWith [] [] x with
  | case1 => exact nil
  | case2 s ih => exact opening s ih
  | case3 s ih => exact three s ih
  | case4 s hs ih =>
    refine two s (fun hhead => ?_) ih
    obtain ⟨t, rfl⟩ := List.head?_eq_some_iff.1 hhead
    exact hs t rfl
  | case5 c s hopen _ hclose ih =>
    refine char c s (fun hc hhead => ?_) ih
    obtain ⟨t, rfl⟩ := List.head?_eq_some_iff.1 hhead
    rcases hc with rfl | rfl
    · exact hopen t rfl rfl
    · exact hclose t rfl rfl

end PatternBridge.Braces
