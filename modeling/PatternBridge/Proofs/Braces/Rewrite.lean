import Mathlib.Data.List.Basic
import PatternBridge.Proofs.Braces.Recovery
import PatternBridge.Text.Search

/-! Escaping as four rewrites of the whole text, one after the other. A rewrite replaces all of its
leftmost matches that do not overlap. What a rewrite puts in holds braces again, and the proof is
that no later rewrite finds a match that is not one of them. -/

namespace PatternBridge.Text

/-- What a rewrite puts in place of a match at the start of a text, and the text after the match. -/
structure Rewrite where
  match? : Text → Option (Text × Text)
  shorter : ∀ {s a t}, match? s = some (a, t) → t.length < s.length

namespace Rewrite

def all (r : Rewrite) (s : Text) : Text :=
  match s with
  | [] => []
  | c :: s =>
    match _h : r.match? (c :: s) with
    | some (a, t) => a ++ r.all t
    | none => c :: r.all s
termination_by s.length
decreasing_by
  · exact r.shorter _h
  · simp

def ofMark (mark a : Text) (h : mark ≠ []) : Rewrite where
  match? s := (mark.isPrefixOf? s).map fun t => (a, t)
  shorter {s b t} hs := by
    obtain ⟨u, hu, huv⟩ := Option.map_eq_some_iff.1 hs
    obtain ⟨-, rfl⟩ := Prod.mk.inj huv
    rw [← List.append_eq_of_isPrefixOf?_eq_some hu, List.length_append]
    have := List.length_pos_iff.2 h
    omega

/-- Where the first rewrite has no match, the second one may have one. -/
def orElse (r q : Rewrite) : Rewrite where
  match? s := (r.match? s).or (q.match? s)
  shorter hs := by
    obtain h | ⟨-, h⟩ := Option.or_eq_some_iff.1 hs
    · exact r.shorter h
    · exact q.shorter h

theorem all_of_match {r : Rewrite} {s a t : Text} (h : r.match? s = some (a, t)) :
    r.all s = a ++ r.all t := by
  cases s with
  | nil => exact absurd (r.shorter h) (by simp)
  | cons c s =>
    rw [all]
    split
    · next h' =>
      rw [h] at h'
      cases h'
      rfl
    · next h' => simp [h] at h'

theorem all_cons_of_none {r : Rewrite} {c : Char} {s : Text} (h : r.match? (c :: s) = none) :
    r.all (c :: s) = c :: r.all s := by
  rw [all]
  split
  · next h' => simp [h] at h'
  · rfl

theorem match?_ofMark_append {mark : Text} (a : Text) (h : mark ≠ []) (s : Text) :
    (ofMark mark a h).match? (mark ++ s) = some (a, s) := by
  have hs : mark.isPrefixOf? (mark ++ s) = some s :=
    List.isPrefixOf?_eq_some_iff_append_eq.2 rfl
  simp [ofMark, hs]

theorem match?_ofMark_eq_none {mark s : Text} (a : Text) (h : mark ≠ []) (hs : ¬ mark <+: s) :
    (ofMark mark a h).match? s = none := by
  cases ht : mark.isPrefixOf? s with
  | none => simp [ofMark, ht]
  | some t => exact absurd ⟨t, List.append_eq_of_isPrefixOf?_eq_some ht⟩ hs

theorem all_ofMark_append {mark : Text} (a : Text) (h : mark ≠ []) (s : Text) :
    (ofMark mark a h).all (mark ++ s) = a ++ (ofMark mark a h).all s :=
  all_of_match (match?_ofMark_append a h s)

theorem all_ofMark_cons {mark : Text} (a : Text) (h : mark ≠ []) {c : Char} {s : Text}
    (hs : ¬ mark <+: c :: s) : (ofMark mark a h).all (c :: s) = c :: (ofMark mark a h).all s :=
  all_cons_of_none (match?_ofMark_eq_none a h hs)

theorem all_ofMark_append_of_notMem {b : Char} {mark u : Text} (a : Text) (hu : b ∉ u) (s : Text) :
    (ofMark (b :: mark) a (by simp)).all (u ++ s) =
      u ++ (ofMark (b :: mark) a (by simp)).all s := by
  induction u with
  | nil => rfl
  | cons c u ih =>
    obtain ⟨hc, hu⟩ := not_or.1 (mt List.mem_cons.2 hu)
    rw [List.cons_append, all_ofMark_cons, ih hu, List.cons_append]
    rw [List.cons_prefix_cons]
    exact fun h => hc h.1

end Rewrite
end PatternBridge.Text

namespace PatternBridge.Braces
open Text

/-- Two opening braces become three and the opening marker. -/
def markOpen : Rewrite := .ofMark ['{', '{'] ['{', '{', '{', '<', '%'] (by simp)

/-- Two closing braces become the closing marker and three, where a brace before them stays. -/
def markClose : Rewrite :=
  (Rewrite.ofMark ['}', '}', '}'] ['}', '%', '>', '}', '}', '}'] (by simp)).orElse
    (.ofMark ['}', '}'] ['%', '>', '}', '}', '}'] (by simp))

/-- Opening markers get the braces after them. -/
def completeOpen : Rewrite :=
  .ofMark ['{', '{', '{', '<', '%'] ['{', '{', '{', '<', '%', '}', '}', '}'] (by simp)

/-- Closing markers get the braces before them. -/
def completeClose : Rewrite :=
  .ofMark ['%', '>', '}', '}', '}'] ['{', '{', '{', '%', '>', '}', '}', '}'] (by simp)

theorem markClose_append (s : Text) :
    markClose.all ('}' :: '}' :: '}' :: s) = ['}', '%', '>', '}', '}', '}'] ++ markClose.all s := by
  apply Rewrite.all_of_match
  rfl

theorem markClose_append_two {s : Text} (h : ∀ t, s ≠ '}' :: t) :
    markClose.all ('}' :: '}' :: s) = ['%', '>', '}', '}', '}'] ++ markClose.all s := by
  apply Rewrite.all_of_match
  have hthree : ¬ ['}', '}', '}'] <+: '}' :: '}' :: s := by
    rintro ⟨t, ht⟩
    simp only [List.cons_append, List.cons.injEq, true_and] at ht
    exact h t ht.symm
  have hnone := Rewrite.match?_ofMark_eq_none ['}', '%', '>', '}', '}', '}'] (by simp) hthree
  simp only [markClose, Rewrite.orElse, hnone, Option.none_or]
  rfl

theorem markClose_cons {c : Char} {s : Text} (h : c = '}' → ∀ t, s ≠ '}' :: t) :
    markClose.all (c :: s) = c :: markClose.all s := by
  have hpair (mark : Text) : ¬ '}' :: '}' :: mark <+: c :: s := by
    rintro ⟨t, ht⟩
    obtain ⟨hc, hs⟩ := List.cons.inj ht
    exact h hc.symm _ hs.symm
  apply Rewrite.all_cons_of_none
  simp only [markClose, Rewrite.orElse, Rewrite.match?_ofMark_eq_none _ _ (hpair _), Option.or_self]

theorem markClose_append_of_notMem {u : Text} (hu : '}' ∉ u) (s : Text) :
    markClose.all (u ++ s) = u ++ markClose.all s := by
  induction u with
  | nil => rfl
  | cons c u ih =>
    obtain ⟨hc, hu⟩ := not_or.1 (mt List.mem_cons.2 hu)
    rw [List.cons_append, markClose_cons fun h => absurd h.symm hc, ih hu, List.cons_append]

theorem markOpen_append (s : Text) :
    markOpen.all ('{' :: '{' :: s) = ['{', '{', '{', '<', '%'] ++ markOpen.all s :=
  Rewrite.all_ofMark_append _ _ s

theorem markOpen_cons {c : Char} {s : Text} (h : c = '{' → ∀ t, s ≠ '{' :: t) :
    markOpen.all (c :: s) = c :: markOpen.all s := by
  apply Rewrite.all_ofMark_cons
  rintro ⟨t, ht⟩
  obtain ⟨hc, hs⟩ := List.cons.inj ht
  exact h hc.symm _ hs.symm

theorem markOpen_ne_close {s : Text} (hs : ∀ t, s ≠ '}' :: t) (t : Text) :
    markOpen.all s ≠ '}' :: t := by
  intro h
  cases s with
  | nil => simp [Rewrite.all] at h
  | cons c s =>
    by_cases hc : c = '{' ∧ ∃ u, s = '{' :: u
    · obtain ⟨rfl, u, rfl⟩ := hc
      rw [markOpen_append] at h
      exact absurd (List.cons.inj h).1 (by decide)
    · rw [markOpen_cons fun hb u hu => hc ⟨hb, u, hu⟩] at h
      exact hs s (by rw [(List.cons.inj h).1])

/-- The two marking rewrites see different braces, so they act as one. -/
theorem markClose_markOpen (s : Text) :
    markClose.all (markOpen.all s) =
      escapeWith ['{', '{', '{', '<', '%'] ['%', '>', '}', '}', '}'] s := by
  fun_induction escapeWith ['{', '{', '{', '<', '%'] ['%', '>', '}', '}', '}'] s with
  | case1 => simp [Rewrite.all]
  | case2 s ih => rw [markOpen_append, markClose_append_of_notMem (by decide), ih]
  | case3 s ih =>
    rw [markOpen_cons (by simp), markOpen_cons (by simp), markOpen_cons (by simp),
      markClose_append, ih]
    rfl
  | case4 s hs ih =>
    -- the opening rewrite puts no closing brace behind the two
    rw [markOpen_cons (by simp), markOpen_cons (by simp),
      markClose_append_two (markOpen_ne_close hs), ih]
  | case5 c s hopen _ hclose ih =>
    rw [markOpen_cons fun hc t => hopen t hc, markClose_cons, ih]
    exact fun hc => markOpen_ne_close fun t => hclose t hc

/-- Text escaped so far starts as the text itself, apart from what stands for closing braces. -/
theorem exists_cons_of_escapeWith {o cl s t : Text} {b x : Char}
    (h : escapeWith ('{' :: o) (b :: cl) s = x :: t) (hx : x ≠ b) : ∃ u, s = x :: u := by
  fun_cases escapeWith ('{' :: o) (b :: cl) s with
  | case1 => simp [escapeWith] at h
  | case2 s =>
    rw [escapeWith.eq_2] at h
    exact ⟨_, by rw [← (List.cons.inj h).1]⟩
  | case3 s =>
    rw [escapeWith.eq_3] at h
    exact ⟨_, by rw [← (List.cons.inj h).1]⟩
  | case4 s hs =>
    rw [escapeWith.eq_4 _ _ _ hs] at h
    exact absurd (List.cons.inj h).1.symm hx
  | case5 c s h₁ h₂ h₃ =>
    rw [escapeWith.eq_5 _ _ _ _ h₁ h₂ h₃] at h
    exact ⟨_, by rw [← (List.cons.inj h).1]⟩

theorem completeOpen_escapeWith (s : Text) :
    completeOpen.all (escapeWith ['{', '{', '{', '<', '%'] ['%', '>', '}', '}', '}'] s) =
      escapeWith ['{', '{', '{', '<', '%', '}', '}', '}'] ['%', '>', '}', '}', '}'] s := by
  have hpass {u : Text} (hu : '{' ∉ u) (s : Text) :
      completeOpen.all (u ++ s) = u ++ completeOpen.all s :=
    Rewrite.all_ofMark_append_of_notMem _ hu s
  fun_induction escapeWith ['{', '{', '{', '<', '%'] ['%', '>', '}', '}', '}'] s with
  | case1 => simp [Rewrite.all, escapeWith]
  | case2 s ih =>
    rw [escapeWith.eq_2, ← ih]
    exact Rewrite.all_ofMark_append _ _ _
  | case3 s ih =>
    rw [escapeWith.eq_3, ← ih]
    exact hpass (u := ['}', '%', '>', '}', '}', '}']) (by decide) _
  | case4 s hs ih => rw [escapeWith.eq_4 _ _ _ hs, ← ih, hpass (by decide)]
  | case5 c s h₁ h₂ h₃ ih =>
    rw [escapeWith.eq_5 _ _ _ _ h₁ h₂ h₃, ← ih]
    apply Rewrite.all_ofMark_cons
    rintro ⟨t, ht⟩
    obtain ⟨hc, hs⟩ := List.cons.inj ht
    -- a match would start with two braces of the text itself, which were rewritten already
    obtain ⟨u, hu⟩ := exists_cons_of_escapeWith hs.symm (by decide)
    exact h₁ u hc.symm hu

theorem not_braces_prefix_escapeWith {o cl : Text} {b : Char} (hb : b ≠ '}') (s : Text) :
    ¬ ['}', '}'] <+: escapeWith ('{' :: o) (b :: cl) s := by
  rintro ⟨t, ht⟩
  fun_cases escapeWith ('{' :: o) (b :: cl) s with
  | case1 => simp [escapeWith] at ht
  | case2 s => simp [escapeWith] at ht
  | case3 s =>
    rw [escapeWith.eq_3] at ht
    exact hb (List.cons.inj (List.cons.inj ht).2).1.symm
  | case4 s hs =>
    rw [escapeWith.eq_4 _ _ _ hs] at ht
    exact hb (List.cons.inj ht).1.symm
  | case5 c s h₁ h₂ h₃ =>
    rw [escapeWith.eq_5 _ _ _ _ h₁ h₂ h₃] at ht
    obtain ⟨hc, hs⟩ := List.cons.inj ht
    obtain ⟨u, hu⟩ := exists_cons_of_escapeWith hs.symm hb.symm
    exact h₃ u hc.symm hu

theorem completeClose_escapeWith (s : Text) :
    completeClose.all
        (escapeWith ['{', '{', '{', '<', '%', '}', '}', '}'] ['%', '>', '}', '}', '}'] s) =
      escapeWith openLookup closeLookup s := by
  have hpass {u : Text} (hu : '%' ∉ u) (s : Text) :
      completeClose.all (u ++ s) = u ++ completeClose.all s :=
    Rewrite.all_ofMark_append_of_notMem _ hu s
  have hmark (s : Text) :
      completeClose.all (['%', '>', '}', '}', '}'] ++ s) = closeLookup ++ completeClose.all s :=
    Rewrite.all_ofMark_append _ _ s
  have hopen (s : Text) :
      completeClose.all (['{', '{', '{', '<', '%', '}', '}', '}'] ++ s) =
        openLookup ++ completeClose.all s := by
    have hpercent : completeClose.all ('%' :: (['}', '}', '}'] ++ s)) =
        '%' :: completeClose.all (['}', '}', '}'] ++ s) :=
      Rewrite.all_ofMark_cons _ _ (by simp)
    rw [openLookup_append]
    calc completeClose.all (['{', '{', '{', '<'] ++ '%' :: (['}', '}', '}'] ++ s))
      _ = ['{', '{', '{', '<'] ++ completeClose.all ('%' :: (['}', '}', '}'] ++ s)) :=
        hpass (by decide) _
      _ = ['{', '{', '{', '<'] ++ '%' :: (['}', '}', '}'] ++ completeClose.all s) := by
        rw [hpercent, hpass (by decide)]
  fun_induction escapeWith openLookup closeLookup s with
  | case1 => simp [Rewrite.all, escapeWith]
  | case2 s ih => rw [escapeWith.eq_2, hopen, ih]
  | case3 s ih =>
    have hbrace := hpass (u := ['}']) (by decide)
    rw [escapeWith.eq_3, ← List.singleton_append, hbrace, hmark, ih]
    rfl
  | case4 s hs ih => rw [escapeWith.eq_4 _ _ _ hs, hmark, ih]
  | case5 c s h₁ h₂ h₃ ih =>
    rw [escapeWith.eq_5 _ _ _ _ h₁ h₂ h₃, ← ih]
    apply Rewrite.all_ofMark_cons
    rintro ⟨t, ht⟩
    obtain ⟨-, hs⟩ := List.cons.inj ht
    -- a marker that the text holds itself is not followed by two braces
    obtain ⟨u, rfl⟩ := exists_cons_of_escapeWith hs.symm (by decide)
    rw [escapeWith.eq_5 _ _ _ _ (by simp) (by simp) (by simp)] at hs
    exact not_braces_prefix_escapeWith (by decide) u ⟨_, (List.cons.inj hs).2⟩

theorem encode_eq_rewrites (s : Text) :
    encode s = completeClose.all (completeOpen.all (markClose.all (markOpen.all s))) := by
  rw [markClose_markOpen, completeOpen_escapeWith, completeClose_escapeWith, encode_eq_escapeWith]

end PatternBridge.Braces
