import Mathlib.Algebra.Ring.Parity
import Mathlib.Data.Set.Function
import Mathlib.Order.Monotone.Basic
import PatternBridge.Proofs.Braces.Recovery
import PatternBridge.Proofs.Text.Runs

/-! What a generator meets in escaped text: every run of opening braces is a lone brace, the start of a
lookup, or a lone brace with a lookup of closing braces behind it. The last of these comes from one place
in the text, where an odd number of opening braces meets exactly two closing ones. -/

namespace PatternBridge.Braces
open Text

variable {x s u v a b w t : Text} {c : Char} {n k : Nat}

def StartsLookup (s : Text) : Prop := openLookup <+: s ∨ closeLookup <+: s

/-- The places between a run of an odd number of opening braces and one of exactly two closing
braces. -/
def meetings (x : Text) : Set Nat :=
  {i | i ∈ runsOf '}' 2 x ∧ ∃ j n, Odd n ∧ j ∈ runsOf '{' n x ∧ j + n = i}

/-- Where the last character stands that the text before place `i` has when it is escaped. -/
def escapedEnd (x : Text) (i : Nat) : Nat := (encode (x.take i)).length - 1

theorem encode_ne_nil (h : s ≠ []) : encode s ≠ [] := by
  intro hs
  exact h (encode_injective hs)

theorem getLast?_of_encode (h : (encode u).getLast? = some '{') : u.getLast? = some '{' := by
  have hlookup {p s : Text} (hp : p.getLast? = some '}') (h : (p ++ encode s).getLast? = some '{') :
      (encode s).getLast? = some '{' := by
    rw [List.getLast?_append, hp] at h
    exact (Option.or_eq_some_iff.1 h).resolve_right fun hlast => absurd hlast.2 (by decide)
  have hrest {p s : Text} (h : s.getLast? = some '{') : (p ++ s).getLast? = some '{' := by
    rw [List.getLast?_append, h, Option.some_or]
  induction u using encode_induction with
  | nil => exact h
  | opening s ih =>
    rw [encode_opening] at h
    exact hrest (p := ['{', '{']) (ih (hlookup (by decide) h))
  | three s ih =>
    rw [encode_three] at h
    exact hrest (p := ['}', '}', '}']) (ih (hlookup (p := '}' :: closeLookup) (by decide) h))
  | two s hclose ih =>
    rw [encode_closing hclose] at h
    exact hrest (p := ['}', '}']) (ih (hlookup (by decide) h))
  | char c s hc ih =>
    rw [encode_cons hc] at h
    cases s with
    | nil => exact h
    | cons d s =>
      obtain ⟨e, t, ht⟩ := List.exists_cons_of_ne_nil (encode_ne_nil (List.cons_ne_nil d s))
      rw [ht, List.getLast?_cons_cons, ← ht] at h
      exact hrest (p := [c]) (ih h)

theorem encode_replicate (k : Nat) (s : Text) :
    encode (List.replicate (2 * k) '{' ++ s) = (List.replicate k openLookup).flatten ++ encode s := by
  induction k with
  | zero => rfl
  | succ k ih =>
    rw [List.replicate_succ, List.flatten_cons, List.append_assoc, ← ih]
    exact encode_opening _

theorem encode_append_replicate (ha : a.getLast? ≠ some '{') (k : Nat)
    (hs : ∀ d ∈ s.head?, d = '{') :
    encode (a ++ (List.replicate (2 * k) '{' ++ s)) =
      encode a ++ (List.replicate k openLookup).flatten ++ encode s := by
  rw [encode_append, encode_replicate, List.append_assoc]
  intro c hc hhead
  rw [List.head?_append, List.head?_replicate] at hhead
  split at hhead
  · exact ha (hs c hhead ▸ hc)
  · exact ha (Option.some.inj hhead ▸ hc)

theorem getLast?_escaped_ne (ha : a.getLast? ≠ some '{') (k : Nat) :
    (encode a ++ (List.replicate k openLookup).flatten).getLast? ≠ some '{' := by
  cases k with
  | zero =>
    rw [List.replicate_zero, List.flatten_nil, List.append_nil]
    exact mt getLast?_of_encode ha
  | succ k =>
    have hlast : openLookup.getLast? = some '}' := by decide
    rw [List.replicate_succ', List.flatten_append, List.flatten_singleton, ← List.append_assoc,
      List.getLast?_append, hlast, Option.some_or]
    decide

theorem exists_odd_of_encode_eq (h : encode u = w ++ ['{']) :
    ∃ k a, u = a ++ List.replicate (2 * k + 1) '{' ∧ a.getLast? ≠ some '{' := by
  obtain ⟨n, a, rfl, ha⟩ := exists_eq_append_replicate '{' u
  obtain ⟨k, rfl | rfl⟩ := n.even_or_odd'
  · have heven := encode_append_replicate (s := []) ha k (by simp)
    rw [List.append_nil, h, encode_nil, List.append_nil] at heven
    exact absurd (by rw [← heven, List.getLast?_concat]) (getLast?_escaped_ne ha k)
  · exact ⟨k, a, rfl, ha⟩

/-- Where a run of opening braces in escaped text comes from. -/
inductive OpenRun (x : Text) : Nat → Text → Text → Prop
  | brace (w t : Text) : OpenRun x 1 w t
  | lookup {w t : Text} (h : StartsLookup (List.replicate 3 '{' ++ t)) : OpenRun x 3 w t
  | meeting {u b w : Text} (hx : x = u ++ '}' :: '}' :: b) (hb : b.head? ≠ some '}')
      (hu : encode u = w ++ ['{']) : OpenRun x 4 w (['%', '>', '}', '}', '}'] ++ encode b)

theorem OpenRun.prepend {p e : Text} (h : OpenRun s n w t)
    (hp : ∀ u, u <+: s → u ≠ [] → encode (p ++ u) = e ++ encode u) :
    OpenRun (p ++ s) n (e ++ w) t := by
  cases h with
  | brace => exact .brace _ _
  | lookup h => exact .lookup h
  | @meeting u b w hx hb hu =>
    have hne : u ≠ [] := by
      rintro rfl
      simp [encode_nil] at hu
    refine .meeting (u := p ++ u) (by rw [hx, List.append_assoc]) hb ?_
    rw [hp u ⟨_, hx.symm⟩ hne, hu, List.append_assoc]

theorem run_lookup_append {p : Text} (hp : p = openLookup ∨ p = closeLookup)
    (h : Run '{' n (p ++ s) w t) :
    w = [] ∧ n = 3 ∧ List.replicate 3 '{' ++ t = p ++ s ∨ ∃ w', w = p ++ w' ∧ Run '{' n s w' t := by
  obtain ⟨q, rfl, hbrace, hhead⟩ :
      ∃ q, p = List.replicate 3 '{' ++ q ∧ '{' ∉ q ∧ (q ++ s).head? ≠ some '{' := by
    rcases hp with rfl | rfl
    · exact ⟨['<', '%', '}', '}', '}'], by decide, by decide, by simp⟩
    · exact ⟨['%', '>', '}', '}', '}'], by decide, by decide, by simp⟩
  rw [List.append_assoc] at h
  obtain ⟨rfl, rfl, rfl⟩ | ⟨w, rfl, hq⟩ := (run_replicate_append_iff (by decide) hhead).1 h
  · exact .inl ⟨rfl, rfl, (List.append_assoc _ _ _).symm⟩
  · obtain ⟨w, rfl, hs⟩ := (run_append_iff_of_notMem hbrace).1 hq
    exact .inr ⟨w, (List.append_assoc _ _ _).symm, hs⟩

theorem head?_encode_cases (hs : s.head? ≠ some '{') : (encode s).head? ≠ some '{' ∨
    ∃ b, s = '}' :: '}' :: b ∧ b.head? ≠ some '}' := by
  cases s using encode_induction with
  | nil => exact .inl hs
  | opening s => exact absurd rfl hs
  | three s => rw [encode_three]; exact .inl (by simp)
  | two s hclose => exact .inr ⟨s, rfl, hclose⟩
  | char c s hc => rw [encode_cons hc]; exact .inl hs

theorem openRun_of_run (h : Run '{' n (encode x) w t) : OpenRun x n w t := by
  have hhead {u s : Text} {c : Char} (hu : u <+: s) (hne : u ≠ []) (hs : s.head? ≠ some c) :
      u.head? ≠ some c := by
    obtain ⟨r, rfl⟩ := hu
    rwa [List.head?_append_of_ne_nil u hne] at hs
  induction x using encode_induction generalizing w with
  | nil => exact absurd h not_run_nil
  | opening s ih =>
    rw [encode_opening] at h
    obtain ⟨rfl, rfl, ht⟩ | ⟨w, rfl, hs⟩ := run_lookup_append (.inl rfl) h
    · exact .lookup (.inl ⟨_, ht.symm⟩)
    · exact (ih hs).prepend (p := ['{', '{']) fun u _ _ => encode_opening u
  | three s ih =>
    rw [encode_three, ← List.singleton_append] at h
    obtain ⟨w, rfl, hlookup⟩ := (run_append_iff_of_notMem (p := ['}']) (by decide)).1 h
    obtain ⟨rfl, rfl, ht⟩ | ⟨w, rfl, hs⟩ := run_lookup_append (.inr rfl) hlookup
    · exact .lookup (.inr ⟨_, ht.symm⟩)
    · exact (ih hs).prepend (p := ['}', '}', '}']) (e := '}' :: closeLookup)
        fun u _ _ => encode_three u
  | two s hclose ih =>
    rw [encode_closing hclose] at h
    obtain ⟨rfl, rfl, ht⟩ | ⟨w, rfl, hs⟩ := run_lookup_append (.inr rfl) h
    · exact .lookup (.inr ⟨_, ht.symm⟩)
    · exact (ih hs).prepend (p := ['}', '}'])
        fun u hu hne => encode_closing (hhead hu hne hclose)
  | char c s hc ih =>
    have hprepend {w : Text} (h : Run '{' n (encode s) w t) : OpenRun (c :: s) n (c :: w) t :=
      (ih h).prepend (p := [c]) (e := [c])
        fun u hu hne => encode_cons fun hbrace => hhead hu hne (hc hbrace)
    rw [encode_cons hc] at h
    by_cases hbrace : c = '{'
    · subst hbrace
      obtain hs | ⟨b, rfl, hb⟩ := head?_encode_cases (hc (.inl rfl))
      · obtain ⟨rfl, rfl, rfl⟩ | ⟨w, rfl, hrun⟩ :=
          (run_replicate_append_iff (k := 1) (by decide) hs).1 h
        · exact .brace _ _
        · exact hprepend hrun
      · -- the lone brace and the lookup behind it make one run
        have hfour : '{' :: encode ('}' :: '}' :: b) =
            List.replicate 4 '{' ++ (['%', '>', '}', '}', '}'] ++ encode b) := by
          rw [encode_closing hb, closeLookup_append]
          rfl
        rw [hfour] at h
        obtain ⟨rfl, rfl, rfl⟩ | ⟨w, rfl, hrun⟩ :=
          (run_replicate_append_iff (by decide) (by simp)).1 h
        · exact .meeting (u := ['{']) rfl hb rfl
        · have hlookup : Run '{' n (encode ('}' :: '}' :: b)) (List.replicate 3 '{' ++ w) t := by
            rw [encode_closing hb, closeLookup_append]
            exact (run_replicate_append_iff (k := 3) (by decide) (by simp)).2 (.inr ⟨w, rfl, hrun⟩)
          exact hprepend hlookup
    · obtain ⟨w, rfl, hrun⟩ :=
        (run_append_iff_of_notMem (p := [c]) (by simp [Ne.symm hbrace])).1 h
      exact hprepend hrun

theorem mem_meetings_iff {i : Nat} : i ∈ meetings x ↔
    ∃ k a b, x = (a ++ List.replicate (2 * k + 1) '{') ++ '}' :: '}' :: b ∧
      a.getLast? ≠ some '{' ∧ b.head? ≠ some '}' ∧
      (a ++ List.replicate (2 * k + 1) '{').length = i := by
  constructor
  · rintro ⟨⟨front, b, hclose, rfl⟩, _, n, ⟨k, rfl⟩, ⟨a, t, hopen, rfl⟩, hlength⟩
    have hx := hopen.eq.symm.trans hclose.eq
    rw [← List.append_assoc] at hx
    have hlength' : (a ++ List.replicate (2 * k + 1) '{').length = front.length := by
      rw [List.length_append, List.length_replicate, hlength]
    obtain ⟨rfl, -⟩ := List.append_inj hx hlength'
    exact ⟨k, a, b, hclose.eq, hopen.before_ne, hclose.after_ne, rfl⟩
  · rintro ⟨k, a, b, rfl, ha, hb, rfl⟩
    refine ⟨⟨_, b, ⟨by decide, rfl, ?_, hb⟩, rfl⟩, a.length, 2 * k + 1, ⟨k, rfl⟩,
      ⟨a, '}' :: '}' :: b, ⟨by omega, List.append_assoc _ _ _, ha, by simp⟩, rfl⟩, by simp⟩
    rw [List.replicate_succ', ← List.append_assoc, List.getLast?_concat]
    decide

theorem run_of_meeting (ha : a.getLast? ≠ some '{') (hb : b.head? ≠ some '}') (k : Nat) :
    ∃ w, encode (a ++ List.replicate (2 * k + 1) '{') = w ++ ['{'] ∧
      Run '{' 4 (encode ((a ++ List.replicate (2 * k + 1) '{') ++ '}' :: '}' :: b)) w
        (['%', '>', '}', '}', '}'] ++ encode b) := by
  have hlone : encode (a ++ List.replicate (2 * k + 1) '{') =
      encode a ++ (List.replicate k openLookup).flatten ++ ['{'] := by
    rw [List.replicate_succ', encode_append_replicate ha k (by simp)]
    rfl
  have hparts : ∀ c ∈ (a ++ List.replicate (2 * k + 1) '{').getLast?,
      ('}' :: '}' :: b).head? ≠ some c := by
    rw [List.replicate_succ', ← List.append_assoc, List.getLast?_concat]
    simp
  refine ⟨_, hlone, by decide, ?_, getLast?_escaped_ne ha k, by simp⟩
  rw [encode_append hparts, hlone, encode_closing hb, List.append_assoc, closeLookup_append]
  rfl

theorem escapedEnd_of_append (h : encode u = w ++ ['{']) : escapedEnd (u ++ v) u.length = w.length := by
  rw [escapedEnd, List.take_left, h]
  simp

theorem strictMonoOn_escapedEnd (x : Text) : StrictMonoOn (escapedEnd x) (meetings x) := by
  intro i hi j _ hij
  obtain ⟨k, a, b, rfl, ha, hb, rfl⟩ := mem_meetings_iff.1 hi
  obtain ⟨w, hw, -⟩ := run_of_meeting ha hb k
  generalize a ++ List.replicate (2 * k + 1) '{' = u at hw hij ⊢
  obtain ⟨m, rfl⟩ := Nat.exists_eq_add_of_lt hij
  have htake : (u ++ '}' :: '}' :: b).take (u.length + m + 1) = u ++ '}' :: ('}' :: b).take m := by
    rw [Nat.add_assoc, List.take_length_add_append]
    rfl
  -- the text up to the later place is escaped in two parts, of which the second is not empty
  have hlast : u.getLast? = some '{' := getLast?_of_encode (by rw [hw, List.getLast?_concat])
  have hparts : ∀ c ∈ u.getLast?, ('}' :: ('}' :: b).take m).head? ≠ some c := by
    rw [hlast]
    simp
  have hne : 0 < (encode ('}' :: ('}' :: b).take m)).length :=
    List.length_pos_iff.2 (encode_ne_nil (List.cons_ne_nil _ _))
  rw [escapedEnd_of_append hw, escapedEnd, htake, encode_append hparts, hw]
  simp only [List.length_append, List.length_singleton]
  omega

theorem bijOn_escapedEnd (x : Text) :
    Set.BijOn (escapedEnd x) (meetings x) (runsOf '{' 4 (encode x)) := by
  refine ⟨?_, (strictMonoOn_escapedEnd x).injOn, ?_⟩
  · intro i hi
    obtain ⟨k, a, b, rfl, ha, hb, rfl⟩ := mem_meetings_iff.1 hi
    obtain ⟨w, hw, hrun⟩ := run_of_meeting ha hb k
    exact ⟨w, _, hrun, (escapedEnd_of_append hw).symm⟩
  · rintro _ ⟨w, t, hrun, rfl⟩
    cases openRun_of_run hrun with
    | @meeting u b w hx hb hu =>
      obtain ⟨k, a, rfl, ha⟩ := exists_odd_of_encode_eq hu
      refine ⟨_, mem_meetings_iff.2 ⟨k, a, b, hx, ha, hb, rfl⟩, ?_⟩
      rw [hx, escapedEnd_of_append hu]

theorem closeLookup_starts (s : Text) :
    closeLookup <+: List.replicate 3 '{' ++ (['%', '>', '}', '}', '}'] ++ s) :=
  ⟨s, closeLookup_append s⟩

theorem OpenRun.startsLookup (h : OpenRun x n w t) (hn : n ≠ 1) :
    (n = 3 ∨ n = 4) ∧ StartsLookup (List.replicate 3 '{' ++ t) := by
  cases h with
  | brace => exact absurd rfl hn
  | lookup h => exact ⟨.inl rfl, h⟩
  | meeting => exact ⟨.inr rfl, .inr (closeLookup_starts _)⟩

/-- Two opening braces in escaped text belong to a lookup or start a run of four. -/
theorem startsLookup_of_braces (h : encode x = w ++ '{' :: '{' :: t) :
    StartsLookup ('{' :: '{' :: t) ∨
      (∃ front, w = front ++ ['{'] ∧ StartsLookup ('{' :: '{' :: '{' :: t)) ∨
      w.length ∈ runsOf '{' 4 (encode x) := by
  obtain ⟨i, j, front, b, rfl, ht, hrun⟩ := exists_run h
  have hj : j ≠ 0 := by
    rintro rfl
    exact hrun.after_ne (by rw [← List.nil_append b, ← List.replicate_zero, ← ht]; rfl)
  obtain ⟨hlength, hlookup⟩ := (openRun_of_run hrun).startsLookup (by omega)
  -- how much of the run stands behind the first of the two braces
  obtain rfl | rfl | hj : j = 1 ∨ j = 2 ∨ 3 ≤ j := by omega
  · obtain ⟨i, rfl⟩ : ∃ m, i = m + 1 := Nat.exists_eq_add_one.2 (by omega)
    refine .inr (.inl ⟨front ++ List.replicate i '{', ?_, ?_⟩)
    · rw [List.replicate_succ', List.append_assoc]
    · rw [ht]
      exact hlookup
  · rw [ht]
    exact .inl hlookup
  · obtain ⟨rfl, rfl⟩ : i = 0 ∧ j = 3 := by omega
    exact .inr (.inr ⟨_, b, hrun, by simp⟩)

/-- The runs of opening braces in escaped text. The places of the text that give the runs of four are
told by the text alone, and they come in the same order. -/
theorem openRuns_encode (x : Text) :
    (∀ n before after, Run '{' n (encode x) before after →
      n = 1 ∨ n = 3 ∧ StartsLookup (List.replicate 3 '{' ++ after) ∨
        n = 4 ∧ closeLookup <+: List.replicate 3 '{' ++ after) ∧
    Set.BijOn (escapedEnd x) (meetings x) (runsOf '{' 4 (encode x)) ∧
    StrictMonoOn (escapedEnd x) (meetings x) ∧
    ∀ before after, encode x = before ++ '{' :: '{' :: after →
      StartsLookup ('{' :: '{' :: after) ∨
        (∃ front, before = front ++ ['{'] ∧ StartsLookup ('{' :: '{' :: '{' :: after)) ∨
        before.length ∈ runsOf '{' 4 (encode x) := by
  refine ⟨fun n before after hrun => ?_, bijOn_escapedEnd x, strictMonoOn_escapedEnd x,
    fun _ _ => startsLookup_of_braces⟩
  cases openRun_of_run hrun with
  | brace => exact .inl rfl
  | lookup h => exact .inr (.inl ⟨rfl, h⟩)
  | meeting => exact .inr (.inr ⟨rfl, closeLookup_starts _⟩)

/-- Three opening braces that meet two closing ones give a run of four behind a lookup. -/
theorem openRuns_encode_meeting :
    4 ∈ meetings ['a', '{', '{', '{', '}', '}'] ∧
    escapedEnd ['a', '{', '{', '{', '}', '}'] 4 = 9 ∧
    9 ∈ runsOf '{' 4 (encode ['a', '{', '{', '{', '}', '}']) ∧
    Run '{' 3 (encode ['a', '{', '{', '{', '}', '}']) ['a']
      (['<', '%', '}', '}', '}', '{'] ++ closeLookup) ∧
    StartsLookup (['{', '{', '{', '<', '%', '}', '}', '}', '{'] ++ closeLookup) := by
  have hmeeting : 4 ∈ meetings ['a', '{', '{', '{', '}', '}'] :=
    mem_meetings_iff.2 ⟨1, ['a'], [], rfl, by decide, by decide, rfl⟩
  have hend : escapedEnd ['a', '{', '{', '{', '}', '}'] 4 = 9 := by decide
  have hrun : Run '{' 3 (encode ['a', '{', '{', '{', '}', '}']) ['a']
      (['<', '%', '}', '}', '}', '{'] ++ closeLookup) :=
    ⟨by decide, by decide, by decide, by decide⟩
  obtain ⟨hruns, hbij, -⟩ := openRuns_encode ['a', '{', '{', '{', '}', '}']
  refine ⟨hmeeting, hend, hend ▸ hbij.mapsTo hmeeting, hrun, ?_⟩
  obtain h | ⟨-, h⟩ | ⟨h, -⟩ := hruns 3 _ _ hrun
  · exact absurd h (by decide)
  · exact h
  · exact absurd h (by decide)

end PatternBridge.Braces
