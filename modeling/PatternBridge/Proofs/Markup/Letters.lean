import PatternBridge.Proofs.Markup.TokenAt
import PatternBridge.Proofs.Text.Characters

/-! Where the content of an element ends that is no markup: at the first `</` with the name of the
element, in letters of any case. -/

namespace PatternBridge.Markup
open Text

variable {mark name close body s : Text} {c d : Char}

theorem isNameChar_iff : isNameChar c ↔ (65 ≤ c.toNat ∧ c.toNat ≤ 90) ∨
    (97 ≤ c.toNat ∧ c.toNat ≤ 122) ∨ (48 ≤ c.toNat ∧ c.toNat ≤ 57) ∨ c.toNat = 45 ∨
      c.toNat = 58 := by
  have hdash : c = '-' ↔ c.toNat = 45 := Char.toNat_inj.symm
  have hcolon : c = ':' ↔ c.toNat = 58 := Char.toNat_inj.symm
  have hupper : c.isUpper ↔ 65 ≤ c.toNat ∧ c.toNat ≤ 90 := decide_eq_true_iff
  have hlower : c.isLower ↔ 97 ≤ c.toNat ∧ c.toNat ≤ 122 :=
    (Bool.and_eq_true_iff (x := decide _)).trans (and_congr decide_eq_true_iff decide_eq_true_iff)
  have hdigit : c.isDigit ↔ 48 ≤ c.toNat ∧ c.toNat ≤ 57 :=
    (Bool.and_eq_true_iff (x := decide _)).trans (and_congr decide_eq_true_iff decide_eq_true_iff)
  show (c.isUpper || c.isLower || c.isDigit || c == '-' || c == ':') = true ↔ _
  simp only [Bool.or_eq_true, beq_iff_eq, hupper, hlower, hdigit, hdash, hcolon]
  omega

theorem isNameChar_toLower (h : isNameChar c) : isNameChar c.toLower := by
  rw [isNameChar_iff] at h ⊢
  obtain ⟨hge, hle, hlower⟩ | ⟨-, hsame⟩ := toLower_cases c
  · omega
  · rwa [hsame]

theorem isNameChar_of_isBlank (h : isBlank c) : isNameChar c = false := by
  rw [Bool.eq_false_iff, ne_eq, isNameChar_iff]
  have hblank := toNat_of_isBlank h
  omega

/-- The characters that a mark of closing is made of, in any case of letters. -/
def isCloseChar (c : Char) : Bool := c == '<' || c == '/' || isNameChar c

theorem isCloseChar_toLower (h : isCloseChar c.toLower) : isCloseChar c := by
  obtain ⟨hge, hle, -⟩ | ⟨-, hsame⟩ := toLower_cases c
  · have hname : isNameChar c := isNameChar_iff.2 (.inl ⟨hge, hle⟩)
    simp [isCloseChar, hname]
  · rwa [hsame] at h

def startsWithLetters (mark s : Text) : Bool := sameLetters mark (s.take mark.length)

theorem startsWithLetters_iff : startsWithLetters mark s ↔ lower mark <+: lower s := by
  unfold startsWithLetters sameLetters lower
  rw [beq_iff_eq, List.prefix_iff_eq_take, List.length_map, List.map_take]

theorem splitAtLetters_append {tail : Text} (htail : tail = [] ∨ startsWithLetters mark tail)
    (hbody : ∀ i < body.length, startsWithLetters mark ((body ++ tail).drop i) = false) :
    splitAtLetters mark (body ++ tail) = (body, tail) := by
  induction body with
  | nil =>
    obtain rfl | htail := htail
    · rfl
    · cases tail with
      | nil => rfl
      | cons c tail => exact if_pos htail
  | cons c body ih =>
    have hc := hbody 0 (Nat.zero_lt_succ _)
    have hrest := ih fun i hi => hbody (i + 1) (Nat.succ_lt_succ hi)
    unfold startsWithLetters at hc
    rw [List.drop_zero, List.cons_append] at hc
    rw [List.cons_append, splitAtLetters, if_neg (Bool.eq_false_iff.1 hc), hrest]

theorem of_splitAtLetters {tail : Text} (h : splitAtLetters mark s = (body, tail)) :
    s = body ++ tail ∧ (tail = [] ∨ startsWithLetters mark tail) ∧
      ∀ i < body.length, startsWithLetters mark (s.drop i) = false := by
  induction s generalizing body with
  | nil =>
    obtain ⟨rfl, rfl⟩ := Prod.mk.inj h
    exact ⟨rfl, .inl rfl, by simp⟩
  | cons c s ih =>
    rw [splitAtLetters] at h
    split at h
    · next hc =>
      obtain ⟨rfl, rfl⟩ := Prod.mk.inj h
      exact ⟨rfl, .inr hc, by simp⟩
    · next hc =>
      obtain ⟨rfl, rfl⟩ := Prod.mk.inj h
      obtain ⟨hs, htail, hbody⟩ := ih rfl
      refine ⟨congrArg (c :: ·) hs, htail, fun i hi => ?_⟩
      cases i with
      | zero => exact Bool.eq_false_iff.2 hc
      | succ i => exact hbody i (Nat.lt_of_succ_lt_succ hi)

theorem startsWithLetters_append {t : Text} (hname : ∀ c ∈ name, isNameChar c)
    (hlength : s.length < ("</" ++ name).length) (hne : s ≠ [])
    (hpart : (∀ d ∈ t.head?, d = '<' ∨ isCloseChar d = false) ∨
      ∀ c ∈ s.getLast?, isCloseChar c = false) :
    startsWithLetters ("</" ++ name) (s ++ t) = false := by
  rw [Bool.eq_false_iff, ne_eq, startsWithLetters_iff]
  rintro ⟨rest, hrest⟩
  have hlower : lower (s ++ t) = lower s ++ lower t := List.map_append
  have hletters : ∀ c ∈ '/' :: lower name, c ≠ '<' ∧ isCloseChar c := by
    intro c hc
    rcases List.mem_cons.1 hc with rfl | hc
    · decide
    · obtain ⟨d, hd, rfl⟩ := List.mem_map.1 hc
      have hchar := isNameChar_toLower (hname d hd)
      refine ⟨?_, by simp [isCloseChar, hchar]⟩
      intro hlt
      rw [hlt] at hchar
      exact absurd hchar (by decide)
  have hmark : lower ("</" ++ name) = '<' :: '/' :: lower name := rfl
  rw [hlower, hmark] at hrest
  obtain ⟨c, s, rfl⟩ := List.exists_cons_of_ne_nil hne
  obtain ⟨hfirst, hrest⟩ := List.cons.inj hrest
  -- the mark ends behind `s`, so it is `s` and some letters of `t`
  obtain ⟨m, hm, -⟩ | ⟨m, hm, ht⟩ := List.append_eq_append_iff.1 hrest
  · have hle := congrArg List.length hm
    simp [lower] at hle hlength
    omega
  obtain hbehind | hlast := hpart
  · cases m with
    | nil =>
      have hle := congrArg List.length hm
      simp [lower] at hle hlength
      omega
    | cons d' m =>
      obtain ⟨d, t, rfl⟩ : ∃ d t', t = d :: t' := by
        cases t with
        | nil => cases ht
        | cons d t => exact ⟨d, t, rfl⟩
      obtain ⟨hne, hclose⟩ := hletters d' (by rw [hm]; simp)
      have hd : d.toLower = d' := (List.cons.inj ht).1
      subst hd
      rcases hbehind d rfl with rfl | hd
      · exact hne rfl
      · rw [isCloseChar_toLower hclose] at hd
        cases hd
  · obtain ⟨s', c', hs⟩ := List.eq_nil_or_concat (c :: s) |>.resolve_left (by simp)
    have hc' := hlast c' (by rw [hs]; simp)
    have hmem : c' ∈ c :: s := by rw [hs]; simp
    have hclose : isCloseChar c'.toLower := by
      rcases List.mem_cons.1 hmem with rfl | hmem
      · rw [← hfirst]
        decide
      · refine (hletters c'.toLower ?_).2
        rw [hm]
        exact List.mem_append_left _ (List.mem_map_of_mem hmem)
    rw [isCloseChar_toLower hclose] at hc'
    cases hc'

theorem closing_of_readToken? {after : Text}
    (h : readToken? s = some (.closing name close, after)) :
    ∃ t, s = '<' :: '/' :: t ∧ name = lower (t.takeWhile isNameChar) := by
  generalize htok : Token.closing name close = tok at h
  cases tokenAt_of_readToken? h with
  | tag => cases htok
  | comment => cases htok
  | unended => cases htok
  | element hs =>
    unfold elementToken at htok
    split at htok
    · next hcloses =>
      obtain ⟨t, ht⟩ := List.head?_eq_some_iff.1 (beq_iff_eq.1 hcloses)
      rw [ht] at hs htok
      exact ⟨t, hs, (Token.closing.inj htok).1⟩
    · split at htok <;> cases htok

theorem startsWithLetters_of_readToken? {after : Text}
    (h : readToken? s = some (.closing name close, after)) :
    startsWithLetters ("</" ++ name) s := by
  obtain ⟨t, rfl, rfl⟩ := closing_of_readToken? h
  obtain ⟨rest, hrest⟩ := List.takeWhile_prefix isNameChar (l := t)
  rw [startsWithLetters_iff]
  refine ⟨lower rest, ?_⟩
  show '<' :: '/' :: lower (lower (t.takeWhile isNameChar)) ++ lower rest = '<' :: '/' :: lower t
  rw [lower_lower]
  unfold lower
  rw [List.cons_append, List.cons_append, ← List.map_append, hrest]

end PatternBridge.Markup
