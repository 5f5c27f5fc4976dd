import Mathlib.Data.Bool.AllAny
import PatternBridge.Proofs.Markup.Letters
import PatternBridge.Proofs.Markup.Unbroken
import PatternBridge.Proofs.Text.Occurrence

/-! What is read before a place where the white space changes. Neither the end of a token nor a
character that keeps text from being read as a token is white space, so that the same is read. -/

namespace PatternBridge.Markup
open Text

variable {a x y y' w w' b k r : Text} {q : Option Char}

def Blank (w : Text) : Prop := ∀ c ∈ w, isBlank c

/-- Where the white space `w` between `x` and `b` may become `w'`. -/
inductive Slack (x w w' b : Text) : Prop
  | start (h : x = [])
  | between (h : w ≠ []) (h' : w' ≠ [])
  | before (h : ∀ c ∈ b.head?, c = '<')
  | beforeTag (h : w = []) (h' : w' ≠ []) (hb : "\x7b\x7b".toList <+: b)
      (hend : "\x7d\x7d".toList <:+: b) (hx : ¬ "\x7b\x7b".toList <:+ x)
  | behind (h : w = []) (h' : w' ≠ []) (hx : ['>'] <:+ x ∨ "\x7d\x7d".toList <:+ x)

theorem Blank.append (h : Blank w) (h' : Blank w') : Blank (w ++ w') := by
  intro c hc
  exact (List.mem_append.1 hc).elim (h c) (h' c)

/-- Nothing that a token starts or goes on with stands at the end of `x` and at the start of `y`. -/
def Parted (x y : Text) : Prop :=
  (∀ d ∈ y.head?, isBlank d ∨ d = '<' ∨ d = '{') ∨ ∀ c ∈ x.getLast?, c = '>' ∨ c = '}'

theorem head?_blank_append (hw : Blank w) (hne : w ≠ []) : ∃ d ∈ (w ++ b).head?, isBlank d := by
  obtain ⟨d, w, rfl⟩ := List.exists_cons_of_ne_nil hne
  exact ⟨d, rfl, hw d List.mem_cons_self⟩

theorem head?_blank_append_ne (hw : Blank w) (hne : w ≠ []) {c : Char} (hc : isBlank c = false) :
    (w ++ b).head? ≠ some c := by
  obtain ⟨d, hd, hblank⟩ := head?_blank_append (b := b) hw hne
  rw [Option.mem_def.1 hd]
  intro heq
  rw [Option.some.inj heq, hc] at hblank
  cases hblank

theorem putBefore_append (k k' : Text) : putBefore (k ++ k') = putBefore k ∘ putBefore k' :=
  funext fun split => congrArg (·, split.2) (List.append_assoc k k' split.1)

theorem tagRest?_some (d c : Char) (s : Text) : tagRest? (some d) (c :: s) =
    (tagRest? (if c == d then none else some d) s).map (putBefore [c]) := by
  rw [tagRest?]

theorem tagRest?_quote {c : Char} (hc : c = '"' ∨ c = '\'') (s : Text) :
    tagRest? none (c :: s) = (tagRest? (some c) s).map (putBefore [c]) := by
  rw [tagRest?]
  rcases hc with rfl | rfl <;> rfl

theorem tagRest?_close (s : Text) : tagRest? none ('>' :: s) = some (['>'], s) := by
  rw [tagRest?]
  rfl

theorem tagRest?_braces (s : Text) : tagRest? none ('{' :: '{' :: s) =
    match through? "\x7d\x7d" ('{' :: '{' :: s) with
    | some (k, r) => (tagRest? none r).map (putBefore k)
    | none => (tagRest? none ('{' :: s)).map (putBefore ['{']) := by
  rw [tagRest?]
  simp only [Char.reduceBEq, Bool.false_or, Bool.false_eq_true, if_false, List.head?_cons,
    BEq.rfl, Bool.and_self, if_true]
  split
  · next h => rw [h]
  · next h => rw [h]

theorem tagRest?_of_through? {s : Text} (hs : "\x7b\x7b".toList <+: s)
    (h : through? "\x7d\x7d" s = some (k, r)) :
    tagRest? none s = (tagRest? none r).map (putBefore k) := by
  obtain ⟨s, rfl⟩ := hs
  have hbraces := tagRest?_braces s
  rw [show '{' :: '{' :: s = "\x7b\x7b".toList ++ s from rfl, h] at hbraces
  exact hbraces

theorem tagRest?_plain {c : Char} (hc : c ≠ '"' ∧ c ≠ '\'' ∧ c ≠ '>') {s : Text}
    (hs : c = '{' → s.head? ≠ some '{') :
    tagRest? none (c :: s) = (tagRest? none s).map (putBefore [c]) := by
  obtain ⟨h₁, h₂, h₃⟩ := hc
  have hbraces : (c == '{' && s.head? == some '{') = false := by
    rw [Bool.and_eq_false_iff, beq_eq_false_iff_ne, beq_eq_false_iff_ne]
    exact Decidable.or_iff_not_imp_left.2 fun h => hs (Decidable.not_not.1 h)
  rw [tagRest?]
  simp [h₁, h₂, h₃, hbraces]

theorem tagRest?_blank_append (hw : Blank w) (hq : ∀ d ∈ q, isBlank d = false) :
    tagRest? q (w ++ b) = (tagRest? q b).map (putBefore w) := by
  induction w with
  | nil => exact Option.map_id'.symm
  | cons c w ih =>
    have hc := hw c List.mem_cons_self
    have hrest := ih fun d hd => hw d (List.mem_cons_of_mem _ hd)
    have hne {d : Char} (hd : isBlank d = false) : c ≠ d := by
      rintro rfl
      rw [hd] at hc
      cases hc
    cases q with
    | none =>
      rw [List.cons_append, tagRest?_plain ⟨hne (by decide), hne (by decide), hne (by decide)⟩
        fun h => absurd h (hne (by decide)), hrest, Option.map_map]
      rfl
    | some d =>
      rw [List.cons_append, tagRest?_some, if_neg (by simpa using hne (hq d rfl)), hrest,
        Option.map_map]
      rfl

theorem tagRest?_none_blank_append (hw : Blank w) :
    tagRest? none (w ++ b) = (tagRest? none b).map (putBefore w) :=
  tagRest?_blank_append hw fun _ h => by cases h

/-- Reading takes the same from the start of `x`, and where it took nothing it takes nothing. -/
def Carried (x y y' : Text) (result result' : Option (Text × Text)) : Prop :=
  (result = none → result' = none) ∧
    ∀ k x', x = k ++ x' → result = some (k, x' ++ y) → result' = some (k, x' ++ y')

theorem Carried.putBefore {result result' : Option (Text × Text)} (h : Carried x y y' result result')
    (k : Text) : Carried (k ++ x) y y' (result.map (putBefore k)) (result'.map (putBefore k)) := by
  refine ⟨fun hnone => ?_, fun k' x' hx hsome => ?_⟩
  · rw [h.1 (Option.map_eq_none_iff.1 hnone)]
    rfl
  · obtain ⟨⟨k'', r⟩, hresult, heq⟩ := Option.map_eq_some_iff.1 hsome
    obtain ⟨rfl, rfl⟩ := Prod.mk.inj heq
    have hx' : x = k'' ++ x' := by simpa [List.append_assoc] using hx
    rw [h.2 k'' x' hx' hresult]
    rfl

theorem carried_beyond {result : Option (Text × Text)} {k k' : Text} (hk : x.length < k.length) :
    Carried x y y' (result.map (putBefore k)) (result.map (putBefore k')) := by
  refine ⟨fun hnone => ?_, fun k₀ x' hx hsome => ?_⟩
  · rw [Option.map_eq_none_iff.1 hnone]
    rfl
  · obtain ⟨⟨k'', r⟩, -, heq⟩ := Option.map_eq_some_iff.1 hsome
    obtain ⟨rfl, rfl⟩ := Prod.mk.inj heq
    have hlength := congrArg List.length hx
    simp only [List.length_append] at hlength
    omega

theorem getLast?_of_suffix (h : x <:+ a) (hne : x ≠ []) : x.getLast? = a.getLast? := by
  obtain ⟨front, rfl⟩ := h
  rw [List.getLast?_append_of_ne_nil _ hne]

theorem notMem_of_blank (hw : Blank w) {c : Char} (hc : isBlank c = false) : c ∉ w := by
  intro hmem
  rw [hw c hmem] at hc
  cases hc

theorem through?_braces_append (hw : Blank w) (hx : ¬ "\x7d\x7d".toList <:+: x)
    (hpart : w = [] → x.getLast? = some '}' → b.head? ≠ some '}') :
    through? "\x7d\x7d" (x ++ (w ++ b)) =
      (through? "\x7d\x7d" b).map fun split => (x ++ (w ++ split.1), split.2) := by
  have hnot : ¬ "\x7d\x7d".toList <:+: x ++ w := by
    intro h
    have hhead : ∀ c ∈ w.head?, c ∉ "\x7d\x7d".toList := by
      intro c hc hmem
      have hblank := hw c (List.mem_of_mem_head? hc)
      rcases List.mem_cons.1 hmem with rfl | hmem
      · exact absurd hblank (by decide)
      · rw [List.mem_singleton.1 hmem] at hblank
        exact absurd hblank (by decide)
    rcases isInfix_append_of_notMem h hhead with h | h
    · exact hx h
    · exact notMem_of_blank hw (by decide : isBlank '}' = false) (h.subset (by decide))
  have hparts (m m' : Text) (hm : "\x7d\x7d".toList = m ++ m') (hne : m ≠ []) (hne' : m' ≠ [])
      (hsuffix : m <:+ x ++ w) : ¬ m' <+: b := by
    have hm : ['}', '}'] = m ++ m' := hm
    rcases m with _ | ⟨c, _ | ⟨d, m⟩⟩
    · exact absurd rfl hne
    · obtain ⟨rfl, rfl⟩ := List.cons.inj hm
      rintro ⟨rest, rfl⟩
      obtain ⟨front, hfront⟩ := hsuffix
      have hlast : (x ++ w).getLast? = some '}' := by rw [← hfront]; simp
      by_cases hwnil : w = []
      · rw [hwnil, List.append_nil] at hlast
        exact hpart hwnil hlast rfl
      · rw [List.getLast?_append_of_ne_nil _ hwnil] at hlast
        exact notMem_of_blank hw (by decide) (List.mem_of_getLast? hlast)
    · have hlength := congrArg List.length hm
      have hpos := List.length_pos_iff.2 hne'
      simp only [List.length_cons, List.length_append, List.length_nil] at hlength
      omega
  have hthrough := through?_append_of_not_isInfix hnot hparts
  simpa [List.append_assoc] using hthrough

/-- The white space that may change is not the only thing between two closing braces. -/
theorem Slack.parted_braces (h : Slack a w w' b) (hx : x <:+ a)
    (hstart : "\x7b\x7b".toList <+: x) (hnot : ¬ "\x7d\x7d".toList <:+: x) :
    (w = [] → x.getLast? = some '}' → b.head? ≠ some '}') ∧
      (w' = [] → x.getLast? = some '}' → b.head? ≠ some '}') := by
  have hne : x ≠ [] := hstart.ne_nil (by decide)
  have hlast := getLast?_of_suffix hx hne
  cases h with
  | start ha =>
    subst ha
    exact absurd (List.suffix_nil.1 hx) hne
  | between hw hw' => exact ⟨fun h => absurd h hw, fun h => absurd h hw'⟩
  | before hb =>
    have hhead : b.head? ≠ some '}' := fun h => absurd (hb _ h) (by decide)
    exact ⟨fun _ _ => hhead, fun _ _ => hhead⟩
  | beforeTag hw hw' hb =>
    obtain ⟨rest, rfl⟩ := hb
    exact ⟨fun _ _ => by simp, fun h => absurd h hw'⟩
  | behind hw hw' hend =>
    refine ⟨fun _ hbrace => ?_, fun h => absurd h hw'⟩
    obtain ⟨front, rfl⟩ | hend := hend
    · rw [hlast, List.getLast?_append_of_ne_nil _ (List.cons_ne_nil _ _)] at hbrace
      cases hbrace
    · have hsuffix : "\x7d\x7d".toList <:+ x :=
        List.suffix_of_suffix_length_le hend hx hstart.length_le
      exact absurd hsuffix.isInfix hnot

theorem head?_eq_brace (h : Slack a w w' b) (hw : Blank w) (hw' : Blank w') (hx : x <:+ a)
    (hlast : x.getLast? = some '{') :
    ((w ++ b).head? ≠ some '{' ∧ (w' ++ b).head? ≠ some '{') ∨
      (w = [] ∧ w' ≠ [] ∧ "\x7b\x7b".toList <+: b ∧ "\x7d\x7d".toList <:+: b ∧
        ¬ "\x7b\x7b".toList <:+ x) := by
  have hne : x ≠ [] := by
    rintro rfl
    cases hlast
  have hlast' := getLast?_of_suffix hx hne
  have hblank {v : Text} (hv : Blank v) (hb : v = [] → b.head? ≠ some '{') :
      (v ++ b).head? ≠ some '{' := by
    by_cases hne : v = []
    · rw [hne]
      exact hb hne
    · exact head?_blank_append_ne hv hne (by decide)
  cases h with
  | start ha =>
    subst ha
    exact absurd (List.suffix_nil.1 hx) hne
  | between h h' => exact .inl ⟨hblank hw fun h₀ => absurd h₀ h, hblank hw' fun h₀ => absurd h₀ h'⟩
  | before hb =>
    have hhead : b.head? ≠ some '{' := fun h => absurd (hb _ h) (by decide)
    exact .inl ⟨hblank hw fun _ => hhead, hblank hw' fun _ => hhead⟩
  | beforeTag h h' hb hend ha => exact .inr ⟨h, h', hb, hend, fun hx' => ha (hx'.trans hx)⟩
  | behind h h' hend =>
    rw [hlast'] at hlast
    obtain ⟨front, rfl⟩ | ⟨front, rfl⟩ := hend
    · rw [List.getLast?_append_of_ne_nil _ (List.cons_ne_nil _ _)] at hlast
      cases hlast
    · rw [List.getLast?_append_of_ne_nil _ (by decide)] at hlast
      cases hlast

section TagRest
variable (h : Slack a w w' b) (hw : Blank w) (hw' : Blank w')
include hw hw'

theorem carried_tagRest?_nil (hq : ∀ d ∈ q, isBlank d = false) :
    Carried [] (w ++ b) (w' ++ b) (tagRest? q (w ++ b)) (tagRest? q (w' ++ b)) := by
  rw [tagRest?_blank_append hw hq, tagRest?_blank_append hw' hq]
  refine ⟨fun hnone => ?_, fun k x' hx' hsome => ?_⟩
  · rw [Option.map_eq_none_iff.1 hnone]
    rfl
  · obtain ⟨⟨k', r⟩, hk, heq⟩ := Option.map_eq_some_iff.1 hsome
    obtain ⟨t, rfl⟩ := last_of_tagRest? hk
    obtain ⟨rfl, -⟩ := List.append_eq_nil_iff.1 hx'.symm
    have hnil := congrArg (fun split => split.1.length) heq
    simp [PatternBridge.Markup.putBefore] at hnil

include h

theorem carried_tagRest?_braces (hx : '{' :: '{' :: x <:+ a)
    (ih : ∀ r, r <:+ a → r.length < x.length + 2 →
      Carried r (w ++ b) (w' ++ b) (tagRest? none (r ++ (w ++ b))) (tagRest? none (r ++ (w' ++ b)))) :
    Carried ('{' :: '{' :: x) (w ++ b) (w' ++ b) (tagRest? none ('{' :: '{' :: x ++ (w ++ b)))
      (tagRest? none ('{' :: '{' :: x ++ (w' ++ b))) := by
  have hstart : "\x7b\x7b".toList <+: '{' :: '{' :: x := ⟨x, rfl⟩
  have happend (y : Text) : '{' :: '{' :: x ++ y = '{' :: '{' :: (x ++ y) := rfl
  by_cases hinside : "\x7d\x7d".toList <:+: '{' :: '{' :: x
  · obtain ⟨k, r, hk⟩ := exists_through? hinside
    have hkr := eq_append_of_through? hk
    have hpos := length_of_through? hk
    have hlength := congrArg List.length hkr
    have hthrough (y : Text) : tagRest? none ('{' :: '{' :: x ++ y) =
        (tagRest? none (r ++ y)).map (putBefore k) := by
      rw [happend, tagRest?_braces, ← happend, through?_append hk]
    rw [hthrough, hthrough, hkr]
    refine (ih r (List.IsSuffix.trans ⟨k, hkr.symm⟩ hx) ?_).putBefore k
    simp at hlength hpos
    omega
  · obtain ⟨hpart, hpart'⟩ := h.parted_braces hx hstart hinside
    rw [happend, happend, tagRest?_braces, tagRest?_braces, ← happend, ← happend,
      through?_braces_append hw hinside hpart, through?_braces_append hw' hinside hpart']
    cases hb : through? "\x7d\x7d" b with
    | none => exact (ih ('{' :: x) ((List.suffix_cons _ _).trans hx) (by simp)).putBefore ['{']
    | some split =>
      have hpos := length_of_through? hb
      refine carried_beyond ?_
      simp at hpos ⊢
      omega

theorem carried_tagRest?_brace (hx : ['{'] <:+ a) :
    Carried ['{'] (w ++ b) (w' ++ b) (tagRest? none ('{' :: (w ++ b)))
      (tagRest? none ('{' :: (w' ++ b))) := by
  have hplain {y : Text} (hy : y.head? ≠ some '{') : tagRest? none ('{' :: y) =
      (tagRest? none y).map (putBefore ['{']) :=
    tagRest?_plain ⟨by decide, by decide, by decide⟩ fun _ => hy
  obtain ⟨hhead, hhead'⟩ | ⟨rfl, hne, hstart, hend, -⟩ := head?_eq_brace h hw hw' hx rfl
  · rw [hplain hhead, hplain hhead']
    exact (carried_tagRest?_nil hw hw' fun _ hd => by cases hd).putBefore ['{']
  · obtain ⟨k, r, hk⟩ := exists_through? hend
    have hinner : "\x7b\x7b".toList <+: '{' :: b := by
      obtain ⟨rest, rfl⟩ := hstart
      exact ⟨'{' :: rest, rfl⟩
    have hthrough := through?_braces_append (x := ['{']) (b := b) hw (by decide)
      fun _ h => absurd h (by decide)
    rw [hk] at hthrough
    have hsource : tagRest? none ('{' :: ([] ++ b)) =
        (tagRest? none r).map (putBefore ('{' :: k)) := tagRest?_of_through? hinner hthrough
    have htarget : tagRest? none ('{' :: (w' ++ b)) =
        (tagRest? none r).map (putBefore ('{' :: (w' ++ k))) := by
      rw [hplain (head?_blank_append_ne hw' hne (by decide)), tagRest?_none_blank_append hw',
        tagRest?_of_through? hstart hk, Option.map_map, Option.map_map, ← putBefore_append,
        ← putBefore_append]
      rfl
    rw [hsource, htarget]
    exact carried_beyond (by have := length_of_through? hk; simp at this ⊢; omega)

theorem carried_tagRest? (hx : x <:+ a) (hq : ∀ d ∈ q, isBlank d = false) :
    Carried x (w ++ b) (w' ++ b) (tagRest? q (x ++ (w ++ b))) (tagRest? q (x ++ (w' ++ b))) := by
  have hnone : ∀ d ∈ (none : Option Char), isBlank d = false := fun _ hd => by cases hd
  induction hn : x.length using Nat.strong_induction_on generalizing x q with
  | h n ih =>
    cases x with
    | nil => exact carried_tagRest?_nil hw hw' hq
    | cons c x =>
      have hrest {q : Option Char} (hq : ∀ d ∈ q, isBlank d = false) :=
        (ih x.length (by simp [← hn]) ((List.suffix_cons c x).trans hx) hq rfl).putBefore [c]
      rw [List.cons_append, List.cons_append]
      cases q with
      | some d =>
        rw [tagRest?_some, tagRest?_some]
        apply hrest
        split
        · exact hnone
        · exact hq
      | none =>
        by_cases hquote : c = '"' ∨ c = '\''
        · rw [tagRest?_quote hquote, tagRest?_quote hquote]
          apply hrest
          rcases hquote with rfl | rfl <;> simp <;> decide
        by_cases hclose : c = '>'
        · subst hclose
          rw [tagRest?_close, tagRest?_close]
          refine ⟨fun h => absurd h (Option.some_ne_none _), fun k x' hx' hsome => ?_⟩
          obtain ⟨rfl, -⟩ := Prod.mk.inj (Option.some.inj hsome)
          rw [(List.cons.inj hx').2]
          rfl
        by_cases hbraces : c = '{' ∧ x.head? = some '{'
        · obtain ⟨rfl, hd⟩ := hbraces
          obtain ⟨x, rfl⟩ := List.head?_eq_some_iff.1 hd
          exact carried_tagRest?_braces h hw hw' hx fun r hr hlt =>
            ih r.length (hn ▸ hlt) hr hnone rfl
        by_cases hlast : c = '{' ∧ x = []
        · obtain ⟨rfl, rfl⟩ := hlast
          exact carried_tagRest?_brace h hw hw' hx
        have hplain (y : Text) : tagRest? none (c :: (x ++ y)) =
            (tagRest? none (x ++ y)).map (putBefore [c]) := by
          apply tagRest?_plain ⟨fun h => hquote (.inl h), fun h => hquote (.inr h), hclose⟩
          intro hc
          cases x with
          | nil => exact absurd ⟨hc, rfl⟩ hlast
          | cons d x => exact fun hd => hbraces ⟨hc, hd⟩
        rw [hplain, hplain]
        exact hrest hnone

end TagRest

theorem Slack.parted (h : Slack a w w' b) (hw : Blank w) (hw' : Blank w') (hx : x <:+ a)
    (hne : x ≠ []) : Parted x (w ++ b) ∧ Parted x (w' ++ b) := by
  have hblank {v : Text} (hv : Blank v) (hb : v = [] → ∀ d ∈ b.head?, d = '<' ∨ d = '{') :
      Parted x (v ++ b) := by
    refine .inl fun d hd => ?_
    cases v with
    | nil => exact .inr (hb rfl d hd)
    | cons c v =>
      obtain rfl := Option.some.inj hd
      exact .inl (hv c List.mem_cons_self)
  cases h with
  | start ha =>
    subst ha
    exact absurd (List.suffix_nil.1 hx) hne
  | between h h' => exact ⟨hblank hw fun h₀ => absurd h₀ h, hblank hw' fun h₀ => absurd h₀ h'⟩
  | before hb => exact ⟨hblank hw fun _ d hd => .inl (hb d hd), hblank hw' fun _ d hd => .inl (hb d hd)⟩
  | beforeTag h h' hb =>
    obtain ⟨rest, rfl⟩ := hb
    exact ⟨hblank hw fun _ d hd => .inr (Option.some.inj hd).symm, hblank hw' fun h₀ => absurd h₀ h'⟩
  | behind h h' hend =>
    have hlast : ∀ c ∈ x.getLast?, c = '>' ∨ c = '}' := by
      intro c hc
      rw [getLast?_of_suffix hx hne] at hc
      obtain ⟨front, rfl⟩ | ⟨front, rfl⟩ := hend
      · rw [List.getLast?_append_of_ne_nil _ (List.cons_ne_nil _ _)] at hc
        exact .inl (Option.some.inj hc).symm
      · rw [List.getLast?_append_of_ne_nil _ (by decide)] at hc
        exact .inr (Option.some.inj hc).symm
    exact ⟨.inr hlast, .inr hlast⟩

theorem carried_through? {mark : Text} (h : Slack a w w' b) (hw' : Blank w')
    (hx : x <:+ a) (hne : x ≠ []) (hmark : ∀ c ∈ mark, isBlank c = false ∧ c ≠ '<')
    (hmarkNe : mark ≠ []) :
    Carried x (w ++ b) (w' ++ b) (through? mark (x ++ (w ++ b))) (through? mark (x ++ (w' ++ b))) := by
  refine ⟨fun hnone => ?_, fun k x' hx' hsome => ?_⟩
  · rw [through?_eq_none_iff] at hnone ⊢
    intro hinfix
    apply hnone
    have hinside (hi : mark <:+: x) : mark <:+: x ++ (w ++ b) :=
      hi.trans (List.prefix_append ..).isInfix
    have hbehind (hi : mark <:+: b) : mark <:+: x ++ (w ++ b) := by
      rw [← List.append_assoc]
      exact hi.trans (List.suffix_append ..).isInfix
    have hstop : w' ≠ [] ∨ (∀ c ∈ b.head?, c = '<') := by
      cases h with
      | start ha =>
        subst ha
        exact absurd (List.suffix_nil.1 hx) hne
      | between _ h' => exact .inl h'
      | before hb => exact .inr hb
      | beforeTag _ h' => exact .inl h'
      | behind _ h' => exact .inl h'
    have hhead : ∀ c ∈ (w' ++ b).head?, c ∉ mark := by
      intro c hc hmem
      obtain ⟨hblank, hlt⟩ := hmark c hmem
      cases w' with
      | nil =>
        rcases hstop with hne' | hb
        · exact hne' rfl
        · exact hlt (hb c hc)
      | cons d w' =>
        obtain rfl := Option.some.inj hc
        rw [hw' d List.mem_cons_self] at hblank
        cases hblank
    rcases isInfix_append_of_notMem hinfix hhead with hi | hi
    · exact hinside hi
    · exact hbehind (isInfix_of_isInfix_append hi hmarkNe fun c hc hmem =>
        notMem_of_blank hw' (hmark c hmem).1 hc)
  · subst hx'
    rw [List.append_assoc] at hsome ⊢
    exact through?_append_of_through? hsome _

def Token.Closed : Token → Prop
  | .comment s => "<!--".toList <+: s → "-->".toList <:+ s
  | _ => True

def CarriedToken (x y y' : Text) (result result' : Option (Token × Text)) : Prop :=
  (result = none → result' = none) ∧ ∀ tok x', x = tok.slice ++ x' → tok.Closed →
    result = some (tok, x' ++ y) → result' = some (tok, x' ++ y')

theorem CarriedToken.none : CarriedToken x y y' none none :=
  ⟨fun _ => rfl, fun _ _ _ _ h => by cases h⟩

theorem Carried.token {result result' : Option (Text × Text)} (h : Carried x y y' result result')
    {f : Text → Token} (hf : ∀ s, (f s).slice = s) :
    CarriedToken x y y' (result.map fun split => (f split.1, split.2))
      (result'.map fun split => (f split.1, split.2)) := by
  refine ⟨fun hnone => ?_, fun tok x' hx hclosed hsome => ?_⟩
  · rw [h.1 (Option.map_eq_none_iff.1 hnone)]
    rfl
  · obtain ⟨⟨k, r⟩, hresult, heq⟩ := Option.map_eq_some_iff.1 hsome
    obtain ⟨rfl, rfl⟩ := Prod.mk.inj heq
    rw [hf] at hx
    rw [h.2 k x' hx hresult]
    rfl

theorem prefix_append_iff {m : Text} (hx : x ≠ []) (hpart : Parted x y) (n : Nat) (hn : n ≤ x.length)
    (hhead : ∀ d ∈ m.drop n, isBlank d = false ∧ d ≠ '<' ∧ d ≠ '{')
    (hlast : ∀ c ∈ m, c ≠ '>' ∧ c ≠ '}') : m <+: x ++ y ↔ m <+: x := by
  refine ⟨fun h => ?_, fun h => h.trans (List.prefix_append x y)⟩
  by_contra hm
  obtain ⟨d, m', rfl, rest, rfl⟩ := exists_of_prefix_append h hm
  obtain hpart | hpart := hpart
  · have hd : d ∈ (x ++ d :: m').drop n := by
      rw [List.drop_append_of_le_length hn]
      exact List.mem_append_right _ List.mem_cons_self
    obtain ⟨hblank, hlt, hbrace⟩ := hhead d hd
    rcases hpart d rfl with h | h | h
    · rw [hblank] at h
      cases h
    · exact hlt h
    · exact hbrace h
  · obtain ⟨c, hc⟩ := Option.ne_none_iff_exists'.1 (mt List.getLast?_eq_none_iff.1 hx)
    obtain ⟨hgt, hbrace⟩ := hlast c (List.mem_append_left _ (List.mem_of_getLast? hc))
    exact absurd (hpart c hc) (by simp [hgt, hbrace])

theorem tagEnding_append (hpart : Parted x y) (hstart : "\x7b\x7b".toList <+: x)
    (hbrace : x = "\x7b\x7b" → y.head? ≠ some '{') : tagEnding (x ++ y) = tagEnding x := by
  have hne : x ≠ [] := hstart.ne_nil (by decide)
  have hcomment : "\x7b\x7b!--".toList <+: x ++ y ↔ "\x7b\x7b!--".toList <+: x :=
    prefix_append_iff hne hpart 2 hstart.length_le (List.all_iff_forall_prop.1 rfl)
      (List.all_iff_forall_prop.1 rfl)
  have htriple : "\x7b\x7b\x7b".toList <+: x ++ y ↔ "\x7b\x7b\x7b".toList <+: x := by
    obtain ⟨x, rfl⟩ := hstart
    cases x with
    | nil =>
      refine iff_of_false ?_ (by decide)
      rintro ⟨rest, hrest⟩
      have hy : '{' :: rest = y :=
        List.append_cancel_left (show "\x7b\x7b".toList ++ '{' :: rest = "\x7b\x7b".toList ++ y from hrest)
      exact hbrace rfl (by rw [← hy]; rfl)
    | cons c x =>
      have hcons (t : Text) : "\x7b\x7b\x7b".toList <+: '{' :: '{' :: c :: t ↔ '{' = c := by
        show ['{', '{', '{'] <+: _ ↔ _
        simp only [List.cons_prefix_cons, List.nil_prefix, true_and, and_true]
      exact (hcons (x ++ y)).trans (hcons x).symm
  unfold tagEnding
  simp only [List.isPrefixOf_iff_prefix, hcomment, htriple]

theorem two_le_length_of_braces {s rest : Text} {tok : Token} (hs : "\x7b\x7b".toList <+: s)
    (h : readToken? s = some (tok, rest)) : 2 ≤ tok.slice.length := by
  rw [readToken?_of_braces hs, readTag?_eq] at h
  obtain ⟨⟨k, r⟩, hk, heq⟩ := Option.map_eq_some_iff.1 h
  obtain ⟨rfl, -⟩ := Prod.mk.inj heq
  refine Nat.le_trans ?_ (length_of_through? hk)
  rcases tagEnding_cases s with h | h | h <;> rw [h] <;> decide

theorem carried_readTag? (h : Slack a w w' b) (hw : Blank w) (hw' : Blank w') (hx : x <:+ a)
    (hstart : "\x7b\x7b".toList <+: x) :
    CarriedToken x (w ++ b) (w' ++ b) (readTag? (x ++ (w ++ b))) (readTag? (x ++ (w' ++ b))) := by
  have hne : x ≠ [] := hstart.ne_nil (by decide)
  obtain ⟨hpart, hpart'⟩ := h.parted hw hw' hx hne
  have hbrace : x = "\x7b\x7b" → (w ++ b).head? ≠ some '{' ∧ (w' ++ b).head? ≠ some '{' := by
    rintro rfl
    obtain hheads | ⟨-, -, -, -, hnot⟩ := head?_eq_brace h hw hw' hx rfl
    · exact hheads
    · exact absurd List.suffix_rfl hnot
  rw [readTag?_eq, readTag?_eq, tagEnding_append hpart hstart fun hxx => (hbrace hxx).1,
    tagEnding_append hpart' hstart fun hxx => (hbrace hxx).2]
  refine Carried.token (f := fun s => .tag (.ofSlice s) s) (carried_through? h hw' hx hne ?_ ?_) fun _ => rfl
  · rcases tagEnding_cases x with h | h | h <;> rw [h] <;> exact List.all_iff_forall_prop.1 rfl
  · rcases tagEnding_cases x with h | h | h <;> rw [h] <;> decide

theorem takeWhile_append_of_parted {c : Char} (hpart : Parted (c :: x) y)
    (hc : c ≠ '>' ∧ c ≠ '}') : (x ++ y).takeWhile isNameChar = x.takeWhile isNameChar := by
  have hhead (hy : ∀ d ∈ y.head?, isBlank d ∨ d = '<' ∨ d = '{') : y.takeWhile isNameChar = [] := by
    cases y with
    | nil => rfl
    | cons d y =>
      have hd : isNameChar d = false := by
        rcases hy d rfl with h | rfl | rfl
        · exact isNameChar_of_isBlank h
        · decide
        · decide
      rw [List.takeWhile_cons, if_neg (by simp [hd])]
  rw [List.takeWhile_append]
  split
  · next hall =>
    obtain hpart | hpart := hpart
    · rw [hhead hpart, List.append_nil]
      exact (List.takeWhile_prefix isNameChar).eq_of_length hall |>.symm
    · have hx : ∀ d ∈ x, isNameChar d :=
        List.all_eq_true.1 ((List.takeWhile_prefix isNameChar).eq_of_length hall ▸ List.all_takeWhile)
      obtain ⟨d, hd⟩ : ∃ d, (c :: x).getLast? = some d := ⟨_, List.getLast?_eq_some_getLast (by simp)⟩
      have hclose := hpart d hd
      rcases List.mem_cons.1 (List.mem_of_getLast? hd) with rfl | hmem
      · exact absurd hclose (by simp [hc])
      · have hname := hx d hmem
        rcases hclose with rfl | rfl <;> exact absurd hname (by decide)
  · rfl

theorem head?_append_eq_slash {c : Char} (hpart : Parted (c :: x) y) (hc : c ≠ '>' ∧ c ≠ '}') :
    ((x ++ y).head? == some '/') = (x.head? == some '/') := by
  cases x with
  | cons d x => rfl
  | nil =>
    cases y with
    | nil => rfl
    | cons d y =>
      have hd : d ≠ '/' := by
        rintro rfl
        obtain hpart | hpart := hpart
        · rcases hpart '/' rfl with h | h | h <;> exact absurd h (by decide)
        · exact absurd (hpart c rfl) (by simp [hc])
      simpa using hd

theorem elementName_append {c : Char} (hpart : Parted (c :: x) y) (hc : c ≠ '>' ∧ c ≠ '}') :
    elementName (x ++ y) = elementName x := by
  unfold elementName
  rw [head?_append_eq_slash hpart hc]
  split
  · next hslash =>
    obtain ⟨x, rfl⟩ := List.head?_eq_some_iff.1 (eq_of_beq hslash)
    have hpart' : Parted ('/' :: x) y := hpart.imp_right fun hlast => by simpa using hlast
    exact takeWhile_append_of_parted hpart' (by decide)
  · exact takeWhile_append_of_parted hpart hc

theorem carried_readElement? {c : Char} (h : Slack a w w' b) (hw : Blank w) (hw' : Blank w')
    (hx : c :: x <:+ a) (hc : c ≠ '>' ∧ c ≠ '}') :
    CarriedToken (c :: x) (w ++ b) (w' ++ b) (readElement? (c :: (x ++ (w ++ b))))
      (readElement? (c :: (x ++ (w' ++ b)))) := by
  obtain ⟨hpart, hpart'⟩ := h.parted hw hw' hx (List.cons_ne_nil _ _)
  rw [readElement?_cons, readElement?_cons, elementName_append hpart hc,
    elementName_append hpart' hc, head?_append_eq_slash hpart hc, head?_append_eq_slash hpart' hc]
  split
  · have hrest := carried_tagRest? h hw hw' ((List.suffix_cons c x).trans hx) (q := none)
      fun _ hd => by cases hd
    have htoken := (hrest.putBefore [c]).token
      (f := elementToken (x.head? == some '/') (lower (elementName x))) (slice_elementToken _ _)
    rw [Option.map_map, Option.map_map] at htoken
    exact htoken
  · exact .none

theorem carried_readToken?_lt (h : Slack a w w' b) (hw : Blank w) (hw' : Blank w')
    (hx : '<' :: x <:+ a) : CarriedToken ('<' :: x) (w ++ b) (w' ++ b)
      (readToken? ('<' :: x ++ (w ++ b))) (readToken? ('<' :: x ++ (w' ++ b))) := by
  have hne : '<' :: x ≠ [] := List.cons_ne_nil _ _
  obtain ⟨hpart, hpart'⟩ := h.parted hw hw' hx hne
  have hcarried (mark : Text) (hmark : ∀ c ∈ mark, isBlank c = false ∧ c ≠ '<') (hm : mark ≠ []) :=
    carried_through? h hw' hx hne hmark hm
  have hstarts {mark : Text} {y : Text} (hy : Parted ('<' :: x) y)
      (hhead : (mark.drop 1).all fun d => isBlank d = false ∧ d ≠ '<' ∧ d ≠ '{')
      (hlast : mark.all fun c => c ≠ '>' ∧ c ≠ '}') :
      mark.isPrefixOf ('<' :: (x ++ y)) = mark.isPrefixOf ('<' :: x) := by
    rw [Bool.eq_iff_iff, List.isPrefixOf_iff_prefix, List.isPrefixOf_iff_prefix]
    exact prefix_append_iff hne hy 1 (by simp) (List.all_iff_forall_prop.1 hhead)
      (List.all_iff_forall_prop.1 hlast)
  rw [List.cons_append, List.cons_append, readToken?_lt, readToken?_lt,
    hstarts hpart rfl rfl, hstarts hpart' rfl rfl,
    hstarts hpart rfl rfl, hstarts hpart' rfl rfl,
    hstarts hpart rfl rfl, hstarts hpart' rfl rfl]
  split
  · next hcomment =>
    have hend := hcarried "-->" (List.all_iff_forall_prop.1 rfl) (by decide)
    rw [List.cons_append, List.cons_append] at hend
    cases hsource : through? "-->" ('<' :: (x ++ (w ++ b))) with
    | some split =>
      refine ⟨fun h => absurd h (Option.some_ne_none _), fun tok x' hx' _ hsome => ?_⟩
      obtain ⟨rfl, hrest⟩ := Prod.mk.inj (Option.some.inj hsome)
      rw [hend.2 split.1 x' hx' (hsource.trans (congrArg (fun r => some (split.1, r)) hrest))]
    | none =>
      refine ⟨fun h => absurd h (Option.some_ne_none _), fun tok x' hx' hclosed hsome => ?_⟩
      obtain ⟨rfl, -⟩ := Prod.mk.inj (Option.some.inj hsome)
      have hopen : "<!--".toList <+: '<' :: (x ++ (w ++ b)) :=
        (List.isPrefixOf_iff_prefix.1 hcomment).trans (List.prefix_append ('<' :: x) _)
      exact absurd (hclosed hopen).isInfix (through?_eq_none_iff.1 hsource)
  split
  · exact Carried.token (f := Token.comment) (hcarried ">" (List.all_iff_forall_prop.1 rfl) (by decide)) fun _ => rfl
  · exact carried_readElement? h hw hw' hx (by decide)

theorem carried_readToken? (h : Slack a w w' b) (hw : Blank w) (hw' : Blank w') (hx : x <:+ a)
    (hne : x ≠ []) : CarriedToken x (w ++ b) (w' ++ b) (readToken? (x ++ (w ++ b)))
      (readToken? (x ++ (w' ++ b))) := by
  by_cases hstart : "\x7b\x7b".toList <+: x
  · rw [readToken?_of_braces (hstart.trans (List.prefix_append x _)),
      readToken?_of_braces (hstart.trans (List.prefix_append x _))]
    exact carried_readTag? h hw hw' hx hstart
  obtain ⟨c, x, rfl⟩ := List.exists_cons_of_ne_nil hne
  by_cases hc : c = '<'
  · subst hc
    exact carried_readToken?_lt h hw hw' hx
  have hplain {y : Text} (hy : c = '{' → x = [] → y.head? ≠ some '{') :
      readToken? (c :: x ++ y) = none := by
    refine readToken?_of_head? ?_ (by simpa using hc)
    show ¬ ['{', '{'] <+: c :: (x ++ y)
    rw [List.cons_prefix_cons]
    rintro ⟨rfl, hbrace⟩
    cases x with
    | nil =>
      obtain ⟨rest, rfl⟩ := hbrace
      exact hy rfl rfl rfl
    | cons d x =>
      obtain ⟨rfl, -⟩ := List.cons_prefix_cons.1 hbrace
      exact hstart ⟨x, rfl⟩
  by_cases hlast : c = '{' ∧ x = []
  · obtain ⟨rfl, rfl⟩ := hlast
    obtain ⟨hhead, hhead'⟩ | ⟨rfl, hne', hbraces, -, -⟩ := head?_eq_brace h hw hw' hx rfl
    · rw [hplain fun _ _ => hhead, hplain fun _ _ => hhead']
      exact .none
    · rw [hplain fun _ _ => head?_blank_append_ne hw' hne' (by decide)]
      refine ⟨fun _ => rfl, fun tok x' hx' _ hsome => ?_⟩
      -- a template tag has more than one character
      have hlength := two_le_length_of_braces ?_ hsome
      · have hle := congrArg List.length hx'
        simp at hle
        omega
      · obtain ⟨rest, rfl⟩ := hbraces
        exact ⟨_, rfl⟩
  · rw [hplain fun hc hx => absurd ⟨hc, hx⟩ hlast, hplain fun hc hx => absurd ⟨hc, hx⟩ hlast]
    exact .none

end PatternBridge.Markup
