import Mathlib.Data.List.Infix
import PatternBridge.Dialect
import PatternBridge.Proofs.Braces.Recovery
import PatternBridge.Proofs.Text.Occurrence

/-! Unescaping puts its value in the place of every lookup, whatever stands around the lookup, and
changes nothing else. No lookup starts in another one or reaches into it from the text before it, since
behind its first character no part of a lookup is the start of one. -/

namespace PatternBridge.Braces
open Text

/-- The tag that a generator replaces by the value of the key. -/
def lookup (key : Text) : Text := "\x7b\x7b\x7b".toList ++ (key ++ "\x7d\x7d\x7d".toList)

theorem lookup_openMarker : lookup openMarker = openLookup := by decide

theorem lookup_closeMarker : lookup closeMarker = closeLookup := by decide

theorem sidecarPairs_cases {key value : Text}
    (h : (key, value) ∈ Dialect.handlebars.sidecarPairs) :
    lookup key = openLookup ∧ value = ['{', '{'] ∨ lookup key = closeLookup ∧ value = ['}', '}'] := by
  rcases List.mem_cons.1 h with h | h
  · obtain ⟨rfl, rfl⟩ := Prod.mk.inj h
    exact .inl ⟨lookup_openMarker, by decide⟩
  · obtain ⟨rfl, rfl⟩ := Prod.mk.inj (List.mem_singleton.1 h)
    exact .inr ⟨lookup_closeMarker, by decide⟩

theorem decode_cons_of_no_lookup {c : Char} {s : Text} (ho : ¬ openLookup <+: c :: s)
    (hc : ¬ closeLookup <+: c :: s) : decode (c :: s) = c :: decode s := by
  apply decode.eq_4
  · rintro t rfl rfl
    exact ho ⟨t, openLookup_append t⟩
  · rintro t rfl rfl
    exact hc ⟨t, closeLookup_append t⟩

theorem prefix_of_prefix_append {mark s b : Text} (hmark : mark = openLookup ∨ mark = closeLookup)
    (hs : s ≠ []) (hb : ['{', '{', '{'] <+: b) (h : mark <+: s ++ b) : mark <+: s := by
  -- what a lookup has behind its first characters does not start with three braces
  have hparts : ∀ m ∈ mark.tail.tails, m ≠ [] → ¬ m.take 3 <+: ['{', '{', '{'] := by
    rcases hmark with rfl | rfl <;> decide
  obtain ⟨c, s, rfl⟩ := List.exists_cons_of_ne_nil hs
  by_contra hshort
  obtain ⟨d, m, hm, hreach⟩ := exists_of_prefix_append h hshort
  have htail : d :: m ∈ mark.tail.tails := by
    rw [List.mem_tails, hm]
    exact List.suffix_append s (d :: m)
  have hstart : (d :: m).take 3 <+: ['{', '{', '{'] :=
    List.prefix_of_prefix_length_le ((List.take_prefix 3 _).trans hreach) hb (List.length_take_le 3 _)
  exact hparts _ htail (List.cons_ne_nil d m) hstart

theorem decode_append_of_braces (a : Text) {b : Text} (hb : ['{', '{', '{'] <+: b) :
    decode (a ++ b) = decode a ++ decode b := by
  have hcons {c : Char} {s : Text} (ho : ¬ openLookup <+: c :: s) (hc : ¬ closeLookup <+: c :: s) :
      decode (c :: (s ++ b)) = c :: decode (s ++ b) :=
    decode_cons_of_no_lookup
      (fun h => ho (prefix_of_prefix_append (.inl rfl) (List.cons_ne_nil c s) hb h))
      (fun h => hc (prefix_of_prefix_append (.inr rfl) (List.cons_ne_nil c s) hb h))
  fun_induction decode a with
  | case1 => rfl
  | case2 s ih =>
    rw [← openLookup_append, List.append_assoc, decode_openLookup_append, ih]
    rfl
  | case3 s ih =>
    rw [← closeLookup_append, List.append_assoc, decode_closeLookup_append, ih]
    rfl
  | case4 c s ho hc ih =>
    rw [List.cons_append, hcons, ih, List.cons_append]
    · rintro ⟨t, ht⟩
      obtain ⟨rfl, rfl⟩ := List.cons.inj ((openLookup_append t).symm.trans ht)
      exact ho t rfl rfl
    · rintro ⟨t, ht⟩
      obtain ⟨rfl, rfl⟩ := List.cons.inj ((closeLookup_append t).symm.trans ht)
      exact hc t rfl rfl

theorem decode_eq_self {s : Text} (ho : ¬ openLookup <:+: s) (hc : ¬ closeLookup <:+: s) :
    decode s = s := by
  induction s with
  | nil => rfl
  | cons c s ih =>
    rw [List.infix_cons_iff, not_or] at ho hc
    rw [decode_cons_of_no_lookup ho.1 hc.1, ih ho.2 hc.2]

/-- Unescaping replaces every lookup of a marker by its value and leaves all else as it is. -/
theorem decode_replaces_lookups :
    (∀ pair ∈ Dialect.handlebars.sidecarPairs, ∀ a b : Text,
      decode (a ++ (lookup pair.1 ++ b)) = decode a ++ (pair.2 ++ decode b)) ∧
    ∀ s : Text, (∀ pair ∈ Dialect.handlebars.sidecarPairs, ¬ lookup pair.1 <:+: s) → decode s = s := by
  constructor
  · rintro ⟨key, value⟩ hpair a b
    have hbraces : ['{', '{', '{'] <+: lookup key ++ b :=
      (List.prefix_append _ _).trans (List.prefix_append _ _)
    dsimp only
    rw [decode_append_of_braces a hbraces]
    obtain ⟨hkey, hvalue⟩ | ⟨hkey, hvalue⟩ := sidecarPairs_cases hpair
    · rw [hkey, hvalue, decode_openLookup_append]
      rfl
    · rw [hkey, hvalue, decode_closeLookup_append]
      rfl
  · intro s hs
    apply decode_eq_self
    · rw [← lookup_openMarker]
      exact hs (openMarker, _) List.mem_cons_self
    · rw [← lookup_closeMarker]
      exact hs (closeMarker, _) (List.mem_cons_of_mem _ List.mem_cons_self)

/-- A brace before a lookup and the end of another one behind it stay, and the lookup that they make
with its value is not replaced again. -/
theorem decode_replaces_lookup_among_parts :
    (openMarker, ['{', '{']) ∈ Dialect.handlebars.sidecarPairs ∧
    decode (['{'] ++ (lookup openMarker ++ ['<', '%', '}', '}', '}'])) = openLookup ∧
    (∀ pair ∈ Dialect.handlebars.sidecarPairs,
      ¬ lookup pair.1 <:+: ['{', '{', '{', 'x', '}', '}', '}']) ∧
    decode ['{', '{', '{', 'x', '}', '}', '}'] = ['{', '{', '{', 'x', '}', '}', '}'] := by
  have hpair : (openMarker, ['{', '{']) ∈ Dialect.handlebars.sidecarPairs := by decide
  have hnone : ∀ pair ∈ Dialect.handlebars.sidecarPairs,
      ¬ lookup pair.1 <:+: ['{', '{', '{', 'x', '}', '}', '}'] := by decide
  refine ⟨hpair, ?_, hnone, decode_replaces_lookups.2 _ hnone⟩
  rw [decode_replaces_lookups.1 _ hpair]
  decide

end PatternBridge.Braces
