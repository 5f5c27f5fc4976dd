import PatternBridge.Markup.Tokenize
import PatternBridge.Proofs.Text.Occurrence

/-! How a token is read at the start of a text: one case for each way to find its end. -/

namespace PatternBridge.Markup
open Text

variable {s rest : Text} {tok : Token}

def tagEnding (s : Text) : Text :=
  if "\x7b\x7b!--".toList.isPrefixOf s then "--\x7d\x7d"
  else if "\x7b\x7b\x7b".toList.isPrefixOf s then "\x7d\x7d\x7d"
  else "\x7d\x7d"

theorem readTag?_eq (s : Text) : readTag? s =
    (through? (tagEnding s) s).map fun split => (.tag (.ofSlice split.1) split.1, split.2) := rfl

theorem tagEnding_cases (s : Text) : tagEnding s = "--\x7d\x7d" ∨ tagEnding s = "\x7d\x7d\x7d" ∨
    tagEnding s = "\x7d\x7d" := by
  unfold tagEnding
  split
  · exact .inl rfl
  · split
    · exact .inr (.inl rfl)
    · exact .inr (.inr rfl)

theorem braces_suffix_tagEnding (s : Text) : "\x7d\x7d".toList <:+ tagEnding s := by
  rcases tagEnding_cases s with h | h | h <;> rw [h] <;> decide

def elementName (s : Text) : Text :=
  (if s.head? == some '/' then s.tail else s).takeWhile isNameChar

theorem readElement?_cons (c : Char) (s : Text) : readElement? (c :: s) =
    if (elementName s).head?.any Char.isAlpha then
      (tagRest? none s).map fun split =>
        (elementToken (s.head? == some '/') (lower (elementName s)) (c :: split.1), split.2)
    else none := rfl

theorem readToken?_of_head? (hbraces : ¬ "\x7b\x7b".toList <+: s) (hhead : s.head? ≠ some '<') :
    readToken? s = none := by
  unfold readToken?
  rw [if_neg (by rwa [List.isPrefixOf_iff_prefix]), if_pos (by simpa using hhead)]

theorem readToken?_of_braces (hbraces : "\x7b\x7b".toList <+: s) : readToken? s = readTag? s := by
  unfold readToken?
  rw [if_pos (List.isPrefixOf_iff_prefix.2 hbraces)]

theorem readToken?_lt (s : Text) : readToken? ('<' :: s) =
    if "<!--".toList.isPrefixOf ('<' :: s) then
      match through? "-->" ('<' :: s) with
      | some (slice, rest) => some (.comment slice, rest)
      | none => some (.comment ('<' :: s), [])
    else if "<!".toList.isPrefixOf ('<' :: s) || "<?".toList.isPrefixOf ('<' :: s) then
      (through? ">" ('<' :: s)).map fun split => (.comment split.1, split.2)
    else readElement? ('<' :: s) := rfl

/-- The token stands at the start of `s`, and `rest` behind it. -/
inductive TokenAt (s : Text) : Token → Text → Prop
  | tag {slice rest : Text} (hs : "\x7b\x7b".toList <+: s)
      (hend : through? (tagEnding s) s = some (slice, rest)) :
      TokenAt s (.tag (.ofSlice slice) slice) rest
  | comment {slice rest : Text} (hs : s.head? = some '<') (hend : ['>'] <:+ slice) :
      TokenAt s (.comment slice) rest
  | unended (hs : "<!--".toList <+: s) : TokenAt s (.comment s) []
  | element {a rest : Text} (hs : s = '<' :: (a ++ rest))
      (hend : tagRest? none (a ++ rest) = some (a, rest)) :
      TokenAt s (elementToken ((a ++ rest).head? == some '/') (lower (elementName (a ++ rest)))
        ('<' :: a)) rest

theorem tokenAt_of_readToken? (h : readToken? s = some (tok, rest)) : TokenAt s tok rest := by
  by_cases hbraces : "\x7b\x7b".toList <+: s
  · rw [readToken?_of_braces hbraces, readTag?_eq] at h
    obtain ⟨⟨slice, r⟩, hslice, heq⟩ := Option.map_eq_some_iff.1 h
    obtain ⟨rfl, rfl⟩ := Prod.mk.inj heq
    exact .tag hbraces hslice
  by_cases hlt : s.head? = some '<'
  · obtain ⟨s, rfl⟩ := List.head?_eq_some_iff.1 hlt
    rw [readToken?_lt] at h
    split at h
    · next hcomment =>
      split at h
      · next slice r hend =>
        obtain ⟨rfl, rfl⟩ := Prod.mk.inj (Option.some.inj h)
        exact .comment rfl (List.IsSuffix.trans (by decide) (suffix_of_through? hend))
      · obtain ⟨rfl, rfl⟩ := Prod.mk.inj (Option.some.inj h)
        exact .unended (List.isPrefixOf_iff_prefix.1 hcomment)
    split at h
    · obtain ⟨⟨slice, r⟩, hslice, heq⟩ := Option.map_eq_some_iff.1 h
      obtain ⟨rfl, rfl⟩ := Prod.mk.inj heq
      exact .comment rfl (suffix_of_through? hslice)
    · rw [readElement?_cons, Option.ite_none_right_eq_some] at h
      obtain ⟨⟨a, r⟩, ha, heq⟩ := Option.map_eq_some_iff.1 h.2
      obtain ⟨rfl, rfl⟩ := Prod.mk.inj heq
      obtain rfl := eq_append_of_tagRest? ha
      exact .element rfl ha
  · rw [readToken?_of_head? hbraces hlt] at h
    cases h

end PatternBridge.Markup
