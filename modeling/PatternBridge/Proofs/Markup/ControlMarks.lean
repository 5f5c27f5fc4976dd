import PatternBridge.Proofs.Markup.TokenAt

/-! Whitespace-control marks of template tags. The kind of a tag does not depend on them. Its end does:
triple tags and comments with dashes are known by what stands directly at the braces, so a mark there
makes a plain tag of them. -/

namespace PatternBridge.Markup
open Text

variable {k : TagKind} {b p s : Text} {c : Char}

def inBraces (b : Text) : Text := ['{', '{'] ++ (b ++ ['}', '}'])

/-- The text is read as one template tag, from its first character to its last one. -/
def IsTag (k : TagKind) (s : Text) : Prop := readTag? s = some (.tag k s, [])

/-- A triple tag or a comment with dashes, which may hold two closing braces. -/
def HasOwnEnd (b : Text) : Prop := ['{'] <+: b ∨ ['!', '-', '-'] <+: b

instance : Decidable (IsTag k s) := inferInstanceAs (Decidable (_ = _))

instance : Decidable (HasOwnEnd b) := inferInstanceAs (Decidable (_ ∨ _))

theorem isPrefixOf_inBraces (hp : '}' ∉ p) :
    ('{' :: '{' :: p).isPrefixOf (inBraces b) = p.isPrefixOf b := by
  rw [Bool.eq_iff_iff, List.isPrefixOf_iff_prefix, List.isPrefixOf_iff_prefix]
  have hbraces : '{' :: '{' :: p <+: inBraces b ↔ p <+: b ++ ['}', '}'] :=
    List.prefix_append_right_inj ['{', '{']
  rw [hbraces]
  exact prefix_append_iff_of_notMem fun d hd => by rwa [← Option.some.inj hd]

/-- The text between the braces without the marks. -/
def tagBody (b : Text) : Text := dropFinalTilde (b.dropWhile (· == '~'))

theorem ofBody_tagBody_eq_inline (hc : c = '{' ∨ c = '!') (s : Text) :
    TagKind.ofBody (tagBody (c :: s)) = .inline := by
  have hdrop : (c :: s).dropWhile (· == '~') = c :: s := by
    rcases hc with rfl | rfl <;> rfl
  obtain ⟨t, ht⟩ : ∃ t, tagBody (c :: s) = c :: t := by
    rw [tagBody, hdrop, dropFinalTilde]
    split
    · next hlast =>
      cases s with
      | nil => rcases hc with rfl | rfl <;> cases hlast
      | cons d s => exact ⟨_, List.dropLast_cons_of_ne_nil (List.cons_ne_nil d s)⟩
    · exact ⟨s, rfl⟩
  rw [ht]
  rcases hc with rfl | rfl <;> rfl

theorem ofSlice_inBraces (b : Text) : TagKind.ofSlice (inBraces b) = .ofBody (tagBody b) := by
  have hinner : ((inBraces b).drop 2).take ((inBraces b).length - 4) = b := by
    have hlength : (inBraces b).length - 4 = b.length := by simp [inBraces]
    rw [hlength]
    exact List.take_left
  have htriple : "\x7b\x7b\x7b".toList.isPrefixOf (inBraces b) = ['{'].isPrefixOf b :=
    isPrefixOf_inBraces (by decide)
  have hcomment : "\x7b\x7b!".toList.isPrefixOf (inBraces b) = ['!'].isPrefixOf b :=
    isPrefixOf_inBraces (by decide)
  unfold TagKind.ofSlice
  rw [hinner, htriple, hcomment]
  split
  · next h =>
    rw [Bool.or_eq_true, List.isPrefixOf_iff_prefix, List.isPrefixOf_iff_prefix] at h
    obtain ⟨s, rfl⟩ | ⟨s, rfl⟩ := h
    · exact (ofBody_tagBody_eq_inline (.inl rfl) s).symm
    · exact (ofBody_tagBody_eq_inline (.inr rfl) s).symm
  · rfl

theorem tagEnding_inBraces (b : Text) : tagEnding (inBraces b) =
    if ['!', '-', '-'].isPrefixOf b then ['-', '-', '}', '}']
    else if ['{'].isPrefixOf b then ['}', '}', '}']
    else ['}', '}'] := by
  have hdashes : "\x7b\x7b!--".toList.isPrefixOf (inBraces b) = ['!', '-', '-'].isPrefixOf b :=
    isPrefixOf_inBraces (by decide)
  have htriple : "\x7b\x7b\x7b".toList.isPrefixOf (inBraces b) = ['{'].isPrefixOf b :=
    isPrefixOf_inBraces (by decide)
  unfold tagEnding
  rw [hdashes, htriple]
  rfl

theorem isTag_inBraces_iff : IsTag k (inBraces b) ↔ k = .ofBody (tagBody b) ∧
    tagEnding (inBraces b) <:+ inBraces b ∧
      ¬ tagEnding (inBraces b) <:+: ['{', '{'] ++ (b ++ ['}']) := by
  have hend : tagEnding (inBraces b) ≠ [] :=
    (braces_suffix_tagEnding _).ne_nil (by decide)
  have hlast : (inBraces b).dropLast = ['{', '{'] ++ (b ++ ['}']) := by
    have hsplit : inBraces b = ['{', '{'] ++ (b ++ ['}']) ++ ['}'] := by simp [inBraces]
    rw [hsplit, List.dropLast_concat]
  rw [IsTag, readTag?_eq, ← hlast, ← through?_eq_self_iff hend, ← ofSlice_inBraces]
  constructor
  · intro h
    obtain ⟨⟨slice, rest⟩, hthrough, htag⟩ := Option.map_eq_some_iff.1 h
    obtain ⟨htok, rfl⟩ := Prod.mk.inj htag
    obtain ⟨hkind, rfl⟩ := Token.tag.inj htok
    exact ⟨hkind.symm, hthrough⟩
  · rintro ⟨rfl, hthrough⟩
    rw [hthrough]
    rfl

theorem tagEnding_of_not_hasOwnEnd (h : ¬ HasOwnEnd b) : tagEnding (inBraces b) = ['}', '}'] := by
  obtain ⟨htriple, hdashes⟩ := not_or.1 h
  rw [← List.isPrefixOf_iff_prefix] at htriple hdashes
  rw [tagEnding_inBraces, if_neg hdashes, if_neg htriple]

theorem isTag_of_not_hasOwnEnd_iff (h : ¬ HasOwnEnd b) : IsTag k (inBraces b) ↔
    k = .ofBody (tagBody b) ∧ ¬ ['}', '}'] <:+: b ++ ['}'] := by
  have hinfix : ['}', '}'] <:+: ['{', '{'] ++ (b ++ ['}']) ↔ ['}', '}'] <:+: b ++ ['}'] :=
    ⟨fun hmem => isInfix_of_isInfix_append hmem (by simp) (by simp),
      fun hmem => hmem.trans (List.suffix_append _ _).isInfix⟩
  have hsuffix : ['}', '}'] <:+ inBraces b :=
    (List.suffix_append b _).trans (List.suffix_append ['{', '{'] _)
  rw [isTag_inBraces_iff, tagEnding_of_not_hasOwnEnd h, hinfix]
  exact ⟨fun htag => ⟨htag.1, htag.2.2⟩, fun htag => ⟨htag.1, hsuffix, htag.2⟩⟩

theorem not_hasOwnEnd_tilde_cons (b : Text) : ¬ HasOwnEnd ('~' :: b) := by
  simp [HasOwnEnd, List.cons_prefix_cons]

theorem hasOwnEnd_concat_tilde_iff : HasOwnEnd (b ++ ['~']) ↔ HasOwnEnd b :=
  or_congr (prefix_append_iff_of_notMem (by simp)) (prefix_append_iff_of_notMem (by simp))

theorem tagBody_tilde_cons (b : Text) : tagBody ('~' :: b) = tagBody b := rfl

theorem tagBody_concat_tilde (hstart : b.head? ≠ some '~') (hlast : b.getLast? ≠ some '~') :
    tagBody (b ++ ['~']) = tagBody b := by
  cases b with
  | nil => rfl
  | cons c b =>
    have hdrop (t : Text) : (c :: t).dropWhile (· == '~') = c :: t := by
      rw [List.dropWhile_cons, if_neg (by simpa using hstart)]
    have hmark : ((c :: b) ++ ['~']).getLast? = some '~' := List.getLast?_concat
    rw [tagBody, tagBody, List.cons_append, hdrop, hdrop, ← List.cons_append]
    simp only [dropFinalTilde, hmark, List.dropLast_concat, beq_iff_eq, if_neg hlast, if_true]

theorem getLast?_of_isTag (h : IsTag k (inBraces b)) :
    (['{'] <+: b → b.getLast? = some '}') ∧ (['!', '-', '-'] <+: b → b.getLast? = some '-') := by
  have hlast {q : Text} {d : Char} (hq : tagEnding (inBraces b) = q ++ [d, '}', '}'])
      (hb : b ≠ []) : b.getLast? = some d := by
    obtain ⟨r, hr⟩ := (isTag_inBraces_iff.1 h).2.1
    have hcut : r ++ q ++ [d] ++ ['}', '}'] = ['{', '{'] ++ b ++ ['}', '}'] := by
      rw [hq] at hr
      simpa [inBraces] using hr
    have hd := congrArg List.getLast? (List.append_cancel_right hcut)
    rwa [List.getLast?_concat, List.getLast?_append_of_ne_nil _ hb, eq_comm] at hd
  constructor
  · rintro ⟨t, rfl⟩
    exact hlast (q := []) (tagEnding_inBraces _) (by simp)
  · rintro ⟨t, rfl⟩
    exact hlast (q := ['-']) (tagEnding_inBraces _) (by simp)

theorem isTag_tilde_cons_iff (hk : k = .ofBody (tagBody b)) :
    IsTag k (inBraces ('~' :: b)) ↔ ¬ ['}', '}'] <:+: b ++ ['}'] := by
  have hinfix : ['}', '}'] <:+: '~' :: b ++ ['}'] ↔ ['}', '}'] <:+: b ++ ['}'] := by
    rw [List.cons_append, List.infix_cons_iff, List.cons_prefix_cons]
    exact or_iff_right fun hstart => absurd hstart.1 (by decide)
  rw [isTag_of_not_hasOwnEnd_iff (not_hasOwnEnd_tilde_cons b), tagBody_tilde_cons, hinfix]
  exact and_iff_right hk

theorem isInfix_concat_iff (hc : c ≠ '}') :
    ['}', '}'] <:+: b ++ [c] ++ ['}'] ↔ ['}', '}'] <:+: b := by
  rw [List.append_assoc]
  refine ⟨fun h => ?_, fun h => h.trans (List.prefix_append _ _).isInfix⟩
  refine (isInfix_append_of_notMem h (by simpa using hc)).resolve_right fun hshort => ?_
  exact hc (List.cons.inj (hshort.eq_of_length rfl)).1.symm

theorem isTag_concat_tilde_iff (hk : k = .ofBody (tagBody (b ++ ['~']))) (hplain : ¬ HasOwnEnd b) :
    IsTag k (inBraces (b ++ ['~'])) ↔ ¬ ['}', '}'] <:+: b := by
  rw [isTag_of_not_hasOwnEnd_iff (mt hasOwnEnd_concat_tilde_iff.1 hplain),
    isInfix_concat_iff (by decide)]
  exact and_iff_right hk

theorem isTag_tilde_both_iff (hk : k = .ofBody (tagBody (b ++ ['~']))) :
    IsTag k (inBraces ('~' :: (b ++ ['~']))) ↔ ¬ ['}', '}'] <:+: b := by
  rw [isTag_tilde_cons_iff hk, isInfix_concat_iff (by decide)]

theorem not_isTag_concat_tilde (hown : HasOwnEnd b) : ¬ IsTag k (inBraces (b ++ ['~'])) := by
  intro h
  obtain ⟨htriple, hdashes⟩ := getLast?_of_isTag h
  rw [List.getLast?_concat] at htriple hdashes
  rcases hasOwnEnd_concat_tilde_iff.2 hown with hb | hb
  · exact absurd (htriple hb) (by decide)
  · exact absurd (hdashes hb) (by decide)

theorem isInfix_concat_brace_iff (hown : HasOwnEnd b) (h : IsTag k (inBraces b)) :
    ¬ ['}', '}'] <:+: b ++ ['}'] ↔ ¬ ['{'] <+: b ∧ ¬ ['}', '}'] <:+: b := by
  obtain ⟨htriple, hdashes⟩ := getLast?_of_isTag h
  rcases hown with hb | hb
  · obtain ⟨front, rfl⟩ := List.getLast?_eq_some_iff.1 (htriple hb)
    rw [List.append_assoc]
    exact iff_of_false (fun hclose => hclose (List.suffix_append front _).isInfix)
      fun hclose => hclose.1 hb
  · obtain ⟨front, rfl⟩ := List.getLast?_eq_some_iff.1 (hdashes hb)
    have hbrace : ¬ ['{'] <+: front ++ ['-'] := by
      obtain ⟨t, ht⟩ := hb
      rw [← ht]
      rintro ⟨u, hu⟩
      exact absurd (List.cons.inj hu).1 (by decide)
    rw [isInfix_concat_iff (by decide), and_iff_right hbrace]
    refine not_congr ⟨fun hfirst => hfirst.trans (List.prefix_append _ _).isInfix, fun hdash => ?_⟩
    exact (isInfix_concat_iff (by decide)).1 (hdash.trans (List.prefix_append _ _).isInfix)

/-- Marks leave a plain tag what it is. A tag with an end of its own is not read with a mark at that
end, and with a mark at its start it is read as a plain tag. -/
theorem isTag_marked (hstart : b.head? ≠ some '~') (hlast : b.getLast? ≠ some '~')
    (h : IsTag k (inBraces b)) :
    (¬ HasOwnEnd b → IsTag k (inBraces ('~' :: b)) ∧ IsTag k (inBraces (b ++ ['~'])) ∧
      IsTag k (inBraces ('~' :: (b ++ ['~'])))) ∧
    (HasOwnEnd b → ¬ IsTag k (inBraces (b ++ ['~'])) ∧
      (IsTag k (inBraces ('~' :: b)) ↔ ¬ ['{'] <+: b ∧ ¬ ['}', '}'] <:+: b) ∧
      (IsTag k (inBraces ('~' :: (b ++ ['~']))) ↔ ¬ ['}', '}'] <:+: b)) := by
  have hk : k = .ofBody (tagBody b) := (isTag_inBraces_iff.1 h).1
  have hk' : k = .ofBody (tagBody (b ++ ['~'])) := by rw [tagBody_concat_tilde hstart hlast, hk]
  constructor
  · intro hplain
    have hclose := ((isTag_of_not_hasOwnEnd_iff hplain).1 h).2
    have hnone : ¬ ['}', '}'] <:+: b := fun hb => hclose (hb.trans (List.prefix_append _ _).isInfix)
    exact ⟨(isTag_tilde_cons_iff hk).2 hclose, (isTag_concat_tilde_iff hk' hplain).2 hnone,
      (isTag_tilde_both_iff hk').2 hnone⟩
  · intro hown
    exact ⟨not_isTag_concat_tilde hown,
      (isTag_tilde_cons_iff hk).trans (isInfix_concat_brace_iff hown h), isTag_tilde_both_iff hk'⟩

/-- A block opener with marks, and a comment with dashes that has no mark at its end. -/
theorem isTag_marked_each :
    IsTag .opening (inBraces ['#', 'a']) ∧ IsTag .opening (inBraces ['~', '#', 'a', '~']) ∧
    IsTag .inline (inBraces "!-- c --") ∧ IsTag .inline (inBraces "~!-- c --~") ∧
    IsTag .inline (inBraces "~!-- c --") := by
  have hopening : IsTag .opening (inBraces ['#', 'a']) := by decide
  have hcomment : IsTag .inline (inBraces "!-- c --") := by decide
  have hplain := (isTag_marked (by decide) (by decide) hopening).1 (by decide)
  have hdashes := (isTag_marked (by decide) (by decide) hcomment).2 (by decide)
  exact ⟨hopening, hplain.2.2, hcomment, hdashes.2.2.2 (by decide), hdashes.2.1.2 (by decide)⟩

/-- With a mark at its end, a comment with dashes is no tag at all, and its blanks are laid out anew. A
triple tag with a mark at its start ends before its last brace. -/
theorem marks_hide_ends :
    IsTag .inline (inBraces "!-- a  b --") ∧ ("!-- a  b --" : Text).head? ≠ some '~' ∧
    ("!-- a  b --" : Text).getLast? ≠ some '~' ∧ readTag? (inBraces "!-- a  b --~") = none ∧
    tokens {} (inBraces "!-- a  b --~") = [.text (inBraces "!-- a  b --~")] ∧
    IsTag .inline (inBraces "\x7bx\x7d") ∧
    readTag? (inBraces "~\x7bx\x7d") =
      some (.tag .inline "\x7b\x7b~\x7bx\x7d\x7d", ['}']) := by
  decide +kernel

end PatternBridge.Markup
