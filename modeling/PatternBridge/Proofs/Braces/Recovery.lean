import PatternBridge.Proofs.Braces.Pairs

/-! Unescaping gives back every text, whatever braces and markers it holds. An opening brace that
stands alone in escaped text is never the first brace of a lookup, since what follows it was no
opening brace before escaping. -/

namespace PatternBridge.Braces

theorem openLookup_append (s : Text) :
    openLookup ++ s = '{' :: '{' :: '{' :: '<' :: '%' :: '}' :: '}' :: '}' :: s := by
  have h : openLookup = ['{', '{', '{', '<', '%', '}', '}', '}'] := by decide
  rw [h]
  rfl

theorem closeLookup_append (s : Text) :
    closeLookup ++ s = '{' :: '{' :: '{' :: '%' :: '>' :: '}' :: '}' :: '}' :: s := by
  have h : closeLookup = ['{', '{', '{', '%', '>', '}', '}', '}'] := by decide
  rw [h]
  rfl

theorem decode_openLookup_append (s : Text) :
    decode (openLookup ++ s) = '{' :: '{' :: decode s := by
  rw [openLookup_append, decode.eq_2]

theorem decode_closeLookup_append (s : Text) :
    decode (closeLookup ++ s) = '}' :: '}' :: decode s := by
  rw [closeLookup_append, decode.eq_3]

theorem decode_cons {c : Char} (h : c ≠ '{') (s : Text) : decode (c :: s) = c :: decode s := by
  apply decode.eq_4
  · rintro _ rfl
    contradiction
  · rintro _ rfl
    contradiction

theorem decode_brace {s : Text} (ho : ∀ t, s ≠ '{' :: '{' :: '<' :: t)
    (hc : ∀ t, s ≠ '{' :: '{' :: '%' :: t) : decode ('{' :: s) = '{' :: decode s := by
  apply decode.eq_4
  · rintro t - rfl
    exact ho _ rfl
  · rintro t - rfl
    exact hc _ rfl

theorem encode_cases {s : Text} (hs : s.head? ≠ some '{') :
    encode s = [] ∨ (∃ t, encode s = closeLookup ++ t) ∨ ∃ c t, c ≠ '{' ∧ encode s = c :: t := by
  cases s using encode_induction with
  | nil => exact .inl rfl
  | opening s => exact absurd rfl hs
  | three s => exact .inr (.inr ⟨_, _, by decide, encode_three s⟩)
  | two s hclose => exact .inr (.inl ⟨_, encode_closing hclose⟩)
  | char c s hc =>
    refine .inr (.inr ⟨c, encode s, ?_, encode_cons hc⟩)
    rintro rfl
    exact hs rfl

theorem decode_brace_encode {s : Text} (hs : s.head? ≠ some '{') :
    decode ('{' :: encode s) = '{' :: decode (encode s) := by
  obtain h | ⟨t, h⟩ | ⟨c, t, hc, h⟩ := encode_cases hs
  · rw [h]
    exact decode_brace (by simp) (by simp)
  · rw [h, closeLookup_append]
    exact decode_brace (by simp) (by simp)
  · rw [h]
    exact decode_brace (by simp [hc]) (by simp [hc])

theorem decode_encode (s : Text) : decode (encode s) = s := by
  induction s using encode_induction with
  | nil => rfl
  | opening s ih => rw [encode_opening, decode_openLookup_append, ih]
  | three s ih => rw [encode_three, decode_cons (by decide), decode_closeLookup_append, ih]
  | two s hclose ih => rw [encode_closing hclose, decode_closeLookup_append, ih]
  | char c s hc ih =>
    rw [encode_cons hc]
    by_cases hbrace : c = '{'
    · subst hbrace
      rw [decode_brace_encode (hc (.inl rfl)), ih]
    · rw [decode_cons hbrace, ih]

theorem encode_injective : Function.Injective encode := by
  intro s t h
  rw [← decode_encode s, h, decode_encode]

end PatternBridge.Braces
