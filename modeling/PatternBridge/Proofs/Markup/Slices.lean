import PatternBridge.Markup.Tokenize

/-! The slices of the tokens of a text make up the text. -/

namespace PatternBridge.Markup

def slices (toks : List Token) : Text := toks.flatMap Token.slice

@[simp] theorem slices_nil : slices [] = [] := rfl

@[simp] theorem slices_cons (tok : Token) (toks : List Token) :
    slices (tok :: toks) = tok.slice ++ slices toks := rfl

@[simp] theorem slices_append (toks toks' : List Token) :
    slices (toks ++ toks') = slices toks ++ slices toks' := List.flatMap_append

theorem slices_addText (c : Char) (toks : List Token) :
    slices (addText c toks) = c :: slices toks := by
  fun_cases addText c toks <;> rfl

theorem slices_rawToken (s : Text) : slices (rawToken s) = s := by
  unfold rawToken
  split
  · next h => exact (List.isEmpty_iff.1 h).symm
  · exact List.append_nil s

theorem slices_tokens (o : Options) (s : Text) : slices (tokens o s) = s := by
  fun_induction tokens o s with
  | case1 => rfl
  | case2 c s h ih => rw [slices_addText, ih]
  | case3 c s tok rest h name hname split ih =>
    rw [slices_cons, slices_append, slices_rawToken, ih, append_splitAtLetters,
      (eq_append_of_readToken? h).1]
  | case4 c s tok rest h hname ih => rw [slices_cons, ih, (eq_append_of_readToken? h).1]

theorem mem_addText {c : Char} {toks : List Token} {tok : Token} (h : tok ∈ addText c toks) :
    tok ∈ toks ∨ ∃ s, tok = .text (c :: s) := by
  unfold addText at h
  split at h
  · rcases List.mem_cons.1 h with rfl | h
    · exact .inr ⟨_, rfl⟩
    · exact .inl (List.mem_cons_of_mem _ h)
  · rcases List.mem_cons.1 h with rfl | h
    · exact .inr ⟨_, rfl⟩
    · exact .inl h

/-- What holds of text, of raw bodies and of every token that is read holds of the tokens of a text. -/
theorem of_mem_tokens {P : Token → Prop} (htext : ∀ c s, P (.text (c :: s)))
    (hraw : ∀ s, s ≠ [] → P (.raw s))
    (hread : ∀ {s rest tok}, readToken? s = some (tok, rest) → P tok) {o : Options} {s : Text}
    {tok : Token} (h : tok ∈ tokens o s) : P tok := by
  fun_induction tokens o s with
  | case1 => cases h
  | case2 c s hnone ih =>
    rcases mem_addText h with h | ⟨t, rfl⟩
    · exact ih h
    · exact htext c t
  | case3 c s first rest hfirst name hname split ih =>
    rcases List.mem_cons.1 h with rfl | h
    · exact hread hfirst
    rcases List.mem_append.1 h with h | h
    · unfold rawToken at h
      split at h
      · cases h
      · next hbody =>
        rw [List.mem_singleton.1 h]
        exact hraw _ (by simpa using hbody)
    · exact ih h
  | case4 c s first rest hfirst hname ih =>
    rcases List.mem_cons.1 h with rfl | h
    · exact hread hfirst
    · exact ih h

theorem slice_ne_nil_of_mem_tokens {o : Options} {s : Text} {tok : Token} (h : tok ∈ tokens o s) :
    tok.slice ≠ [] :=
  of_mem_tokens (fun c s => List.cons_ne_nil c s) (fun _ hs => hs)
    (fun hread => (eq_append_of_readToken? hread).2) h

end PatternBridge.Markup
