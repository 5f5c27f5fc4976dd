import PatternBridge.Proofs.Markup.Cells

/-! Reading the first part of a text as cells, with the rest still to be read, and what may change in
the rest without a change of what is read before it. -/

namespace PatternBridge.Markup
open Text

variable {o : Options} {a b x y y' z w w' : Text} {T T' : List Token}

/-- In front of `b`, the text `a` is read as the cells `T`. -/
inductive Reads (o : Options) : Text → Text → List Token → Prop
  | nil (b : Text) : Reads o [] b []
  | gap {w a b : Text} {T : List Token} (hw : ∀ c ∈ w, isAsciiBlank c) (hne : w ≠ [])
      (hhead : ∀ c ∈ (a ++ b).head?, isAsciiBlank c = false) (h : Reads o a b T) :
      Reads o (w ++ a) b (.text w :: T)
  | char {c : Char} {a b : Text} {T : List Token} (hc : isAsciiBlank c = false)
      (hread : readToken? (c :: (a ++ b)) = none) (h : Reads o a b T) :
      Reads o (c :: a) b (.text [c] :: T)
  | token {tok : Token} {a b : Text} {T : List Token}
      (hread : readToken? (tok.slice ++ (a ++ b)) = some (tok, a ++ b)) (hclosed : tok.Closed)
      (hraw : tok.opensRaw o = none) (h : Reads o a b T) : Reads o (tok.slice ++ a) b (tok :: T)
  | raw {tok : Token} {name body a b : Text} {T : List Token}
      (hread : readToken? (tok.slice ++ (body ++ (a ++ b))) = some (tok, body ++ (a ++ b)))
      (hraw : tok.opensRaw o = some name)
      (hsplit : splitAtLetters ("</" ++ name) (body ++ (a ++ b)) = (body, a ++ b))
      (h : Reads o a b T) : Reads o (tok.slice ++ (body ++ a)) b (tok :: (rawToken body ++ T))

theorem Reads.cells_eq (h : Reads o a b T) : cells o (a ++ b) = T ++ cells o b := by
  induction h with
  | nil b => rfl
  | gap hw hne hhead _ ih =>
    rw [List.append_assoc, cells_blank_append hw hne hhead, ih]
    rfl
  | char hc hread _ ih =>
    rw [List.cons_append, cells_cons hread, addCell_of_not_blank hc, ih]
    rfl
  | token hread _ hraw _ ih =>
    rw [List.append_assoc, cells_token hread hraw, ih]
    rfl
  | raw hread hraw hsplit _ ih =>
    rw [List.append_assoc, List.append_assoc, cells_raw hread hraw hsplit, ih, List.cons_append,
      List.append_assoc]

theorem Reads.append (h : Reads o a (x ++ b) T) (h' : Reads o x b T') :
    Reads o (a ++ x) b (T ++ T') := by
  generalize hb : x ++ b = b' at h
  induction h with
  | nil => exact h'
  | gap hw hne hhead _ ih =>
    subst hb
    rw [List.append_assoc]
    exact .gap hw hne (by rwa [List.append_assoc]) (ih rfl)
  | char hc hread _ ih =>
    subst hb
    rw [List.cons_append]
    exact .char hc (by rwa [List.append_assoc]) (ih rfl)
  | token hread hclosed hraw _ ih =>
    subst hb
    rw [List.append_assoc]
    exact .token (by rwa [List.append_assoc]) hclosed hraw (ih rfl)
  | raw hread hraw hsplit _ ih =>
    subst hb
    rw [List.append_assoc, List.append_assoc, List.cons_append, List.append_assoc]
    exact .raw (by rwa [List.append_assoc]) hraw (by rwa [List.append_assoc]) (ih rfl)

/-- Behind `a`, the rest of the text may become `y'` where it was `y`. -/
structure Alters (a y y' : Text) : Prop where
  token : ∀ x, x <:+ a → x ≠ [] → CarriedToken x y y' (readToken? (x ++ y)) (readToken? (x ++ y'))
  letters : ∀ x, x <:+ a → x ≠ [] → ∀ name, (∀ c ∈ name, isNameChar c) →
    startsWithLetters ("</" ++ name) (x ++ y') = startsWithLetters ("</" ++ name) (x ++ y)

theorem CarriedToken.refl (x y : Text) (result : Option (Token × Text)) :
    CarriedToken x y y result result := ⟨id, fun _ _ _ _ h => h⟩

namespace Alters

theorem refl (a y : Text) : Alters a y y := ⟨fun _ _ _ => .refl _ _ _, fun _ _ _ _ _ => rfl⟩

theorem trans {y'' : Text} (h : Alters a y y') (h' : Alters a y' y'') : Alters a y y'' where
  token := fun x hx hne =>
    ⟨fun hnone => (h'.token x hx hne).1 ((h.token x hx hne).1 hnone), fun tok x' hx' hclosed hsome =>
      (h'.token x hx hne).2 tok x' hx' hclosed ((h.token x hx hne).2 tok x' hx' hclosed hsome)⟩
  letters := fun x hx hne name hname => (h'.letters x hx hne name hname).trans
    (h.letters x hx hne name hname)

theorem suffix (h : Alters a y y') (hx : x <:+ a) : Alters x y y' :=
  ⟨fun _ hx' => h.token _ (hx'.trans hx), fun _ hx' => h.letters _ (hx'.trans hx)⟩

theorem append (h : Alters (a ++ z) y y') : Alters a (z ++ y) (z ++ y') where
  token := fun x hx hne => by
    have hsuffix : x ++ z <:+ a ++ z := by
      obtain ⟨front, rfl⟩ := hx
      exact ⟨front, (List.append_assoc front x z).symm⟩
    have htoken := h.token (x ++ z) hsuffix (by simp [hne])
    rw [List.append_assoc, List.append_assoc] at htoken
    refine ⟨htoken.1, fun tok x' hx' hclosed hsome => ?_⟩
    have hread := htoken.2 tok (x' ++ z) (by rw [hx', List.append_assoc]) hclosed
      (by rw [hsome, List.append_assoc])
    rw [hread, List.append_assoc]
  letters := fun x hx hne name hname => by
    have hsuffix : x ++ z <:+ a ++ z := by
      obtain ⟨front, rfl⟩ := hx
      exact ⟨front, (List.append_assoc front x z).symm⟩
    have hletters := h.letters (x ++ z) hsuffix (by simp [hne]) name hname
    rwa [List.append_assoc, List.append_assoc] at hletters

end Alters

theorem isCloseChar_of_isBlank {c : Char} (h : isBlank c) : isCloseChar c = false := by
  have hlt : c ≠ '<' := by
    rintro rfl
    exact absurd h (by decide)
  have hslash : c ≠ '/' := by
    rintro rfl
    exact absurd h (by decide)
  simp [isCloseChar, hlt, hslash, isNameChar_of_isBlank h]

theorem startsWithLetters_blank_cons {name : Text} {c : Char} (hc : isBlank c) (s : Text) :
    startsWithLetters ("</" ++ name) (c :: s) = false := by
  rw [Bool.eq_false_iff, ne_eq, startsWithLetters_iff]
  intro h
  have hfirst : '<' = c.toLower := (List.cons_prefix_cons.1 h).1
  have hclose : isCloseChar c.toLower := by rw [← hfirst]; decide
  have hchar := isCloseChar_toLower hclose
  rw [isCloseChar_of_isBlank hc] at hchar
  cases hchar

theorem Parted.startsWithLetters_append {name : Text} (h : Parted x y) (hne : x ≠ [])
    (hname : ∀ c ∈ name, isNameChar c) (hlength : x.length < ("</" ++ name).length) :
    startsWithLetters ("</" ++ name) (x ++ y) = false := by
  refine Markup.startsWithLetters_append hname hlength hne (h.imp (fun hy d hd => ?_) fun hx c hc => ?_)
  · rcases hy d hd with hblank | rfl | rfl
    · exact .inr (isCloseChar_of_isBlank hblank)
    · exact .inl rfl
    · exact .inr (by decide)
  · rcases hx c hc with rfl | rfl <;> decide

theorem Slack.alters (h : Slack a w w' b) (hw : Blank w) (hw' : Blank w') :
    Alters a (w ++ b) (w' ++ b) where
  token := fun x hx hne => carried_readToken? h hw hw' hx hne
  letters := fun x hx hne name hname => by
    obtain ⟨hpart, hpart'⟩ := h.parted hw hw' hx hne
    by_cases hlength : ("</" ++ name).length ≤ x.length
    · unfold startsWithLetters
      rw [List.take_append_of_le_length hlength, List.take_append_of_le_length hlength]
    · have hlt := Nat.lt_of_not_le hlength
      rw [hpart.startsWithLetters_append hne hname hlt, hpart'.startsWithLetters_append hne hname hlt]

/-- The last cell ends where it ends, whatever follows. -/
def Settled (o : Options) (T : List Token) : Prop :=
  ∀ tok ∈ T.getLast?, tok.opensRaw o = none ∧ (∀ s, tok ≠ .raw s) ∧
    ∀ s, tok = .text s → ∃ c ∈ s, isAsciiBlank c = false

theorem Settled.of_append (h : Settled o (T ++ T')) : Settled o T' := by
  intro tok htok
  apply h
  rw [List.getLast?_append, Option.mem_def.1 htok]
  rfl

theorem Settled.append (h : Settled o T') (hne : T' ≠ []) : Settled o (T ++ T') := by
  intro tok htok
  obtain ⟨last, hlast⟩ := Option.ne_none_iff_exists'.1 (mt List.getLast?_eq_none_iff.1 hne)
  rw [List.getLast?_append, hlast] at htok
  exact h tok (hlast.trans htok)

theorem exists_opening_of_opensRaw {tok : Token} {name : Text} (h : tok.opensRaw o = some name) :
    ∃ s, tok = .opening name s := by
  cases tok with
  | opening n s =>
    unfold Token.opensRaw at h
    dsimp only at h
    split at h
    · exact ⟨s, by rw [Option.some.inj h]⟩
    · cases h
  | _ => cases h

theorem name_of_readToken? {s rest name slice : Text}
    (h : readToken? s = some (.opening name slice, rest)) : ∀ c ∈ name, isNameChar c := by
  generalize htok : Token.opening name slice = tok at h
  cases tokenAt_of_readToken? h with
  | tag => cases htok
  | comment => cases htok
  | unended => cases htok
  | element =>
    unfold elementToken at htok
    split at htok
    · cases htok
    split at htok
    · cases htok
    · intro d hd
      rw [(Token.opening.inj htok).1] at hd
      obtain ⟨e, he, rfl⟩ := List.mem_map.1 hd
      exact isNameChar_toLower (List.mem_takeWhile_imp he)

theorem Alters.splitAtLetters {name body : Text} (h : Alters (body ++ x) y y') (hx : x ≠ [])
    (hname : ∀ c ∈ name, isNameChar c)
    (hsplit : splitAtLetters ("</" ++ name) (body ++ (x ++ y)) = (body, x ++ y)) :
    splitAtLetters ("</" ++ name) (body ++ (x ++ y')) = (body, x ++ y') := by
  obtain ⟨-, htail, hbody⟩ := of_splitAtLetters hsplit
  refine splitAtLetters_append (.inr ?_) fun i hi => ?_
  · rw [h.letters x (List.suffix_append body x) hx name hname]
    exact htail.resolve_left (by simp [hx])
  · have hdrop (t : Text) : (body ++ (x ++ t)).drop i = body.drop i ++ x ++ t := by
      rw [List.drop_append_of_le_length (Nat.le_of_lt hi), List.append_assoc]
    have hsuffix : body.drop i ++ x <:+ body ++ x := by
      obtain ⟨front, hfront⟩ := List.drop_suffix i body
      exact ⟨front, by rw [← List.append_assoc, hfront]⟩
    have hi' := hbody i hi
    rw [hdrop] at hi' ⊢
    rw [h.letters _ hsuffix (by simp [hx]) name hname, hi']

theorem Reads.eq_nil (h : Reads o [] b T) : T = [] := by
  generalize ha : ([] : Text) = a at h
  cases h with
  | nil => rfl
  | gap hw hne =>
    exact absurd (List.append_eq_nil_iff.1 ha.symm).1 hne
  | char => cases ha
  | token hread =>
    exact absurd (List.append_eq_nil_iff.1 ha.symm).1 (eq_append_of_readToken? hread).2
  | raw hread =>
    exact absurd (List.append_eq_nil_iff.1 ha.symm).1 (eq_append_of_readToken? hread).2

/-- What follows may change where it does not change what is read in front of it. -/
theorem Reads.alter (h : Reads o a (z ++ y) T) (hy : Alters (a ++ z) y y')
    (hsettled : z = [] → Settled o T) : Reads o a (z ++ y') T := by
  generalize hb : z ++ y = b at h
  induction h with
  | nil => exact .nil _
  | @gap w a b T hw hne hhead htail ih =>
    subst hb
    rw [List.append_assoc] at hy
    have hrest := ih (hy.suffix (List.suffix_append _ _))
      (fun hz => (hsettled hz).of_append (T := [.text w])) rfl
    refine .gap hw hne ?_ hrest
    cases a with
    | cons c a => exact hhead
    | nil =>
      cases z with
      | cons c z => exact hhead
      | nil =>
        -- the gap would be the last cell
        obtain rfl := htail.eq_nil
        obtain ⟨-, -, htext⟩ := hsettled rfl (.text w) rfl
        obtain ⟨c, hc, hblank⟩ := htext w rfl
        rw [hw c hc] at hblank
        cases hblank
  | @char c a b T hc hread _ ih =>
    subst hb
    have hrest := ih (hy.suffix (List.suffix_cons c (a ++ z)))
      (fun hz => (hsettled hz).of_append (T := [.text [c]])) rfl
    refine .char hc ?_ hrest
    have htoken := (hy.token (c :: a ++ z) List.suffix_rfl (by simp)).1
    rw [List.append_assoc, List.append_assoc] at htoken
    exact htoken hread
  | @token tok a b T hread hclosed hraw _ ih =>
    subst hb
    rw [List.append_assoc] at hy
    have hrest := ih (hy.suffix (List.suffix_append _ _))
      (fun hz => (hsettled hz).of_append (T := [tok])) rfl
    refine .token ?_ hclosed hraw hrest
    have hne : tok.slice ++ (a ++ z) ≠ [] := by simp [(eq_append_of_readToken? hread).2]
    have htoken := (hy.token _ List.suffix_rfl hne).2 tok (a ++ z) rfl hclosed
    simp only [List.append_assoc] at htoken
    exact htoken hread
  | @raw tok name body a b T hread hraw hsplit htail ih =>
    subst hb
    rw [List.append_assoc, List.append_assoc] at hy
    have hbody := hy.suffix (List.suffix_append tok.slice (body ++ (a ++ z)))
    have hrest := ih (hbody.suffix (List.suffix_append body (a ++ z)))
      (fun hz => (hsettled hz).of_append (T := tok :: rawToken body)) rfl
    have hne : tok.slice ++ (body ++ (a ++ z)) ≠ [] := by simp [(eq_append_of_readToken? hread).2]
    obtain ⟨slice, rfl⟩ := exists_opening_of_opensRaw hraw
    have htoken := (hy.token _ List.suffix_rfl hne).2 _ (body ++ (a ++ z)) rfl trivial
    simp only [List.append_assoc] at htoken
    have haz : a ++ z ≠ [] := by
      intro hnil
      obtain ⟨rfl, rfl⟩ := List.append_eq_nil_iff.1 hnil
      obtain rfl := htail.eq_nil
      have hlast := hsettled rfl
      unfold rawToken at hlast
      split at hlast
      · have hopens := (hlast (.opening name slice) rfl).1
        rw [hraw] at hopens
        cases hopens
      · exact (hlast _ rfl).2.1 body rfl
    have hsplit' := hbody.splitAtLetters haz (name_of_readToken? hread)
      (by rw [List.append_assoc]; exact hsplit)
    rw [List.append_assoc] at hsplit'
    exact .raw (htoken hread) hraw hsplit' hrest

end PatternBridge.Markup
