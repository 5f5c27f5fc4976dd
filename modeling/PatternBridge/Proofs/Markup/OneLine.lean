import PatternBridge.Proofs.Markup.Steps

/-! The content of an element on one line: white space in it is one space, and it is read as the
content of one line again. -/

namespace PatternBridge.Markup
open Text

variable {o : Options} {s : Text}

/-- Markup is built of white space, other characters, and tokens with the content that is no markup. -/
theorem markup_induction (o : Options) {P : Text → Prop} (nil : P [])
    (gap : ∀ w v, (∀ c ∈ w, isAsciiBlank c) → w ≠ [] → (∀ c ∈ v.head?, isAsciiBlank c = false) →
      P v → P (w ++ v))
    (char : ∀ c v, isAsciiBlank c = false → readToken? (c :: v) = none → P v → P (c :: v))
    (token : ∀ tok v, readToken? (tok.slice ++ v) = some (tok, v) → tok.opensRaw o = none → P v →
      P (tok.slice ++ v))
    (raw : ∀ tok name body v, readToken? (tok.slice ++ (body ++ v)) = some (tok, body ++ v) →
      tok.opensRaw o = some name → splitAtLetters ("</" ++ name) (body ++ v) = (body, v) → P v →
      P (tok.slice ++ (body ++ v))) (s : Text) : P s := by
  induction hn : s.length using Nat.strong_induction_on generalizing s with
  | h n ih =>
    obtain ⟨w, v, rfl, hw, hv⟩ := exists_blank_append s
    by_cases hne : w = []
    · subst hne
      cases v with
      | nil => exact nil
      | cons c v =>
        rw [List.nil_append] at hn ⊢
        cases hread : readToken? (c :: v) with
        | none => exact char c v (hv c rfl) hread (ih _ (by simp [← hn]) v rfl)
        | some split =>
          obtain ⟨tok, rest⟩ := split
          obtain ⟨hsplit, hslice⟩ := eq_append_of_readToken? hread
          have hlength := congrArg List.length hsplit
          have hpos := List.length_pos_iff.2 hslice
          rw [List.length_append, hn] at hlength
          rw [hsplit] at hread ⊢
          cases hraw : tok.opensRaw o with
          | none => exact token tok rest hread hraw (ih _ (by omega) rest rfl)
          | some name =>
            have happend := append_splitAtLetters ("</" ++ name) rest
            have hle := length_splitAtLetters_le ("</" ++ name) rest
            rw [← happend] at hread ⊢
            exact raw tok name _ _ hread hraw (by rw [happend]) (ih _ (by omega) _ rfl)
    · have hpos := List.length_pos_iff.2 hne
      rw [List.length_append] at hn
      exact gap w v hw hne hv (ih _ (by omega) v rfl)

/-- The line `body` is what the printer makes of `m`, the content of the element up to `rest`. -/
structure OneLine (o : Options) (name body m rest : Text) (taken T : List Token) : Prop where
  cells : cells o (m ++ rest) = taken ++ cells o rest
  alters : ∀ a, Alters a (m ++ rest) (body ++ rest)
  reads : Reads o body rest T
  inline : ∀ K, inlineBody? o name (T ++ K) = some (body, K)
  settled : Settled o T
  ends : ['>'] <:+ body
  head : (∀ c ∈ (m ++ rest).head?, isAsciiBlank c = false) → ∃ c m' body', m = c :: m' ∧
    body = c :: body' ∧ ∀ a, Alters a (m' ++ rest) (body' ++ rest)

namespace OneLine
variable {name body m rest : Text} {taken T : List Token}

theorem ne_nil (h : OneLine o name body m rest taken T) : T ≠ [] := by
  rintro rfl
  have hnil : inlineBody? o name [] = some (body, []) := h.inline []
  rw [inlineBody?] at hnil
  cases hnil

theorem closing (name slice : Text) {rest : Text}
    (hread : readToken? (slice ++ rest) = some (.closing name slice, rest)) :
    OneLine o name slice slice rest [.closing name slice] [.closing name slice] := by
  have hpiece : Reads o slice rest [.closing name slice] := by
    have hread' : readToken? ((Token.closing name slice).slice ++ ([] ++ rest)) =
        some (.closing name slice, [] ++ rest) := hread
    have htoken := Reads.token (o := o) hread' trivial rfl (.nil rest)
    rwa [List.append_nil] at htoken
  refine ⟨cells_token hread rfl, fun a => .refl _ _, hpiece, fun K => inlineBody?_closing o name slice K,
    settled_singleton rfl (fun _ h => by cases h) (fun _ h => by cases h), ?_, fun _ => ?_⟩
  · exact (angles_of_readToken? hread trivial (by simp)).2
  · obtain ⟨c, t, rfl⟩ := List.exists_cons_of_ne_nil (eq_append_of_readToken? hread).2
    exact ⟨c, t, t, rfl, rfl, fun a => .refl _ _⟩

theorem gap (ho : o.Plain) {w : Text} (hw : ∀ c ∈ w, isAsciiBlank c) (hne : w ≠ [])
    (hhead : ∀ c ∈ (m ++ rest).head?, isAsciiBlank c = false)
    (h : OneLine o name body m rest taken T) :
    OneLine o name (' ' :: body) (w ++ m) rest (.text w :: taken) (.text [' '] :: T) := by
  have hspace : ∀ c ∈ [' '], isAsciiBlank c := List.forall_mem_singleton.2 rfl
  obtain ⟨c, m', body', hm, hbody, -⟩ := h.head hhead
  refine ⟨?_, fun a => ?_, ?_, fun K => ?_, h.settled.append (T := [.text [' ']]) h.ne_nil,
    h.ends.trans (List.suffix_cons ' ' body), fun hblank => ?_⟩
  · rw [List.append_assoc, cells_blank_append hw hne hhead, h.cells]
    rfl
  · have hslack : Slack a w [' '] (m ++ rest) := .between hne (List.cons_ne_nil _ _)
    rw [List.append_assoc]
    exact (hslack.alters (blank_of_ascii hw) (blank_of_ascii hspace)).trans (h.alters (a ++ [' '])).append
  · refine .gap (w := [' ']) hspace (List.cons_ne_nil _ _) ?_ h.reads
    rw [hm] at hhead
    rw [hbody]
    exact hhead
  · rw [List.cons_append, inlineBody?_cons ho.newlines (fun _ h => by cases h),
      if_pos (show isInlineToken o (.text [' ']) from rfl), h.inline]
    rfl
  · obtain ⟨d, w, rfl⟩ := List.exists_cons_of_ne_nil hne
    have hd := hblank d rfl
    rw [hw d List.mem_cons_self] at hd
    cases hd

theorem char (ho : o.Plain) {c : Char} (hc : isAsciiBlank c = false)
    (hread : readToken? (c :: (m ++ rest)) = none) (h : OneLine o name body m rest taken T) :
    OneLine o name (c :: body) (c :: m) rest (.text [c] :: taken) (.text [c] :: T) := by
  refine ⟨?_, fun a => (h.alters (a ++ [c])).append (z := [c]), ?_, fun K => ?_,
    h.settled.append (T := [.text [c]]) h.ne_nil, h.ends.trans (List.suffix_cons c body),
    fun _ => ⟨c, m, body, rfl, rfl, h.alters⟩⟩
  · rw [List.cons_append, cells_cons hread, addCell_of_not_blank hc, h.cells]
    rfl
  · exact .char hc (((h.alters [c]).token [c] List.suffix_rfl (List.cons_ne_nil _ _)).1 hread) h.reads
  · rw [List.cons_append, inlineBody?_cons ho.newlines (fun _ h => by cases h),
      if_pos (show isInlineToken o (.text [c]) from rfl), h.inline]
    show some (collapse [c] ++ body, K) = _
    rw [collapse_cons hc]
    rfl

theorem startsWithLetters {n : Text} (h : OneLine o name body m rest taken T)
    (hn : ∀ c ∈ n, isNameChar c)
    (hstart : m ++ rest = [] ∨ startsWithLetters ("</" ++ n) (m ++ rest)) :
    startsWithLetters ("</" ++ n) (body ++ rest) := by
  have hhead : ∀ c ∈ (m ++ rest).head?, isAsciiBlank c = false := by
    intro c hc
    obtain ⟨t, ht⟩ := List.head?_eq_some_iff.1 hc
    rw [Bool.eq_false_iff]
    intro hblank
    rcases hstart with hnil | hstart
    · rw [hnil] at hc
      cases hc
    · rw [ht, startsWithLetters_blank_cons (isBlank_of_isAsciiBlank hblank)] at hstart
      cases hstart
  obtain ⟨c, m', body', rfl, rfl, halters⟩ := h.head hhead
  have hletters := (halters [c]).letters [c] List.suffix_rfl (List.cons_ne_nil _ _) n hn
  rw [List.singleton_append, List.singleton_append] at hletters
  exact hletters.trans (hstart.resolve_left (by simp))

theorem token (ho : o.Plain) {tok : Token} (hinline : isInlineToken o tok)
    (hname : ∀ s, tok ≠ .closing name s)
    (hread : readToken? (tok.slice ++ (m ++ rest)) = some (tok, m ++ rest))
    (hraw : ∀ n ∈ tok.opensRaw o, (∀ c ∈ n, isNameChar c) ∧ splitAtLetters ("</" ++ n) (m ++ rest) = ([], m ++ rest))
    (h : OneLine o name body m rest taken T) :
    OneLine o name (tok.slice ++ body) (tok.slice ++ m) rest (tok :: taken) (tok :: T) := by
  obtain ⟨-, htext⟩ := ne_of_isMark (isMark_of_readToken? hread)
  have hclosed : tok.Closed := by
    cases tok with
    | comment s => cases hinline
    | _ => trivial
  have hread' : readToken? (tok.slice ++ (body ++ rest)) = some (tok, body ++ rest) :=
    ((h.alters tok.slice).token tok.slice List.suffix_rfl (eq_append_of_readToken? hread).2).2 tok []
      (List.append_nil _).symm hclosed hread
  refine ⟨?_, fun a => ?_, ?_, fun K => ?_, h.settled.append (T := [tok]) h.ne_nil,
    h.ends.trans (List.suffix_append _ body), fun _ => ?_⟩
  · rw [List.append_assoc]
    cases hopens : tok.opensRaw o with
    | none => rw [cells_token hread hopens, h.cells]; rfl
    | some n => rw [cells_raw hread hopens (hraw n hopens).2, h.cells]; rfl
  · rw [List.append_assoc, List.append_assoc]
    exact (h.alters (a ++ tok.slice)).append
  · cases hopens : tok.opensRaw o with
    | none => exact .token hread' hclosed hopens h.reads
    | some n =>
      obtain ⟨hn, hsplit⟩ := hraw n hopens
      have hstarts := h.startsWithLetters hn (of_splitAtLetters hsplit).2.1
      have hread'' : readToken? (tok.slice ++ ([] ++ (body ++ rest))) =
          some (tok, [] ++ (body ++ rest)) := hread'
      exact .raw hread'' hopens
        (splitAtLetters_append (.inr hstarts) fun i hi => absurd hi (Nat.not_lt_zero i)) h.reads
  · rw [List.cons_append, inlineBody?_cons ho.newlines hname, if_pos hinline, h.inline]
    cases tok with
    | text s => exact absurd rfl (htext s)
    | _ => rfl
  · obtain ⟨c, t, hslice⟩ := List.exists_cons_of_ne_nil (eq_append_of_readToken? hread).2
    refine ⟨c, t ++ m, t ++ body, by rw [hslice]; rfl, by rw [hslice]; rfl, fun a => ?_⟩
    rw [List.append_assoc, List.append_assoc]
    exact (h.alters (a ++ t)).append

end OneLine

theorem flat_of_isMark {tok : Token} (h : tok.isMark) : tok.flat = tok.slice := by
  cases tok with
  | text s => cases h
  | _ => rfl

/-- Content that is printed on one line is read as the content of one line again. -/
theorem exists_oneLine (ho : o.Plain) {name body : Text} {after : List Token}
    (h : inlineBody? o name (cells o s) = some (body, after)) :
    ∃ m rest taken T, s = m ++ rest ∧ after = cells o rest ∧ OneLine o name body m rest taken T := by
  induction s using markup_induction o generalizing body with
  | nil =>
    rw [cells_nil, inlineBody?] at h
    cases h
  | gap w v hw hne hv ih =>
    rw [cells_blank_append hw hne hv] at h
    obtain ⟨heq, -⟩ | ⟨-, b, hb, rfl⟩ := inlineBody?_cons_eq_some h
    · cases heq
    obtain ⟨m, rest, taken, T, rfl, hafter, hline⟩ := ih hb
    have hcollapse := collapse_blank_append hw hne (s := []) (fun _ h => by cases h)
    rw [List.append_nil] at hcollapse
    have hflat : (Token.text w).flat ++ b = ' ' :: b := by
      rw [Token.flat, hcollapse]
      rfl
    rw [hflat]
    exact ⟨w ++ m, rest, _, _, (List.append_assoc w m rest).symm, hafter, hline.gap ho hw hne hv⟩
  | char c v hc hread ih =>
    rw [cells_cons hread, addCell_of_not_blank hc] at h
    obtain ⟨heq, -⟩ | ⟨-, b, hb, rfl⟩ := inlineBody?_cons_eq_some h
    · cases heq
    obtain ⟨m, rest, taken, T, rfl, hafter, hline⟩ := ih hb
    have hflat : (Token.text [c]).flat ++ b = c :: b := by
      rw [Token.flat, collapse_cons hc]
      rfl
    rw [hflat]
    exact ⟨c :: m, rest, _, _, rfl, hafter, hline.char ho hc hread⟩
  | token tok v hread hraw ih =>
    rw [cells_token hread hraw] at h
    by_cases hclosing : ∃ slice, tok = .closing name slice
    · obtain ⟨slice, rfl⟩ := hclosing
      rw [inlineBody?_closing] at h
      obtain ⟨rfl, rfl⟩ := Prod.mk.inj (Option.some.inj h)
      exact ⟨slice, v, _, _, rfl, rfl, .closing name slice hread⟩
    · have hname : ∀ slice, tok ≠ .closing name slice := fun slice hs => hclosing ⟨slice, hs⟩
      obtain ⟨heq, -⟩ | ⟨hinline, b, hb, rfl⟩ := inlineBody?_cons_eq_some h
      · exact absurd heq (hname _)
      obtain ⟨m, rest, taken, T, rfl, hafter, hline⟩ := ih hb
      rw [flat_of_isMark (isMark_of_readToken? hread)]
      exact ⟨tok.slice ++ m, rest, _, _, (List.append_assoc _ m rest).symm, hafter,
        hline.token ho hinline hname hread fun n hn => by rw [hraw] at hn; cases hn⟩
  | raw tok n content v hread hraw hsplit ih =>
    obtain ⟨slice, rfl⟩ := exists_opening_of_opensRaw hraw
    rw [cells_raw hread hraw hsplit] at h
    obtain ⟨heq, -⟩ | ⟨hinline, b, hb, rfl⟩ := inlineBody?_cons_eq_some h
    · cases heq
    -- content that is no markup is not printed on one line
    have hnone : content = [] := by
      unfold rawToken at hb
      split at hb
      · next hempty => exact List.isEmpty_iff.1 hempty
      · obtain ⟨heq, -⟩ | ⟨hinline, -⟩ := inlineBody?_cons_eq_some hb
        · cases heq
        · cases hinline
    subst hnone
    obtain ⟨m, rest, taken, T, rfl, hafter, hline⟩ := ih hb
    refine ⟨slice ++ m, rest, _, _, (List.append_assoc slice m rest).symm, hafter,
      hline.token ho hinline (fun _ h => by cases h) hread fun n' hn' => ?_⟩
    obtain rfl : n = n' := Option.some.inj (hraw.symm.trans hn')
    exact ⟨name_of_readToken? hread, hsplit⟩

end PatternBridge.Markup
