import PatternBridge.Proofs.Markup.Alike
import PatternBridge.Proofs.Markup.Respacing

/-! Text tokens cut up: each run of white space and each other character is a cell of its own. Where
blank lines are not preserved, the cells are printed as the tokens are. -/

namespace PatternBridge.Markup
open Text

variable {o : Options}

def addCell (c : Char) : List Token → List Token
  | .text (d :: s) :: rest =>
    if isAsciiBlank c && isAsciiBlank d then .text (c :: d :: s) :: rest
    else .text [c] :: .text (d :: s) :: rest
  | cells => .text [c] :: cells

def textCells (s : Text) : List Token := s.foldr addCell []

def cellsOf (toks : List Token) : List Token :=
  toks.flatMap fun
    | .text s => textCells s
    | tok => [tok]

def cells (o : Options) (s : Text) : List Token := cellsOf (tokens o s)

theorem cellsOf_cons {tok : Token} (h : ∀ s, tok ≠ .text s) (toks : List Token) :
    cellsOf (tok :: toks) = tok :: cellsOf toks := by
  cases tok with
  | text s => exact absurd rfl (h s)
  | _ => rfl

theorem cellsOf_text (s : Text) (toks : List Token) :
    cellsOf (.text s :: toks) = textCells s ++ cellsOf toks := rfl

theorem exists_addCell (c : Char) (toks : List Token) :
    ∃ s rest, addCell c toks = .text (c :: s) :: rest := by
  unfold addCell
  split
  · split
    · exact ⟨_, _, rfl⟩
    · exact ⟨_, _, rfl⟩
  · exact ⟨_, _, rfl⟩

theorem addCell_append (c : Char) {toks : List Token} (h : toks ≠ []) (rest : List Token) :
    addCell c (toks ++ rest) = addCell c toks ++ rest := by
  obtain ⟨tok, toks, rfl⟩ := List.exists_cons_of_ne_nil h
  unfold addCell
  rcases tok with (_ | ⟨d, s⟩) | _ | _ | _ | _ | _ | _
  case text.cons =>
    dsimp only [List.cons_append]
    split <;> rfl
  all_goals rfl

theorem textCells_ne_nil {s : Text} (h : s ≠ []) : textCells s ≠ [] := by
  obtain ⟨c, s, rfl⟩ := List.exists_cons_of_ne_nil h
  obtain ⟨t, rest, hcells⟩ := exists_addCell c (textCells s)
  rw [textCells, List.foldr_cons, ← textCells, hcells]
  exact List.cons_ne_nil _ _

theorem cellsOf_addText (c : Char) {toks : List Token} (h : ∀ s, .text s ∈ toks → s ≠ []) :
    cellsOf (addText c toks) = addCell c (cellsOf toks) := by
  cases toks with
  | nil => rfl
  | cons tok toks =>
    cases tok with
    | text s =>
      rw [addText, cellsOf_text, cellsOf_text,
        addCell_append c (textCells_ne_nil (h s List.mem_cons_self))]
      rfl
    | _ => rfl

theorem isMark_elementToken (closes : Bool) (name s : Text) :
    (elementToken closes name s).isMark := by
  unfold elementToken
  split
  · rfl
  · split <;> rfl

theorem isMark_of_readToken? {s rest : Text} {tok : Token} (h : readToken? s = some (tok, rest)) :
    tok.isMark := by
  cases tokenAt_of_readToken? h with
  | tag => rfl
  | comment => rfl
  | unended => rfl
  | element => exact isMark_elementToken _ _ _

theorem text_ne_nil_of_mem_tokens {s t : Text} (h : .text t ∈ tokens o s) : t ≠ [] :=
  slice_ne_nil_of_mem_tokens h

/-! The cells of a text, from its start. -/

@[simp] theorem cells_nil (o : Options) : cells o [] = [] := by
  rw [cells, tokens]
  rfl

theorem cells_cons {c : Char} {s : Text} (h : readToken? (c :: s) = none) :
    cells o (c :: s) = addCell c (cells o s) := by
  have htokens : tokens o (c :: s) = addText c (tokens o s) := by
    rw [tokens]
    split
    · rfl
    · next hsome => rw [h] at hsome; cases hsome
  rw [cells, htokens, cellsOf_addText c fun _ => text_ne_nil_of_mem_tokens, cells]

theorem tokens_of_readToken? {s rest : Text} {tok : Token} (h : readToken? s = some (tok, rest)) :
    tokens o s = tok :: match tok.opensRaw o with
      | some name => rawToken (splitAtLetters ("</" ++ name) rest).1 ++
          tokens o (splitAtLetters ("</" ++ name) rest).2
      | none => tokens o rest := by
  cases s with
  | nil => cases h
  | cons c s =>
    rw [tokens]
    split
    · next hnone => rw [h] at hnone; cases hnone
    · next tok' rest' hsome =>
      obtain ⟨rfl, rfl⟩ := Prod.mk.inj (Option.some.inj (h.symm.trans hsome))
      cases tok.opensRaw o <;> rfl

theorem cells_token {s rest : Text} {tok : Token} (h : readToken? s = some (tok, rest))
    (hraw : tok.opensRaw o = none) : cells o s = tok :: cells o rest := by
  have hmark := isMark_of_readToken? h
  rw [cells, tokens_of_readToken? h, hraw, cellsOf_cons fun t ht => by rw [ht] at hmark; cases hmark]
  rfl

theorem cells_raw {s rest body tail name : Text} {tok : Token}
    (h : readToken? s = some (tok, rest)) (hraw : tok.opensRaw o = some name)
    (hsplit : splitAtLetters ("</" ++ name) rest = (body, tail)) :
    cells o s = tok :: (rawToken body ++ cells o tail) := by
  have hmark := isMark_of_readToken? h
  rw [cells, tokens_of_readToken? h, hraw, cellsOf_cons fun t ht => by rw [ht] at hmark; cases hmark]
  dsimp only
  rw [hsplit]
  unfold rawToken cells
  dsimp only
  split
  · rfl
  · rfl

theorem addCell_of_not_blank {c : Char} (h : isAsciiBlank c = false) (toks : List Token) :
    addCell c toks = .text [c] :: toks := by
  unfold addCell
  split
  · rw [h, Bool.false_and, if_neg Bool.false_ne_true]
  · rfl

theorem readToken?_of_blank {c : Char} (h : isAsciiBlank c) (s : Text) :
    readToken? (c :: s) = none := by
  refine readToken?_of_head? ?_ ?_
  · rintro ⟨rest, hrest⟩
    rw [← (List.cons.inj hrest).1] at h
    exact absurd h (by decide)
  · intro hc
    rw [Option.some.inj hc] at h
    exact absurd h (by decide)

theorem cells_cons_cases {c : Char} {s : Text} (h : isAsciiBlank c = false) :
    cells o (c :: s) = .text [c] :: cells o s ∨
      ∃ tok rest, tok.isMark ∧ cells o (c :: s) = tok :: rest := by
  cases hread : readToken? (c :: s) with
  | none =>
    rw [cells_cons hread, addCell_of_not_blank h]
    exact .inl rfl
  | some split =>
    have hmark := isMark_of_readToken? hread
    refine .inr ⟨split.1, cellsOf (tokens o (c :: s)).tail, hmark, ?_⟩
    rw [cells, tokens_of_readToken? hread, cellsOf_cons fun t ht => by rw [ht] at hmark; cases hmark]
    rfl

theorem addCell_cells {c : Char} {s : Text} (hs : ∀ d ∈ s.head?, isAsciiBlank d = false) :
    addCell c (cells o s) = .text [c] :: cells o s := by
  cases s with
  | nil =>
    rw [cells_nil]
    rfl
  | cons d s =>
    have hd := hs d rfl
    obtain hcells | ⟨tok, rest, hmark, hcells⟩ := cells_cons_cases (o := o) (s := s) hd
    · rw [hcells, addCell, hd, Bool.and_false, if_neg Bool.false_ne_true]
    · rw [hcells]
      cases tok with
      | text t => cases hmark
      | _ => rfl

theorem cells_blank_append {w s : Text} (hw : ∀ c ∈ w, isAsciiBlank c) (hne : w ≠ [])
    (hs : ∀ c ∈ s.head?, isAsciiBlank c = false) : cells o (w ++ s) = .text w :: cells o s := by
  induction w with
  | nil => exact absurd rfl hne
  | cons c w ih =>
    have hc := hw c List.mem_cons_self
    rw [List.cons_append, cells_cons (readToken?_of_blank hc _)]
    cases w with
    | nil => exact addCell_cells hs
    | cons d w =>
      rw [ih (fun c hc => hw c (List.mem_cons_of_mem _ hc)) (List.cons_ne_nil _ _), addCell, hc,
        hw d (by simp)]
      rfl

/-- Text is built of other characters and of white space up to them. -/
theorem text_induction {P : Text → Prop} (nil : P [])
    (char : ∀ c s, isAsciiBlank c = false → P s → P (c :: s))
    (blank : ∀ w s, (∀ c ∈ w, isAsciiBlank c) → w ≠ [] → (∀ c ∈ s.head?, isAsciiBlank c = false) →
      P s → P (w ++ s)) (s : Text) : P s := by
  induction hn : s.length using Nat.strong_induction_on generalizing s with
  | h n ih =>
    cases s with
    | nil => exact nil
    | cons c s =>
      cases hc : isAsciiBlank c with
      | false => exact char c s hc (ih s.length (by simp [← hn]) s rfl)
      | true =>
        have hsplit := List.takeWhile_append_dropWhile (p := isAsciiBlank) (l := c :: s)
        have hdrop : (c :: s).dropWhile isAsciiBlank = s.dropWhile isAsciiBlank := by
          rw [List.dropWhile_cons, if_pos hc]
        have hle := (List.dropWhile_suffix (l := s) isAsciiBlank).length_le
        rw [← hsplit]
        refine blank _ _ (fun d hd => List.mem_takeWhile_imp hd) ?_ ?_ (ih _ ?_ _ rfl)
        · rw [List.takeWhile_cons, if_pos hc]
          exact List.cons_ne_nil _ _
        · intro d hd
          exact Bool.eq_false_iff.2 fun h => by
            have hnot := List.head?_dropWhile_not isAsciiBlank (c :: s)
            rw [Option.mem_def.1 hd] at hnot
            simp [h] at hnot
        · rw [hdrop, ← hn, List.length_cons]
          omega

theorem textCells_cons {c : Char} (h : isAsciiBlank c = false) (s : Text) :
    textCells (c :: s) = .text [c] :: textCells s :=
  addCell_of_not_blank h (textCells s)

theorem textCells_blank_append {w s : Text} (hw : ∀ c ∈ w, isAsciiBlank c) (hne : w ≠ [])
    (hs : ∀ c ∈ s.head?, isAsciiBlank c = false) : textCells (w ++ s) = .text w :: textCells s := by
  induction w with
  | nil => exact absurd rfl hne
  | cons c w ih =>
    have hc := hw c List.mem_cons_self
    have hcons : textCells (c :: w ++ s) = addCell c (textCells (w ++ s)) := rfl
    cases w with
    | nil =>
      cases s with
      | nil => rfl
      | cons d s =>
        have hd := hs d rfl
        rw [hcons, List.nil_append, textCells_cons hd, addCell, hd, Bool.and_false,
          if_neg Bool.false_ne_true]
    | cons d w =>
      rw [hcons, ih (fun c hc => hw c (List.mem_cons_of_mem _ hc)) (List.cons_ne_nil _ _), addCell,
        hc, hw d (by simp)]
      rfl

theorem collapse_cons {c : Char} (h : isAsciiBlank c = false) (s : Text) :
    collapse (c :: s) = c :: collapse s := by
  rw [collapse, collapseFrom, if_neg (by simp [h])]
  rfl

theorem collapse_blank_append {w s : Text} (hw : ∀ c ∈ w, isAsciiBlank c) (hne : w ≠ [])
    (hs : ∀ c ∈ s.head?, isAsciiBlank c = false) : collapse (w ++ s) = ' ' :: collapse s := by
  have hskip {w : Text} (hw : ∀ c ∈ w, isAsciiBlank c) :
      collapseFrom true (w ++ s) = collapse s := by
    induction w with
    | nil =>
      cases s with
      | nil => rfl
      | cons d s =>
        have hd := hs d rfl
        rw [List.nil_append, collapse_cons hd, collapseFrom, if_neg (by simp [hd])]
        rfl
    | cons c w ih =>
      rw [List.cons_append, collapseFrom, if_pos (hw c List.mem_cons_self), if_pos rfl]
      exact ih fun d hd => hw d (List.mem_cons_of_mem _ hd)
  obtain ⟨c, w, rfl⟩ := List.exists_cons_of_ne_nil hne
  rw [collapse, List.cons_append, collapseFrom, if_pos (hw c List.mem_cons_self),
    if_neg Bool.false_ne_true, hskip fun d hd => hw d (List.mem_cons_of_mem _ hd)]

/-! Printing the cells. -/

theorem text_of_all_blank (ho : o.preserveNewlines = false) {s : Text}
    (hs : ∀ c ∈ s, isAsciiBlank c) (p : Page) :
    p.text o s = if p.line.isEmpty then p else p.inline " " := by
  unfold Page.text
  rw [if_pos (List.all_eq_true.2 hs), ho]
  rfl

theorem text_of_not_blank {c : Char} (h : isAsciiBlank c = false) (s : Text) (p : Page) :
    p.text o (c :: s) = p.inline (collapse (c :: s)) := by
  unfold Page.text
  rw [if_neg (by simp [h])]

theorem inline_nil (p : Page) : p.inline [] = p := by
  unfold Page.inline
  rw [List.append_nil]

theorem inline_inline (p : Page) (s t : Text) : (p.inline s).inline t = p.inline (s ++ t) := by
  unfold Page.inline
  rw [List.append_assoc]

theorem printTokens_text (s : Text) (rest : List Token) (p : Page) :
    printTokens o p (.text s :: rest) = printTokens o (p.text o s) rest :=
  printTokens_cons o p (.text s) rest

/-- The page after the cells of some text, white space at the start of a line left out. -/
def Page.flow (p : Page) (s : Text) : Page :=
  if p.line.isEmpty then p.inline (collapse (s.dropWhile isAsciiBlank)) else p.inline (collapse s)

theorem printTokens_textCells (ho : o.preserveNewlines = false) (s : Text) (rest : List Token)
    (p : Page) : printTokens o p (textCells s ++ rest) = printTokens o (p.flow s) rest := by
  induction s using text_induction generalizing p with
  | nil =>
    have hflow : p.flow [] = p := by
      unfold Page.flow
      rw [List.dropWhile_nil, ite_self]
      exact inline_nil p
    rw [hflow]
    rfl
  | char c s hc ih =>
    have hdrop : (c :: s).dropWhile isAsciiBlank = c :: s := by
      rw [List.dropWhile_cons, if_neg (by simp [hc])]
    have hflow : (p.inline [c]).flow s = p.flow (c :: s) := by
      unfold Page.flow
      rw [hdrop, ite_self, if_neg (by simp [Page.inline]), inline_inline, collapse_cons hc]
      rfl
    rw [textCells_cons hc, List.cons_append, printTokens_text, text_of_not_blank hc,
      collapse_cons hc, ih]
    exact congrArg (printTokens o · rest) hflow
  | blank w s hw hne hs ih =>
    have hflow : (p.text o w).flow s = p.flow (w ++ s) := by
      have hdrop : (w ++ s).dropWhile isAsciiBlank = s.dropWhile isAsciiBlank :=
        List.dropWhile_append_of_pos hw
      rw [text_of_all_blank ho hw]
      unfold Page.flow
      rw [hdrop, collapse_blank_append hw hne hs]
      cases hline : p.line.isEmpty with
      | true => simp [hline]
      | false =>
        rw [if_neg Bool.false_ne_true, if_neg Bool.false_ne_true, if_neg (by simp [Page.inline]),
          inline_inline]
        rfl
    rw [textCells_blank_append hw hne hs, List.cons_append, printTokens_text, ih, hflow]

theorem flat_textCells (s : Text) : (textCells s).flatMap Token.flat = collapse s := by
  induction s using text_induction with
  | nil => rfl
  | char c s hc ih =>
    rw [textCells_cons hc, List.flatMap_cons, ih, collapse_cons hc]
    show collapse [c] ++ _ = _
    rw [collapse_cons hc]
    rfl
  | blank w s hw hne hs ih =>
    rw [textCells_blank_append hw hne hs, List.flatMap_cons, ih, collapse_blank_append hw hne hs]
    show collapse w ++ _ = _
    have hcollapse := collapse_blank_append hw hne (s := []) nofun
    rw [List.append_nil] at hcollapse
    rw [hcollapse]
    rfl

theorem alike_flow_text (ho : o.preserveNewlines = false) {s : Text} (hne : s ≠ []) (p : Page) :
    Page.Alike (p.flow s) (p.text o s) := by
  induction s using text_induction with
  | nil => exact absurd rfl hne
  | char c s hc =>
    have hflow : p.flow (c :: s) = p.inline (collapse (c :: s)) := by
      have hdrop : (c :: s).dropWhile isAsciiBlank = c :: s := by
        rw [List.dropWhile_cons, hc, if_neg Bool.false_ne_true]
      unfold Page.flow
      rw [hdrop, ite_self]
    rw [hflow, text_of_not_blank hc]
    exact .refl _
  | blank w s hw hwne hs =>
    have hdrop : (w ++ s).dropWhile isAsciiBlank = s := by
      rw [List.dropWhile_append_of_pos hw]
      cases s with
      | nil => rfl
      | cons d s => rw [List.dropWhile_cons, if_neg (by simp [hs d rfl])]
    have hcollapse := collapse_blank_append hw hwne hs
    unfold Page.flow
    rw [hdrop, hcollapse]
    cases s with
    | nil =>
      rw [List.append_nil, text_of_all_blank ho hw]
      cases p.line.isEmpty with
      | true => exact (inline_nil p).symm ▸ .refl p
      | false => exact .refl _
    | cons d s =>
      have htext : p.text o (w ++ d :: s) = p.inline (' ' :: collapse (d :: s)) := by
        unfold Page.text
        rw [if_neg (by simp [hs d rfl]), hcollapse]
      rw [htext]
      split
      · next hline =>
        have hspace := Page.alike_inline_blank (List.isEmpty_iff.1 hline)
          (show ([' '] : Text).all isAsciiBlank by decide)
        have hinline := hspace.inline (collapse (d :: s))
        rwa [inline_inline] at hinline
      · exact .refl _

theorem keepsBlankLine_eq_false (ho : o.preserveNewlines = false) (tok : Token) :
    keepsBlankLine o tok = false := by
  cases tok with
  | text s => rw [keepsBlankLine, ho, Bool.and_false]
  | _ => rfl

theorem inlineBody?_closing (o : Options) (name s : Text) (rest : List Token) :
    inlineBody? o name (.closing name s :: rest) = some (s, rest) := by
  simp [inlineBody?]

theorem inlineBody?_cons (ho : o.preserveNewlines = false) {name : Text} {tok : Token}
    (hname : ∀ s, tok ≠ .closing name s) (rest : List Token) :
    inlineBody? o name (tok :: rest) =
      if isInlineToken o tok then
        (inlineBody? o name rest).map fun split => (tok.flat ++ split.1, split.2)
      else none := by
  have hcontinued : inlineBody?.continued o name tok rest = if isInlineToken o tok then
      (inlineBody? o name rest).map fun split => (tok.flat ++ split.1, split.2) else none := by
    rw [inlineBody?.continued, keepsBlankLine_eq_false ho, if_neg Bool.false_ne_true]
  rw [← hcontinued]
  unfold inlineBody?
  split
  · next n s =>
    split
    · next hn => exact absurd (by rw [eq_of_beq hn]) (hname s)
    · rfl
  · rfl

theorem inlineBody?_texts (ho : o.preserveNewlines = false) (name : Text) {texts : List Token}
    (htexts : ∀ tok ∈ texts, ∃ s, tok = .text s) (rest : List Token) :
    inlineBody? o name (texts ++ rest) = (inlineBody? o name rest).map fun split =>
      (texts.flatMap Token.flat ++ split.1, split.2) := by
  induction texts with
  | nil => exact Option.map_id'.symm
  | cons tok texts ih =>
    obtain ⟨s, rfl⟩ := htexts tok List.mem_cons_self
    rw [List.cons_append, inlineBody?_cons ho (fun _ h => by cases h),
      ih fun tok htok => htexts tok (List.mem_cons_of_mem _ htok), Option.map_map]
    simp [isInlineToken, Function.comp_def]

theorem exists_of_mem_textCells {s : Text} {tok : Token} (h : tok ∈ textCells s) :
    ∃ t, tok = .text t := by
  induction s using text_induction with
  | nil => cases h
  | char c s hc ih =>
    rw [textCells_cons hc] at h
    exact (List.mem_cons.1 h).elim (fun h => ⟨_, h⟩) ih
  | blank w s hw hne hs ih =>
    rw [textCells_blank_append hw hne hs] at h
    exact (List.mem_cons.1 h).elim (fun h => ⟨_, h⟩) ih

theorem inlineBody?_cellsOf (ho : o.preserveNewlines = false) (name : Text) (toks : List Token) :
    inlineBody? o name (cellsOf toks) =
      (inlineBody? o name toks).map fun split => (split.1, cellsOf split.2) := by
  induction toks with
  | nil => simp [cellsOf, inlineBody?]
  | cons tok toks ih =>
    by_cases htext : ∃ s, tok = .text s
    · obtain ⟨s, rfl⟩ := htext
      rw [cellsOf_text, inlineBody?_texts ho name fun tok => exists_of_mem_textCells, ih,
        flat_textCells, inlineBody?_cons ho (fun _ h => by cases h),
        if_pos (show isInlineToken o (.text s) from rfl), Option.map_map, Option.map_map]
      rfl
    rw [cellsOf_cons fun s hs => htext ⟨s, hs⟩]
    by_cases hclosing : ∃ s, tok = .closing name s
    · obtain ⟨s, rfl⟩ := hclosing
      rw [inlineBody?_closing, inlineBody?_closing]
      rfl
    · have hname : ∀ s, tok ≠ .closing name s := fun s hs => hclosing ⟨s, hs⟩
      rw [inlineBody?_cons ho hname, inlineBody?_cons ho hname, ih]
      split
      · rw [Option.map_map, Option.map_map]
        rfl
      · rfl

theorem cellsOf_cases {toks : List Token} (h : ∀ s, .text s ∈ toks → s ≠ []) :
    toks = [] ∧ cellsOf toks = [] ∨
      (∃ tok rest, toks = tok :: rest ∧ cellsOf toks = tok :: cellsOf rest) ∨
      ∃ s rest s' rest', toks = .text s :: rest ∧ cellsOf toks = .text s' :: rest' := by
  rcases toks with _ | ⟨tok, toks⟩
  · exact .inl ⟨rfl, rfl⟩
  by_cases htext : ∃ s, tok = .text s
  · obtain ⟨s, rfl⟩ := htext
    obtain ⟨c, s, rfl⟩ := List.exists_cons_of_ne_nil (h s List.mem_cons_self)
    obtain ⟨t, rest, hcells⟩ := exists_addCell c (textCells s)
    refine .inr (.inr ⟨c :: s, toks, c :: t, rest ++ cellsOf toks, rfl, ?_⟩)
    exact congrArg (· ++ cellsOf toks) hcells
  · exact .inr (.inl ⟨tok, toks, rfl, cellsOf_cons (fun s hs => htext ⟨s, hs⟩) toks⟩)

theorem verbatim_cellsOf {toks : List Token} (h : ∀ s, .text s ∈ toks → s ≠ []) :
    verbatim (cellsOf toks) = ((verbatim toks).1, cellsOf (verbatim toks).2) := by
  induction toks with
  | nil => rfl
  | cons tok toks ih =>
    have hrest := ih fun s hs => h s (List.mem_cons_of_mem _ hs)
    cases tok with
    | raw s =>
      rw [cellsOf_cons (fun _ h => by cases h)]
      simp only [verbatim, hrest]
    | text s =>
      obtain ⟨hnil, -⟩ | ⟨tok, rest, heq, hcells⟩ | ⟨s', rest, t, rest', heq, hcells⟩ :=
        cellsOf_cases h
      · cases hnil
      · obtain ⟨rfl, rfl⟩ := List.cons.inj heq
        simp only [hcells, verbatim]
      · simp only [hcells, verbatim]
    | _ => rfl

theorem rawBody_cellsOf {toks : List Token} (h : ∀ s, .text s ∈ toks → s ≠ []) :
    rawBody (cellsOf toks) = ((rawBody toks).1, cellsOf (rawBody toks).2) := by
  obtain ⟨rfl, hcells⟩ | ⟨tok, rest, rfl, hcells⟩ | ⟨s, rest, t, rest', rfl, hcells⟩ :=
    cellsOf_cases h
  · rfl
  · cases tok with
    | raw s =>
      rw [hcells]
      rfl
    | _ => simp only [hcells, rawBody]
  · simp only [hcells, rawBody]

theorem closingTag_cellsOf (name : Text) {toks : List Token} (h : ∀ s, .text s ∈ toks → s ≠ []) :
    closingTag name (cellsOf toks) =
      ((closingTag name toks).1, cellsOf (closingTag name toks).2) := by
  obtain ⟨rfl, hcells⟩ | ⟨tok, rest, rfl, hcells⟩ | ⟨s, rest, t, rest', rfl, hcells⟩ :=
    cellsOf_cases h
  · rfl
  · cases tok with
    | closing n s =>
      rw [hcells, closingTag, closingTag]
      split
      · rfl
      · exact Prod.ext rfl hcells.symm
    | _ => simp only [hcells, closingTag]
  · simp only [hcells, closingTag]

theorem suffix_printToken (o : Options) (tok : Token) (rest : List Token) (p : Page) :
    (printToken o tok rest p).2 <:+ rest := by
  cases tok with
  | opening name s =>
    unfold printToken openElement
    dsimp only
    split
    · exact List.suffix_rfl
    split
    · obtain ⟨taken, hrest, -⟩ := takes_verbatim rest
      exact ⟨taken, hrest.symm⟩
    split
    · obtain ⟨body, hbody, -⟩ := exists_append_rawBody rest
      obtain ⟨close, hclose, -⟩ := takes_closingTag name (rawBody rest).2
      exact List.IsSuffix.trans ⟨close, hclose.symm⟩ ⟨body, hbody.symm⟩
    split
    · next hbody =>
      obtain ⟨taken, hrest, -⟩ := takes_inlineBody? hbody
      exact ⟨taken, hrest.symm⟩
    · exact List.suffix_rfl
  | _ => exact List.suffix_rfl

theorem printToken_cellsOf (ho : o.preserveNewlines = false) {tok : Token} {rest : List Token}
    (h : ∀ s, .text s ∈ rest → s ≠ []) (p : Page) :
    printToken o tok (cellsOf rest) p =
      ((printToken o tok rest p).1, cellsOf (printToken o tok rest p).2) := by
  cases tok with
  | opening name s =>
    have hbody : ∀ s, .text s ∈ (rawBody rest).2 → s ≠ [] := by
      intro s hs
      obtain ⟨body, hbody, -⟩ := exists_append_rawBody rest
      exact h s (by rw [hbody]; exact List.mem_append_right _ hs)
    unfold printToken openElement
    dsimp only
    rw [verbatim_cellsOf h, rawBody_cellsOf h, inlineBody?_cellsOf ho]
    dsimp only
    rw [closingTag_cellsOf name hbody]
    split
    · rfl
    split
    · rfl
    split
    · rfl
    · cases inlineBody? o name rest <;> rfl
  | _ => rfl

theorem printTokens_cellsOf (ho : o.preserveNewlines = false) {toks : List Token}
    (h : ∀ s, .text s ∈ toks → s ≠ []) (p : Page) :
    printTokens o p (cellsOf toks) = printTokens o p toks := by
  fun_induction printTokens o p toks with
  | case1 p => rw [cellsOf, List.flatMap_nil, printTokens]
  | case2 p tok rest next ih =>
    have hrest : ∀ s, .text s ∈ rest → s ≠ [] := fun s hs => h s (List.mem_cons_of_mem _ hs)
    have hnext := ih fun s hs => hrest s ((suffix_printToken o tok rest p).subset hs)
    by_cases htext : ∃ s, tok = .text s
    · obtain ⟨s, rfl⟩ := htext
      rw [cellsOf_text, printTokens_textCells ho,
        printTokens_alike ho (alike_flow_text ho (h s List.mem_cons_self) p)]
      exact hnext
    · rw [cellsOf_cons fun s hs => htext ⟨s, hs⟩, printTokens_cons, printToken_cellsOf ho hrest]
      exact hnext

theorem printed_tokens (ho : o.preserveNewlines = false) (s : Text) :
    printed o (tokens o s) = printTokens o {} (cells o s) :=
  (printTokens_cellsOf ho (fun _ => text_ne_nil_of_mem_tokens) {}).symm

end PatternBridge.Markup
