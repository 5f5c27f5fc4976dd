import PatternBridge.Markup.Options
import PatternBridge.Markup.Token

/-!
Splitting markup into tokens. Reading a token splits the text into the token's slice and the rest,
so no character is lost.
-/

namespace PatternBridge.Markup

open Text

def putBefore (a : Text) (split : Text × Text) : Text × Text := (a ++ split.1, split.2)

/--
The rest of an element tag up to and with its closing angle bracket, and the text after it. Quoted
values and embedded template tags may hold angle brackets; `quote` is the quote that is open.
-/
def tagRest? (quote : Option Char) (s : Text) : Option (Text × Text) :=
  match s with
  | [] => none
  | c :: s =>
    match quote with
    | some q => (tagRest? (if c == q then none else some q) s).map (putBefore [c])
    | none =>
      if c == '"' || c == '\'' then (tagRest? (some c) s).map (putBefore [c])
      else if c == '>' then some ([c], s)
      else if c == '{' && s.head? == some '{' then
        match _h : through? "\x7d\x7d" (c :: s) with
        | some (skipped, rest) => (tagRest? none rest).map (putBefore skipped)
        | none => (tagRest? none s).map (putBefore [c])
      else (tagRest? none s).map (putBefore [c])
termination_by s.length
decreasing_by
  all_goals try simp
  have h₁ := congrArg List.length (eq_append_of_through? _h)
  have h₂ := length_of_through? _h
  simp at h₁ h₂ ⊢
  omega

def isNameChar (c : Char) : Bool := c.isAlphanum || c == '-' || c == ':'

def elementToken (closes : Bool) (name slice : Text) : Token :=
  if closes then .closing name slice
  else if voidNames.contains name || endsWith slice "/>" then .void name slice
  else .opening name slice

/-- An element tag after its first character; its name must start with a letter. -/
def readElement? : Text → Option (Token × Text)
  | [] => none
  | c :: s =>
    let closes := s.head? == some '/'
    let name := (if closes then s.tail else s).takeWhile isNameChar
    if name.head?.any Char.isAlpha then
      (tagRest? none s).map fun (a, rest) => (elementToken closes (lower name) (c :: a), rest)
    else none

/-- A template tag: a comment with dashes, a triple tag or a double tag, each up to its own end. -/
def readTag? (s : Text) : Option (Token × Text) :=
  let ending : Text :=
    if "\x7b\x7b!--".toList.isPrefixOf s then "--\x7d\x7d"
    else if "\x7b\x7b\x7b".toList.isPrefixOf s then "\x7d\x7d\x7d"
    else "\x7d\x7d"
  (through? ending s).map fun (slice, rest) => (.tag (.ofSlice slice) slice, rest)

/-- The token at the start of the text, if it is not plain text. A comment without an end takes all
that is left. -/
def readToken? (s : Text) : Option (Token × Text) :=
  if "\x7b\x7b".toList.isPrefixOf s then readTag? s
  else if s.head? != some '<' then none
  else if "<!--".toList.isPrefixOf s then
    match through? "-->" s with
    | some (slice, rest) => some (.comment slice, rest)
    | none => some (.comment s, [])
  else if "<!".toList.isPrefixOf s || "<?".toList.isPrefixOf s then
    (through? ">" s).map fun (slice, rest) => (.comment slice, rest)
  else readElement? s

/-- The text before the first occurrence of `mark` in any case, and the text from there on. -/
def splitAtLetters (mark : Text) : Text → Text × Text
  | [] => ([], [])
  | c :: s =>
    if sameLetters mark ((c :: s).take mark.length) then ([], c :: s)
    else let (a, b) := splitAtLetters mark s; (c :: a, b)

/-- Whether the token opens an element whose content is not read as markup. -/
def Token.opensRaw (o : Options) : Token → Option Text
  | .opening name _ => if o.isUnformatted name || o.isContentUnformatted name then some name else none
  | _ => none

def rawToken (s : Text) : List Token := if s.isEmpty then [] else [.raw s]

theorem eq_append_of_tagRest? {quote : Option Char} {s a b : Text}
    (h : tagRest? quote s = some (a, b)) : s = a ++ b := by
  fun_induction tagRest? quote s generalizing a with
  | case1 => simp at h
  | case2 _ _ _ ih | case3 _ _ _ ih | case6 _ _ _ _ _ _ ih | case7 _ _ _ _ _ ih =>
    simp only [putBefore, Option.map_eq_some_iff, Prod.mk.injEq] at h
    obtain ⟨⟨x, y⟩, hx, rfl, rfl⟩ := h
    simp [ih hx]
  | case4 =>
    simp only [Option.some.injEq, Prod.mk.injEq] at h
    obtain ⟨rfl, rfl⟩ := h
    rfl
  | case5 _ _ _ _ _ skipped rest hs ih =>
    simp only [putBefore, Option.map_eq_some_iff, Prod.mk.injEq] at h
    obtain ⟨⟨x, y⟩, hx, rfl, rfl⟩ := h
    rw [eq_append_of_through? hs, ih hx, List.append_assoc]

theorem slice_elementToken (closes : Bool) (name slice : Text) :
    (elementToken closes name slice).slice = slice := by
  unfold elementToken
  split
  · rfl
  · split <;> rfl

theorem eq_append_of_readElement? {s rest : Text} {tok : Token}
    (h : readElement? s = some (tok, rest)) : s = tok.slice ++ rest ∧ tok.slice ≠ [] := by
  cases s with
  | nil => simp [readElement?] at h
  | cons c s =>
    simp only [readElement?, Option.ite_none_right_eq_some, Option.map_eq_some_iff,
      Prod.mk.injEq] at h
    obtain ⟨_, ⟨a, b⟩, ha, rfl, rfl⟩ := h
    simp [slice_elementToken, eq_append_of_tagRest? ha]

theorem eq_append_of_readTag? {s rest : Text} {tok : Token}
    (h : readTag? s = some (tok, rest)) : s = tok.slice ++ rest ∧ tok.slice ≠ [] := by
  simp only [readTag?, Option.map_eq_some_iff, Prod.mk.injEq] at h
  obtain ⟨⟨a, b⟩, ha, rfl, rfl⟩ := h
  refine ⟨eq_append_of_through? ha, ?_⟩
  have hl := length_of_through? ha
  rintro (hn : a = [])
  subst hn
  split at hl
  · simp at hl
  · split at hl <;> simp at hl

theorem eq_append_of_readToken? {s rest : Text} {tok : Token}
    (h : readToken? s = some (tok, rest)) : s = tok.slice ++ rest ∧ tok.slice ≠ [] := by
  unfold readToken? at h
  split at h
  · exact eq_append_of_readTag? h
  split at h
  · simp at h
  · next _ hs =>
    have hne : s ≠ [] := by
      rintro rfl
      simp at hs
    split at h
    · split at h
      · next slice rest' ht =>
        simp only [Option.some.injEq, Prod.mk.injEq] at h
        obtain ⟨rfl, rfl⟩ := h
        refine ⟨eq_append_of_through? ht, ?_⟩
        have hl := length_of_through? ht
        rintro (hn : slice = [])
        subst hn
        simp at hl
      · simp only [Option.some.injEq, Prod.mk.injEq] at h
        obtain ⟨rfl, rfl⟩ := h
        simp [Token.slice, hne]
    · split at h
      · simp only [Option.map_eq_some_iff, Prod.mk.injEq] at h
        obtain ⟨⟨a, b⟩, ha, rfl, rfl⟩ := h
        refine ⟨eq_append_of_through? ha, ?_⟩
        have hl := length_of_through? ha
        rintro (hn : a = [])
        subst hn
        simp at hl
      · exact eq_append_of_readElement? h

theorem length_of_readToken? {s rest : Text} {tok : Token}
    (h : readToken? s = some (tok, rest)) : rest.length < s.length := by
  obtain ⟨rfl, hne⟩ := eq_append_of_readToken? h
  have := List.length_pos_iff.2 hne
  simp only [List.length_append]
  omega

theorem append_splitAtLetters (mark s : Text) :
    (splitAtLetters mark s).1 ++ (splitAtLetters mark s).2 = s := by
  induction s with
  | nil => rfl
  | cons c s ih =>
    simp only [splitAtLetters]
    split
    · rfl
    · simp [ih]

theorem length_splitAtLetters_le (mark s : Text) :
    (splitAtLetters mark s).2.length ≤ s.length := by
  have := congrArg List.length (append_splitAtLetters mark s)
  simp only [List.length_append] at this
  omega

/-- The tokens with `c` before them, in the text token at their head if there is one. -/
def addText (c : Char) : List Token → List Token
  | .text s :: rest => .text (c :: s) :: rest
  | toks => .text [c] :: toks

/-- The tokens of the text in order; their slices make up the text. -/
def tokens (o : Options) (s : Text) : List Token :=
  match s with
  | [] => []
  | c :: s =>
    match _h : readToken? (c :: s) with
    | none => addText c (tokens o s)
    | some (tok, rest) =>
      match tok.opensRaw o with
      | some name =>
        let split := splitAtLetters ("</" ++ name) rest
        tok :: (rawToken split.1 ++ tokens o split.2)
      | none => tok :: tokens o rest
termination_by s.length
decreasing_by
  · simp
  · have h₁ := length_of_readToken? _h
    have h₂ := length_splitAtLetters_le ("</" ++ name) rest
    simp at h₁ h₂ ⊢
    omega
  · have h₁ := length_of_readToken? _h
    simpa using h₁

end PatternBridge.Markup
