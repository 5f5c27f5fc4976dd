import PatternBridge.Text.Blank

/-!
White space inside the opener of a block tag. The printer knows a block only by a name directly
behind its control character, so the name is moved there, and a marker after the white space records
the move.
-/

namespace PatternBridge.Markup

/-- The no-break space, which marks the end of moved white space. -/
def marker : Char := '\u00a0'

def isControl (c : Char) : Bool := c == '#' || c == '^' || c == '/'

/-- Characters of a name: neither white space nor a closing brace. -/
def isTagNameChar (c : Char) : Bool := !Text.isBlank c && c != '}'

def isGapChar (c : Char) : Bool := Text.isBlank c && c != marker

def blockOpener? : Text → Option (Text × Text)
  | '{' :: '{' :: c :: s => if isControl c then some (['{', '{', c], s) else none
  | _ => none

/-- An opener whose name stands behind white space, with the name moved forward and the marker behind
the white space, and the text after it. -/
def protectTag? (s : Text) : Option (Text × Text) :=
  (blockOpener? s).bind fun (opener, t) =>
    let gap := t.takeWhile Text.isBlank
    let afterGap := t.dropWhile Text.isBlank
    let name := afterGap.takeWhile isTagNameChar
    if gap.isEmpty || name.isEmpty then none
    else some (opener ++ name ++ gap ++ [marker], afterGap.dropWhile isTagNameChar)

/-- An opener with a moved name, with the name moved back and the marker dropped, and the text after
it. -/
def restoreTag? (s : Text) : Option (Text × Text) :=
  (blockOpener? s).bind fun (opener, t) =>
    let name := t.takeWhile isTagNameChar
    let afterName := t.dropWhile isTagNameChar
    let gap := afterName.takeWhile isGapChar
    match afterName.dropWhile isGapChar with
    | c :: rest =>
      if name.isEmpty || gap.isEmpty || c != marker then none
      else some (opener ++ gap ++ name, rest)
    | [] => none

theorem length_of_blockOpener? {s a b : Text} (h : blockOpener? s = some (a, b)) :
    b.length < s.length := by
  unfold blockOpener? at h
  split at h
  · split at h
    · simp only [Option.some.injEq, Prod.mk.injEq] at h
      obtain ⟨-, rfl⟩ := h
      simp
      omega
    · simp at h
  · simp at h

theorem length_of_protectTag? {s a b : Text} (h : protectTag? s = some (a, b)) :
    b.length < s.length := by
  simp only [protectTag?, Option.bind_eq_some_iff, Option.ite_none_left_eq_some,
    Option.some.injEq, Prod.mk.injEq] at h
  obtain ⟨⟨opener, t⟩, ho, -, -, rfl⟩ := h
  have := length_of_blockOpener? ho
  have := (List.dropWhile_suffix (l := t) Text.isBlank).length_le
  have := (List.dropWhile_suffix (l := t.dropWhile Text.isBlank) isTagNameChar).length_le
  dsimp only
  omega

theorem length_of_restoreTag? {s a b : Text} (h : restoreTag? s = some (a, b)) :
    b.length < s.length := by
  simp only [restoreTag?, Option.bind_eq_some_iff] at h
  obtain ⟨⟨opener, t⟩, ho, h⟩ := h
  split at h
  · next c rest hr =>
    simp only [Option.ite_none_left_eq_some, Option.some.injEq, Prod.mk.injEq] at h
    obtain ⟨-, -, rfl⟩ := h
    have := length_of_blockOpener? ho
    have := (List.dropWhile_suffix (l := t) isTagNameChar).length_le
    have h₃ := (List.dropWhile_suffix (l := t.dropWhile isTagNameChar) isGapChar).length_le
    simp only [hr, List.length_cons] at h₃
    omega
  · simp at h

def protect (s : Text) : Text :=
  match s with
  | [] => []
  | c :: s =>
    match _h : protectTag? (c :: s) with
    | some (a, rest) => a ++ protect rest
    | none => c :: protect s
termination_by s.length
decreasing_by
  · exact length_of_protectTag? _h
  · simp

def restore (s : Text) : Text :=
  match s with
  | [] => []
  | c :: s =>
    match _h : restoreTag? (c :: s) with
    | some (a, rest) => a ++ restore rest
    | none => c :: restore s
termination_by s.length
decreasing_by
  · exact length_of_restoreTag? _h
  · simp

end PatternBridge.Markup
