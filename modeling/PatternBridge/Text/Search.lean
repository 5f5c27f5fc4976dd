import PatternBridge.Text.Blank

/-!
Searching in text: cutting at the first or last occurrence of a mark.
-/

namespace PatternBridge.Text

/-- The text before and after the first occurrence of `mark`. -/
def cut? (mark : Text) : Text → Option (Text × Text)
  | [] => if mark.isEmpty then some ([], []) else none
  | c :: s =>
    if mark <+: c :: s then some ([], (c :: s).drop mark.length)
    else (cut? mark s).map fun (before, after) => (c :: before, after)

/-- The text up to and with the first occurrence of `mark`, and the text after it. -/
def through? (mark s : Text) : Option (Text × Text) :=
  (cut? mark s).map fun (before, after) => (before ++ mark, after)

/-- The text before the last `c`, and the text from it on. -/
def cutLast? (c : Char) : Text → Option (Text × Text)
  | [] => none
  | d :: s =>
    match cutLast? c s with
    | some (before, onward) => some (d :: before, onward)
    | none => if d == c then some ([], d :: s) else none

def dropSuffix? (b a : Text) : Option Text :=
  (b.reverse.isPrefixOf? a.reverse).map List.reverse

def endsWith (a b : Text) : Bool := b.isSuffixOf a

def replaceChar (c d : Char) (s : Text) : Text := s.map fun x => if x == c then d else x

/-- The pieces of a list that is shown to a reader, with `mark` between them. -/
abbrev join (mark : Text) (pieces : List Text) : Text := mark.intercalate pieces

theorem eq_append_of_cut? {mark s a b : Text} (h : cut? mark s = some (a, b)) :
    s = a ++ (mark ++ b) := by
  induction s generalizing a with
  | nil =>
    simp only [cut?] at h
    split at h
    · next hm => simp_all
    · simp at h
  | cons c s ih =>
    simp only [cut?] at h
    split at h
    · next hstarts =>
      simp only [Option.some.injEq, Prod.mk.injEq] at h
      obtain ⟨rfl, rfl⟩ := h
      exact (List.prefix_iff_eq_append.1 hstarts).symm
    · simp only [Option.map_eq_some_iff, Prod.mk.injEq] at h
      obtain ⟨⟨x, y⟩, hx, rfl, rfl⟩ := h
      simp [ih hx]

theorem eq_append_of_through? {mark s a b : Text} (h : through? mark s = some (a, b)) :
    s = a ++ b := by
  simp only [through?, Option.map_eq_some_iff, Prod.mk.injEq] at h
  obtain ⟨⟨x, y⟩, hx, rfl, rfl⟩ := h
  simp [eq_append_of_cut? hx]

theorem length_of_through? {mark s a b : Text} (h : through? mark s = some (a, b)) :
    mark.length ≤ a.length := by
  simp only [through?, Option.map_eq_some_iff, Prod.mk.injEq] at h
  obtain ⟨⟨x, y⟩, _, rfl, rfl⟩ := h
  simp

end PatternBridge.Text
