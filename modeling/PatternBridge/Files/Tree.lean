import PatternBridge.Files.Path

/-!
File trees. Each place in a tree has at most one entry, and the entries are kept in the order of
their places, in which a directory comes before what is in it.
-/

namespace PatternBridge

/-- The names that lead to an entry from the top directory. -/
abbrev Place := List Text

namespace Place

abbrev Before (a b : Place) : Prop := compare a b = .lt

theorem Before.trans {a b c : Place} (h : Before a b) (k : Before b c) : Before a c :=
  Std.TransCmp.lt_trans h k

theorem before_of_gt {a b : Place} (h : compare a b = .gt) : Before b a :=
  Std.OrientedCmp.lt_of_gt h

theorem Before.ne {a b : Place} (h : Before a b) : a ≠ b := by
  rintro rfl
  simp [Before, Std.ReflCmp.compare_self] at h

end Place

inductive Content where
  | text (s : Text)
  | octets (bytes : List UInt8)
  deriving DecidableEq

namespace Content

def ofBytes (bytes : List UInt8) : Content :=
  match String.fromUTF8? ⟨bytes.toArray⟩ with
  | some s => text s.toList
  | none => octets bytes

end Content

inductive Entry where
  | directory
  | file (c : Content)
  | link (target : Path)
  deriving DecidableEq

namespace Entry

def isFile : Entry → Bool
  | file _ => true
  | _ => false

def isLink : Entry → Bool
  | link _ => true
  | _ => false

end Entry

structure Tree where
  entries : List (Place × Entry)
  sorted : entries.Pairwise fun a b => Place.Before a.1 b.1
  /-- The working directory. -/
  here : Place

namespace Tree

def insertEntry (p : Place) (e : Entry) : List (Place × Entry) → List (Place × Entry)
  | [] => [(p, e)]
  | x :: xs =>
    match compare p x.1 with
    | .lt => (p, e) :: x :: xs
    | .eq => (p, e) :: xs
    | .gt => x :: insertEntry p e xs

theorem mem_insertEntry {p : Place} {e : Entry} {xs : List (Place × Entry)} {y : Place × Entry}
    (h : y ∈ insertEntry p e xs) : y = (p, e) ∨ y ∈ xs := by
  induction xs with
  | nil => exact .inl (by simpa [insertEntry] using h)
  | cons x xs ih =>
    simp only [insertEntry] at h
    split at h
    · simpa using h
    · rcases List.mem_cons.1 h with rfl | h
      · exact .inl rfl
      · exact .inr (List.mem_cons_of_mem _ h)
    · rcases List.mem_cons.1 h with rfl | h
      · exact .inr List.mem_cons_self
      · exact (ih h).imp_right (List.mem_cons_of_mem _)

theorem sorted_insertEntry (p : Place) (e : Entry) {xs : List (Place × Entry)}
    (h : xs.Pairwise fun a b => Place.Before a.1 b.1) :
    (insertEntry p e xs).Pairwise fun a b => Place.Before a.1 b.1 := by
  induction xs with
  | nil => simp [insertEntry]
  | cons x xs ih =>
    have hx := List.pairwise_cons.1 h
    simp only [insertEntry]
    split
    · next hlt =>
      refine List.pairwise_cons.2 ⟨?_, h⟩
      intro y hy
      rcases List.mem_cons.1 hy with rfl | hy
      · exact hlt
      · exact Place.Before.trans hlt (hx.1 y hy)
    · next heq =>
      have hpx : p = x.1 := Std.LawfulEqCmp.eq_of_compare heq
      exact List.pairwise_cons.2 ⟨fun y hy => hpx ▸ hx.1 y hy, hx.2⟩
    · next hgt =>
      refine List.pairwise_cons.2 ⟨?_, ih hx.2⟩
      intro y hy
      rcases mem_insertEntry hy with rfl | hy
      · exact Place.before_of_gt hgt
      · exact hx.1 y hy

/-- The entry at a place; the top directory is always there. -/
def get? (t : Tree) (p : Place) : Option Entry :=
  if p.isEmpty then some .directory else t.entries.lookup p

def put (t : Tree) (p : Place) (e : Entry) : Tree where
  entries := insertEntry p e t.entries
  sorted := sorted_insertEntry p e t.sorted
  here := t.here

def without (t : Tree) (gone : Place → Bool) : Tree where
  entries := t.entries.filter fun e => !gone e.1
  sorted := t.sorted.filter _
  here := t.here

def erase (t : Tree) (p : Place) : Tree := t.without (· == p)

def isWithin (p dir : Place) : Bool := dir.isPrefixOf p

def eraseAll (t : Tree) (p : Place) : Tree := t.without (isWithin · p)

def empty (here : Place) : Tree where
  entries := []
  sorted := .nil
  here := here

/-- The entries strictly below a directory, each with the names that lead to it from there. -/
def below (t : Tree) (dir : Place) : List (List Text × Entry) :=
  t.entries.filterMap fun e =>
    match dir.isPrefixOf? e.1 with
    | some (n :: ns) => some (n :: ns, e.2)
    | _ => none

theorem lookup_insertEntry_self (p : Place) (e : Entry) (xs : List (Place × Entry)) :
    (insertEntry p e xs).lookup p = some e := by
  induction xs with
  | nil => simp [insertEntry]
  | cons x xs ih =>
    obtain ⟨k, v⟩ := x
    simp only [insertEntry]
    split
    · simp
    · simp
    · next hgt =>
      have hne : (p == k) = false := by simpa using (Place.before_of_gt hgt).ne.symm
      simp [List.lookup_cons, hne, ih]

theorem lookup_insertEntry_ne {p q : Place} (h : q ≠ p) (e : Entry) (xs : List (Place × Entry)) :
    (insertEntry p e xs).lookup q = xs.lookup q := by
  have hqp : (q == p) = false := by simpa using h
  induction xs with
  | nil => simp [insertEntry, List.lookup_cons, hqp]
  | cons x xs ih =>
    obtain ⟨k, v⟩ := x
    simp only [insertEntry]
    split
    · simp [List.lookup_cons, hqp]
    · next heq =>
      obtain rfl : p = k := Std.LawfulEqCmp.eq_of_compare heq
      simp [List.lookup_cons, hqp]
    · simp [List.lookup_cons, ih]

theorem get?_put_self {p : Place} (h : p ≠ []) (e : Entry) (t : Tree) :
    (t.put p e).get? p = some e := by
  have : p.isEmpty = false := by simpa using h
  simp [get?, put, this, lookup_insertEntry_self]

theorem get?_put_ne {p q : Place} (h : q ≠ p) (e : Entry) (t : Tree) :
    (t.put p e).get? q = t.get? q := by
  simp [get?, put, lookup_insertEntry_ne h]

end Tree

end PatternBridge
