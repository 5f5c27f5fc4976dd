import PatternBridge.Files.Tree

/-! What is at each place of a tree after an entry is put there or taken away, and the classes of
trees that later statements are about. -/

namespace PatternBridge.Tree

theorem lookup_eq_some_iff_mem {xs : List (Place × Entry)}
    (hs : xs.Pairwise fun a b => Place.Before a.1 b.1) {p : Place} {e : Entry} :
    xs.lookup p = some e ↔ (p, e) ∈ xs := by
  induction xs with
  | nil => simp
  | cons x xs ih =>
    obtain ⟨q, f⟩ := x
    have hx := List.pairwise_cons.1 hs
    by_cases hpq : p = q
    · subst hpq
      have hlater : (p, e) ∉ xs := fun h => (hx.1 _ h).ne rfl
      simp [hlater, eq_comm]
    · have hne : (p == q) = false := by simpa using hpq
      simp [List.lookup_cons, hne, hpq, ih hx.2]

theorem get?_eq_some_iff_mem {t : Tree} {p : Place} {e : Entry} (hp : p ≠ []) :
    t.get? p = some e ↔ (p, e) ∈ t.entries := by
  have hne : p.isEmpty = false := by simpa using hp
  rw [get?, hne, if_neg Bool.false_ne_true, lookup_eq_some_iff_mem t.sorted]

@[simp] theorem get?_nil (t : Tree) : t.get? [] = some .directory := rfl

theorem get?_without {t : Tree} {gone : Place → Bool} {p : Place} (hp : p ≠ []) :
    (t.without gone).get? p = if gone p then none else t.get? p := by
  have hmem (e : Entry) : (t.without gone).get? p = some e ↔ t.get? p = some e ∧ !gone p := by
    rw [get?_eq_some_iff_mem hp, get?_eq_some_iff_mem hp]
    exact List.mem_filter
  cases hg : gone p with
  | true =>
    cases h : (t.without gone).get? p with
    | none => rfl
    | some e => simp [hg, h] at hmem
  | false =>
    apply Option.ext
    intro e
    rw [hmem e]
    simp [hg]

theorem get?_erase_self {t : Tree} {p : Place} (hp : p ≠ []) : (t.erase p).get? p = none := by
  rw [erase, get?_without hp, if_pos (by simp)]

theorem get?_erase_ne {t : Tree} {p q : Place} (h : q ≠ p) : (t.erase p).get? q = t.get? q := by
  by_cases hq : q = []
  · rw [hq, get?_nil, get?_nil]
  · rw [erase, get?_without hq, if_neg (by simpa using h)]

theorem exists_insertEntry {q : Place} {e : Entry} {xs : List (Place × Entry)}
    (h : q ∉ xs.map Prod.fst) :
    ∃ before after, xs = before ++ after ∧ insertEntry q e xs = before ++ (q, e) :: after := by
  induction xs with
  | nil => exact ⟨[], [], rfl, rfl⟩
  | cons x xs ih =>
    unfold insertEntry
    split
    · exact ⟨[], x :: xs, rfl, rfl⟩
    · next heq =>
      have hqx : q = x.1 := Std.LawfulEqCmp.eq_of_compare heq
      exact absurd (hqx ▸ List.mem_cons_self) h
    · obtain ⟨before, after, hxs, hinsert⟩ := ih fun hmem => h (List.mem_cons_of_mem _ hmem)
      exact ⟨x :: before, after, by rw [hxs]; rfl, by rw [hinsert]; rfl⟩

theorem exists_entries_put {t : Tree} {q : Place} {e : Entry} (hne : q ≠ [])
    (h : t.get? q = none) : ∃ before after, t.entries = before ++ after ∧
      (t.put q e).entries = before ++ (q, e) :: after := by
  apply exists_insertEntry
  intro hmem
  obtain ⟨⟨q', f⟩, hf, rfl⟩ := List.mem_map.1 hmem
  rw [(get?_eq_some_iff_mem hne).2 hf] at h
  cases h

def LinkFree (t : Tree) : Prop := ∀ p target, t.get? p ≠ some (.link target)

theorem LinkFree.put {t : Tree} (h : t.LinkFree) {p : Place} {e : Entry} (he : e.isLink = false) :
    (t.put p e).LinkFree := by
  intro q target hq
  by_cases hqp : q = p
  · by_cases hp : p = []
    · rw [hqp, hp, get?_nil] at hq
      cases hq
    · rw [hqp, get?_put_self hp] at hq
      rw [Option.some.inj hq] at he
      cases he
  · rw [get?_put_ne hqp] at hq
    exact h q target hq

theorem LinkFree.erase {t : Tree} (h : t.LinkFree) (p : Place) : (t.erase p).LinkFree := by
  intro q target hq
  by_cases hqp : q = p
  · by_cases hp : p = []
    · rw [hqp, hp, get?_nil] at hq
      cases hq
    · rw [hqp, get?_erase_self hp] at hq
      cases hq
  · rw [get?_erase_ne hqp] at hq
    exact h q target hq

def KeepsDirectories (t u : Tree) : Prop :=
  ∀ p, t.get? p = some .directory → u.get? p = some .directory

theorem KeepsDirectories.refl (t : Tree) : t.KeepsDirectories t := fun _ h => h

theorem KeepsDirectories.trans {t u v : Tree} (h : t.KeepsDirectories u)
    (k : u.KeepsDirectories v) : t.KeepsDirectories v := fun p hp => k p (h p hp)

theorem keepsDirectories_put {t : Tree} {p : Place} {e : Entry}
    (h : t.get? p = some .directory → e = .directory) : t.KeepsDirectories (t.put p e) := by
  intro q hq
  by_cases hqp : q = p
  · subst hqp
    by_cases hne : q = []
    · rw [hne, get?_nil]
    · rw [get?_put_self hne, h hq]
  · rwa [get?_put_ne hqp]

theorem keepsDirectories_erase {t : Tree} {p : Place} (h : t.get? p ≠ some .directory) :
    t.KeepsDirectories (t.erase p) := by
  intro q hq
  rwa [get?_erase_ne]
  rintro rfl
  exact h hq

end PatternBridge.Tree
