import PatternBridge.Proofs.Files.Effects

/-! Well-formed trees: what holds of every tree of a file system. It can be checked on the entries,
and each change through a path keeps it. -/

namespace PatternBridge

namespace Path

theorem isName_iff {n : Text} : IsName n ↔ n ≠ [] ∧ n ≠ ['.'] ∧ n ≠ ['.', '.'] ∧ '/' ∉ n :=
  ⟨fun h => ⟨h.ne_nil, h.ne_stay, h.ne_up, h.noSlash⟩, fun ⟨h, k, l, m⟩ => ⟨h, k, l, m⟩⟩

instance (n : Text) : Decidable (IsName n) := decidable_of_iff _ isName_iff.symm

theorem isName_of_mem_steps {p : Path} {n : Text} (h : .name n ∈ p.steps) : IsName n := by
  unfold steps at h
  rcases List.mem_append.1 h with h | h
  · obtain ⟨s, hs, hstep⟩ := List.mem_filterMap.1 h
    have hslash : '/' ∉ s := Text.notMem_of_mem_splitOn hs
    unfold Step.ofSegment? at hstep
    split at hstep
    · cases hstep
    next hnil =>
    split at hstep
    · cases hstep
    next hstay =>
    split at hstep
    · cases hstep
    next hup =>
    obtain rfl : s = n := by simpa using hstep
    simp only [List.isEmpty_iff, beq_iff_eq] at hnil hstay hup
    exact ⟨hnil, hstay, hup, hslash⟩
  · split at h <;> simp at h

end Path

namespace Tree
variable {t u : Tree} {p : Path}

/-- Names are proper, and all is in directories. -/
structure WellFormed (t : Tree) : Prop where
  named : ∀ {p : Place} {e : Entry}, t.get? p = some e → ∀ n ∈ p, Path.IsName n
  inDirectory : ∀ {p : Place} {n : Text} {e : Entry},
    t.get? (p ++ [n]) = some e → t.get? p = some .directory
  here : t.get? t.here = some .directory

theorem linkFree_iff : t.LinkFree ↔ ∀ x ∈ t.entries, x.1 ≠ [] → x.2.isLink = false := by
  constructor
  · intro h x hx hne
    have hget := (get?_eq_some_iff_mem hne).2 hx
    cases he : x.2 with
    | directory => rfl
    | file c => rfl
    | link target =>
      rw [he] at hget
      exact absurd hget (h x.1 target)
  · intro h q target hq
    by_cases hne : q = []
    · rw [hne, get?_nil] at hq
      cases hq
    · have hlink := h _ ((get?_eq_some_iff_mem hne).1 hq) hne
      cases hlink

theorem wellFormed_iff : t.WellFormed ↔ (∀ x ∈ t.entries, x.1 ≠ [] →
    (∀ n ∈ x.1, Path.IsName n) ∧ t.get? x.1.dropLast = some .directory) ∧
      t.get? t.here = some .directory := by
  constructor
  · intro h
    refine ⟨fun x hx hne => ?_, h.here⟩
    have hget := (get?_eq_some_iff_mem hne).2 hx
    refine ⟨h.named hget, ?_⟩
    rw [← List.dropLast_concat_getLast hne] at hget
    exact h.inDirectory hget
  · rintro ⟨h, hhere⟩
    refine ⟨fun {q e} hq => ?_, fun {q n e} hq => ?_, hhere⟩
    · by_cases hne : q = []
      · simp [hne]
      · exact (h _ ((get?_eq_some_iff_mem hne).1 hq) hne).1
    · have hne : q ++ [n] ≠ [] := by simp
      have hparent := (h _ ((get?_eq_some_iff_mem hne).1 hq) hne).2
      rwa [List.dropLast_concat] at hparent

instance (t : Tree) : Decidable t.LinkFree := decidable_of_iff _ linkFree_iff.symm

instance (t : Tree) : Decidable t.WellFormed := decidable_of_iff _ wellFormed_iff.symm

namespace WellFormed

theorem above (hw : t.WellFormed) {p : Place} {n : Text} {ns : List Text} {e : Entry}
    (h : t.get? (p ++ n :: ns) = some e) : t.get? p = some .directory := by
  induction ns generalizing p n with
  | nil => exact hw.inDirectory h
  | cons m ns ih =>
    have hstep : t.get? (p ++ [n]) = some .directory := ih (n := m) (by simpa using h)
    exact hw.inDirectory hstep

theorem dropLast (hw : t.WellFormed) {dir : Place} (h : t.get? dir = some .directory) :
    t.get? dir.dropLast = some .directory := by
  rcases List.eq_nil_or_concat dir with rfl | ⟨init, n, rfl⟩
  · rfl
  · rw [List.concat_eq_append] at h ⊢
    rw [List.dropLast_concat]
    exact hw.inDirectory h

theorem get?_start {dir : Place} (hdir : t.get? dir = some .directory) (p : Path) :
    t.get? (Tree.start dir p) = some .directory := by
  unfold Tree.start
  split
  · rfl
  · exact hdir

theorem start (hw : t.WellFormed) (p : Path) : t.get? (Tree.start t.here p) = some .directory :=
  get?_start hw.here p

theorem put (hw : t.WellFormed) {dir : Place} {n : Text} (hdir : t.get? dir = some .directory)
    (hn : Path.IsName n) (hfree : t.get? (dir ++ [n]) ≠ some .directory) (e : Entry) :
    (t.put (dir ++ [n]) e).WellFormed := by
  have hold {q : Place} (hq : t.get? q = some .directory) :
      (t.put (dir ++ [n]) e).get? q = some .directory := by
    rwa [get?_put_ne]
    rintro rfl
    exact hfree hq
  refine ⟨fun {q f} hq m hm => ?_, fun {q m f} hq => ?_, hold hw.here⟩
  · by_cases hqd : q = dir ++ [n]
    · rw [hqd] at hm
      rcases List.mem_append.1 hm with hm | hm
      · exact hw.named hdir m hm
      · rwa [List.mem_singleton.1 hm]
    · rw [get?_put_ne hqd] at hq
      exact hw.named hq m hm
  · by_cases hqd : q ++ [m] = dir ++ [n]
    · rw [(List.append_inj' hqd rfl).1]
      exact hold hdir
    · rw [get?_put_ne hqd] at hq
      exact hold (hw.inDirectory hq)

theorem erase (hw : t.WellFormed) {p : Place} (hfree : t.get? p ≠ some .directory) :
    (t.erase p).WellFormed := by
  have hne : p ≠ [] := by
    rintro rfl
    exact hfree (get?_nil t)
  have hold {q : Place} {e : Entry} (hq : (t.erase p).get? q = some e) : t.get? q = some e := by
    rwa [← get?_erase_ne (t := t)]
    rintro rfl
    rw [get?_erase_self hne] at hq
    cases hq
  have hkeep := keepsDirectories_erase hfree
  exact ⟨fun {q e} hq => hw.named (hold hq), fun {q n e} hq => hkeep _ (hw.inDirectory (hold hq)),
    hkeep _ hw.here⟩

end WellFormed

namespace Leads
variable {dir : Place} {steps : List Step} {spot : Spot}

theorem get?_eq (hw : t.WellFormed) (h : t.Leads dir steps spot)
    (hdir : t.get? dir = some .directory) : spot.entry = t.get? spot.place := by
  induction h with
  | stop => exact hdir.symm
  | @idle dir step _ _ hstep _ ih =>
    cases step with
    | stay | slash => exact ih hdir
    | up => exact ih (hw.dropLast hdir)
    | name n => exact absurd rfl (hstep n)
  | enter _ hnext _ ih => exact ih hnext
  | last => rfl

theorem exists_directory (hw : t.WellFormed) (h : t.Leads dir steps spot)
    (hdir : t.get? dir = some .directory) (hnames : ∀ n, .name n ∈ steps → Path.IsName n)
    (he : spot.entry ≠ some .directory) :
    ∃ parent n, spot.place = parent ++ [n] ∧ t.get? parent = some .directory ∧ Path.IsName n := by
  induction h with
  | stop => exact absurd rfl he
  | @idle dir step rest _ hstep _ ih =>
    have hbehind (n : Text) (hn : .name n ∈ rest) := hnames n (List.mem_cons_of_mem _ hn)
    cases step with
    | stay | slash => exact ih hdir hbehind he
    | up => exact ih (hw.dropLast hdir) hbehind he
    | name n => exact absurd rfl (hstep n)
  | enter _ hnext _ ih => exact ih hnext (fun n hn => hnames n (List.mem_cons_of_mem _ hn)) he
  | last => exact ⟨_, _, rfl, hdir, hnames _ List.mem_cons_self⟩

end Leads

theorem exists_directory_of_leads (hw : t.WellFormed) {spot : Spot}
    (h : t.Leads (Tree.start t.here p) p.steps spot) (he : spot.entry ≠ some .directory) :
    ∃ parent n, p.placeFrom t.here = parent ++ [n] ∧ t.get? parent = some .directory ∧
      Path.IsName n := by
  rw [← Path.foldl_move_steps, ← h.place_eq]
  exact h.exists_directory hw (hw.start p) (fun n hn => Path.isName_of_mem_steps hn) he

theorem WellFormed.write (hw : t.WellFormed) (hl : t.LinkFree) {c : Content}
    (h : t.write p c = .ok u) : u.WellFormed := by
  obtain ⟨⟨-, spot, hlead, he, -⟩, rfl, -, hfree⟩ := write_eq_ok hl h
  obtain ⟨parent, n, hplace, hparent, hn⟩ := exists_directory_of_leads hw hlead he
  rw [hplace] at hfree ⊢
  exact hw.put hparent hn hfree _

theorem WellFormed.make (hw : t.WellFormed) (hl : t.LinkFree) {e : Entry}
    (h : t.make p e = .ok u) : u.WellFormed := by
  obtain ⟨⟨spot, hlead, he⟩, rfl, -, hnone⟩ := make_eq_ok hl h
  obtain ⟨parent, n, hplace, hparent, hn⟩ := exists_directory_of_leads hw hlead he
  rw [hplace] at hnone ⊢
  exact hw.put hparent hn (by simp [hnone]) e

theorem WellFormed.remove (hw : t.WellFormed) (hl : t.LinkFree) (h : t.remove p = .ok u) :
    u.WellFormed := by
  obtain ⟨rfl, -, hfree⟩ := remove_eq_ok hl h
  exact hw.erase hfree

theorem WellFormed.makeDirectories (hw : t.WellFormed) (hl : t.LinkFree) (p : Path) :
    (t.makeDirectories p).2.WellFormed := by
  have hboth : (t.makeDirectories p).2.LinkFree ∧ (t.makeDirectories p).2.WellFormed := by
    unfold Tree.makeDirectories
    refine makeDirectoriesOf_induction (P := fun v => v.LinkFree ∧ v.WellFormed) ?_ ⟨hl, hw⟩
    intro q _ v w hv h
    refine ⟨?_, hv.2.make hv.1 h⟩
    obtain ⟨-, rfl, -, -⟩ := make_eq_ok hv.1 h
    exact hv.1.put rfl
  exact hboth.2

end Tree
end PatternBridge
