import PatternBridge.Proofs.Files.Leads

/-! Reading and changing a tree without links. A change that is not refused touches exactly the
place that its path means, and what it leaves can be read back as long as all directories stay. -/

namespace PatternBridge.Tree
variable {t u : Tree} {p : Path}

theorem exists_of_bind_eq_ok {α β : Type} {x : Except Fault α} {f : α → Except Fault β} {b : β}
    (h : (x >>= f) = .ok b) : ∃ a, x = .ok a ∧ f a = .ok b := by
  cases x with
  | error e => cases h
  | ok a => exact ⟨a, rfl, h⟩

theorem place_of_locate (hl : t.LinkFree) {last : LastLink} {spot : Spot}
    (h : t.locate last p = .ok spot) : spot.place = p.placeFrom t.here := by
  rw [((locate_eq_ok_iff hl).1 h).2.place_eq, Path.foldl_move_steps]

theorem present_eq_ok {s : Spot} {q : Place} {e : Entry} (h : present s = .ok (q, e)) :
    s.place = q ∧ s.entry = some e ∧ (e = .directory ∨ s.slashed = false) := by
  unfold present at h
  split at h
  · cases h
  · next f hf =>
    split at h
    · cases h
    · next hs =>
      obtain ⟨rfl, rfl⟩ := Prod.mk.inj (Except.ok.inj h)
      refine ⟨rfl, hf, ?_⟩
      by_cases hd : f = .directory
      · exact .inl hd
      · simpa [hd] using hs

/-- The path can be looked up, and not as a directory's. -/
def Reaches (t : Tree) (p : Path) : Prop :=
  pathFault? p = none ∧ ∃ spot, t.Leads (start t.here p) p.steps spot ∧
    spot.entry ≠ some .directory ∧ spot.slashed = false

theorem reaches_of_locate (hl : t.LinkFree) {last : LastLink} {spot : Spot}
    (h : t.locate last p = .ok spot) (he : spot.entry ≠ some .directory)
    (hs : spot.slashed = false) : t.Reaches p :=
  have hlead := (locate_eq_ok_iff hl).1 h
  ⟨hlead.1, spot, hlead.2, he, hs⟩

theorem Reaches.keep (h : t.Reaches p) (hhere : u.here = t.here) (hk : t.KeepsDirectories u)
    (hu : u.get? (p.placeFrom t.here) ≠ some .directory) : u.Reaches p := by
  obtain ⟨hfault, spot, hlead, he, hs⟩ := h
  have hplace : spot.place = p.placeFrom t.here := by
    rw [hlead.place_eq, Path.foldl_move_steps]
  refine ⟨hfault, { spot with entry := u.get? spot.place }, ?_, ?_, hs⟩
  · rw [hhere]
    exact hlead.keep hk he (by rwa [hplace])
  · rwa [hplace]

theorem Reaches.locate (hl : t.LinkFree) (h : t.Reaches p) (last : LastLink) :
    t.locate last p = .ok
      { place := p.placeFrom t.here, entry := t.get? (p.placeFrom t.here), slashed := false } := by
  obtain ⟨hfault, spot, hlead, he, hs⟩ := h
  have hplace : spot.place = p.placeFrom t.here := by
    rw [hlead.place_eq, Path.foldl_move_steps]
  rw [(locate_eq_ok_iff hl).2 ⟨hfault, hlead⟩, ← hplace, ← (hlead.entry_eq he).2, ← hs]

theorem Reaches.read (hl : t.LinkFree) (h : t.Reaches p) {s : Text}
    (hs : t.get? (p.placeFrom t.here) = some (.file (.text s))) : t.read p = .ok s := by
  have hstatus : t.status p = .ok (p.placeFrom t.here, .file (.text s)) := by
    rw [status, h.locate hl, hs]
    rfl
  rw [Tree.read, hstatus]
  rfl

theorem status_eq_ok (hl : t.LinkFree) {q : Place} {e : Entry} (h : t.status p = .ok (q, e)) :
    q = p.placeFrom t.here ∧ (e ≠ .directory → t.Reaches p ∧ t.get? q = some e) := by
  obtain ⟨spot, hspot, hpresent⟩ := exists_of_bind_eq_ok h
  obtain ⟨rfl, he, hslash⟩ := present_eq_ok hpresent
  refine ⟨place_of_locate hl hspot, fun hd => ?_⟩
  have hne : spot.entry ≠ some .directory := by simpa [he] using hd
  have hentry := (((locate_eq_ok_iff hl).1 hspot).2.entry_eq hne).2
  exact ⟨reaches_of_locate hl hspot hne (hslash.resolve_left hd), by rw [← hentry, he]⟩

theorem read_eq_ok (hl : t.LinkFree) {s : Text} (h : t.read p = .ok s) :
    t.Reaches p ∧ t.get? (p.placeFrom t.here) = some (.file (.text s)) := by
  obtain ⟨⟨q, e⟩, hstatus, h⟩ := exists_of_bind_eq_ok h
  obtain ⟨rfl, hfile⟩ := status_eq_ok hl hstatus
  cases e with
  | directory => cases h
  | link target => cases h
  | file c =>
    cases c with
    | octets bytes => cases h
    | text s' =>
      rw [← Except.ok.inj h]
      exact hfile (by simp)

theorem write_eq_ok (hl : t.LinkFree) {c : Content} (h : t.write p c = .ok u) :
    t.Reaches p ∧ u = t.put (p.placeFrom t.here) (.file c) ∧ p.placeFrom t.here ≠ [] ∧
      t.get? (p.placeFrom t.here) ≠ some .directory := by
  obtain ⟨spot, hspot, h⟩ := exists_of_bind_eq_ok h
  dsimp only at h
  split at h
  · cases h
  · next hfree =>
    simp only [Bool.or_eq_true, beq_iff_eq, not_or, Bool.not_eq_true] at hfree
    have hentry := ((locate_eq_ok_iff hl).1 hspot).2.entry_eq hfree.2
    rw [← place_of_locate hl hspot]
    exact ⟨reaches_of_locate hl hspot hfree.2 hfree.1, (Except.ok.inj h).symm, hentry.1,
      hentry.2 ▸ hfree.2⟩

theorem make_eq_ok (hl : t.LinkFree) {e : Entry} (h : t.make p e = .ok u) :
    (∃ spot, t.Leads (start t.here p) p.steps spot ∧ spot.entry ≠ some .directory) ∧
      u = t.put (p.placeFrom t.here) e ∧ p.placeFrom t.here ≠ [] ∧
      t.get? (p.placeFrom t.here) = none := by
  obtain ⟨spot, hspot, h⟩ := exists_of_bind_eq_ok h
  dsimp only at h
  split at h
  · cases h
  · next hfree =>
    split at h
    · cases h
    · have hnone : spot.entry = none := by simpa using hfree
      have hlead := ((locate_eq_ok_iff hl).1 hspot).2
      have hne : spot.entry ≠ some .directory := by simp [hnone]
      have hentry := hlead.entry_eq hne
      rw [← place_of_locate hl hspot]
      exact ⟨⟨spot, hlead, hne⟩, (Except.ok.inj h).symm, hentry.1, by rw [← hentry.2, hnone]⟩

theorem remove_eq_ok (hl : t.LinkFree) (h : t.remove p = .ok u) :
    u = t.erase (p.placeFrom t.here) ∧ p.placeFrom t.here ≠ [] ∧
      t.get? (p.placeFrom t.here) ≠ some .directory := by
  obtain ⟨spot, hspot, h⟩ := exists_of_bind_eq_ok h
  split at h
  · cases h
  · cases h
  · next e hdir he =>
    split at h
    · cases h
    · have hne : spot.entry ≠ some .directory := fun hd => hdir (Option.some.inj (he.symm.trans hd))
      have hentry := ((locate_eq_ok_iff hl).1 hspot).2.entry_eq hne
      rw [← place_of_locate hl hspot]
      exact ⟨(Except.ok.inj h).symm, hentry.1, hentry.2 ▸ hne⟩

/-- What a write changes: the file that the path means, which can be looked up afterwards. -/
structure Wrote (p : Path) (c : Content) (t u : Tree) : Prop where
  here : u.here = t.here
  linkFree : u.LinkFree
  keeps : t.KeepsDirectories u
  reached : u.Reaches p
  written : u.get? (p.placeFrom t.here) = some (.file c)
  frame : ∀ q, q ≠ p.placeFrom t.here → u.get? q = t.get? q

theorem wrote_of_write (hl : t.LinkFree) {c : Content} (h : t.write p c = .ok u) :
    Wrote p c t u := by
  obtain ⟨hreach, rfl, hne, hdir⟩ := write_eq_ok hl h
  have hkeep : t.KeepsDirectories (t.put (p.placeFrom t.here) (.file c)) :=
    keepsDirectories_put fun hd => absurd hd hdir
  have hwritten := get?_put_self hne (.file c) t
  refine ⟨rfl, hl.put rfl, hkeep, ?_, hwritten, fun q hq => get?_put_ne hq _ t⟩
  exact hreach.keep rfl hkeep (by simp [hwritten])

structure Removed (p : Path) (t u : Tree) : Prop where
  here : u.here = t.here
  linkFree : u.LinkFree
  keeps : t.KeepsDirectories u
  gone : u.get? (p.placeFrom t.here) = none
  frame : ∀ q, q ≠ p.placeFrom t.here → u.get? q = t.get? q

theorem removed_of_remove (hl : t.LinkFree) (h : t.remove p = .ok u) : Removed p t u := by
  obtain ⟨rfl, hne, hdir⟩ := remove_eq_ok hl h
  exact ⟨rfl, hl.erase _, keepsDirectories_erase hdir, get?_erase_self hne,
    fun q hq => get?_erase_ne hq⟩

/-- What differs after directories are made: some places where nothing was, each on the way. -/
def GrownBy (t u : Tree) (places : Place → Prop) : Prop :=
  u.here = t.here ∧ ∀ q, u.get? q = t.get? q ∨
    t.get? q = none ∧ u.get? q = some .directory ∧ places q

theorem GrownBy.refl (t : Tree) (places : Place → Prop) : t.GrownBy t places :=
  ⟨rfl, fun _ => .inl rfl⟩

theorem GrownBy.trans {v : Tree} {places : Place → Prop} (h : t.GrownBy u places)
    (k : u.GrownBy v places) : t.GrownBy v places := by
  refine ⟨k.1.trans h.1, fun q => ?_⟩
  obtain hv | ⟨hv, hdir, hp⟩ := k.2 q
  · rw [hv]
    exact h.2 q
  · obtain hu | ⟨hu, hdir', -⟩ := h.2 q
    · exact .inr ⟨by rw [← hu, hv], hdir, hp⟩
    · rw [hdir'] at hv
      cases hv

theorem GrownBy.linkFree {places : Place → Prop} (h : t.GrownBy u places) (hl : t.LinkFree) :
    u.LinkFree := by
  intro q target hq
  obtain hu | ⟨-, hu, -⟩ := h.2 q
  · exact hl q target (by rw [← hu, hq])
  · rw [hu] at hq
    cases hq

theorem GrownBy.keepsDirectories {places : Place → Prop} (h : t.GrownBy u places) :
    t.KeepsDirectories u := by
  intro q hq
  obtain hu | ⟨hnone, -, -⟩ := h.2 q
  · rw [hu, hq]
  · rw [hq] at hnone
    cases hnone

theorem grownBy_makeDirectory (hl : t.LinkFree) (h : t.makeDirectory p = .ok u)
    {places : Place → Prop} (hp : places (p.placeFrom t.here)) : t.GrownBy u places := by
  obtain ⟨-, rfl, hne, hnone⟩ := make_eq_ok hl h
  refine ⟨rfl, fun q => ?_⟩
  by_cases hq : q = p.placeFrom t.here
  · rw [hq, get?_put_self hne]
    exact .inr ⟨hnone, rfl, hp⟩
  · exact .inl (get?_put_ne hq _ t)

/-- What each new directory keeps is kept when many are made, also if that fails. -/
theorem makeDirectoriesOf_induction {P : Tree → Prop} {ps : List Path}
    (hstep : ∀ q ∈ ps, ∀ v w : Tree, P v → v.makeDirectory q = .ok w → P w) {t : Tree} (h : P t) :
    P (makeDirectoriesOf ps t).2 := by
  induction ps generalizing t with
  | nil => exact h
  | cons p parents ih =>
    have hmake (v w : Tree) (hv : P v) (hw : v.makeDirectory p = .ok w) : P w :=
      hstep p List.mem_cons_self v w hv hw
    have habove := ih (fun q hq => hstep q (List.mem_cons_of_mem _ hq)) h
    unfold makeDirectoriesOf
    split
    · exact h
    split
    · next v hv => exact hmake t v h hv
    · split
      · next f v hv =>
        rw [hv] at habove
        exact habove
      · next v hv =>
        rw [hv] at habove
        unfold makeDirectoriesOf.settle
        split
        · next w hw => exact hmake v w habove hw
        · exact habove
    · exact h

theorem grownBy_makeDirectories (hl : t.LinkFree) (p : Path) {places : Place → Prop}
    (hp : ∀ q ∈ p.ancestors, places (q.placeFrom t.here)) :
    t.GrownBy (t.makeDirectories p).2 places := by
  unfold makeDirectories
  refine makeDirectoriesOf_induction (P := fun v => t.GrownBy v places) ?_ (.refl t places)
  intro q hq v w hv hw
  apply hv.trans
  apply grownBy_makeDirectory (hv.linkFree hl) hw
  rw [hv.1]
  exact hp q hq

end PatternBridge.Tree
