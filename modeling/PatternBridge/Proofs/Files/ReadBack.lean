import PatternBridge.Proofs.Files.Effects

/-! Writing through links. Wherever a path leads, what is written there is read back through the
same path, since a write changes no directory and no link that was followed on the way. -/

namespace PatternBridge.Tree

/-- The steps lead over at most so many links to a spot where a file may be. -/
inductive Finds (t : Tree) : Nat → Place → List Step → Spot → Prop where
  | idle {links : Nat} {dir : Place} {step : Step} {rest : List Step} {spot : Spot}
      (hstep : ∀ n, step ≠ .name n) (hrest : Finds t links (step.move dir) rest spot) :
      Finds t links dir (step :: rest) spot
  | enter {links : Nat} {dir : Place} {n : Text} {rest : List Step} {spot : Spot}
      (hname : Text.byteLength n ≤ maxNameBytes) (hdir : t.get? (dir ++ [n]) = some .directory)
      (hrest : Finds t links (dir ++ [n]) rest spot) : Finds t links dir (.name n :: rest) spot
  | link {links : Nat} {dir : Place} {n : Text} {target : Path} {rest : List Step} {spot : Spot}
      (hname : Text.byteLength n ≤ maxNameBytes)
      (hlink : t.get? (dir ++ [n]) = some (.link target))
      (hrest : Finds t links (start dir target) (target.steps ++ rest) spot) :
      Finds t (links + 1) dir (.name n :: rest) spot
  | last {links : Nat} {dir : Place} {n : Text} (hname : Text.byteLength n ≤ maxNameBytes)
      (hfree : ∀ e, t.get? (dir ++ [n]) = some e → e.isFile = true) :
      Finds t links dir [.name n] { place := dir ++ [n], entry := t.get? (dir ++ [n]) }

variable {t u : Tree} {links : Nat} {dir : Place} {steps : List Step} {spot : Spot}

theorem finds_of_walk (h : t.walk .create links dir steps = .ok spot)
    (he : spot.entry ≠ some .directory) (hs : spot.slashed = false) :
    t.Finds links dir steps spot := by
  -- first along the steps, whatever becomes of a link, then by induction on the links that are left
  have key (links : Nat) (onLink : Place → Path → List Step → Except Fault Spot)
      (honLink : ∀ dir n target rest, Text.byteLength n ≤ maxNameBytes →
        t.get? (dir ++ [n]) = some (.link target) → onLink dir target rest = .ok spot →
          t.Finds links dir (.name n :: rest) spot) (dir : Place) (steps : List Step)
      (h : t.walkWith .create onLink dir steps = .ok spot) : t.Finds links dir steps spot := by
    induction steps generalizing dir with
    | nil =>
      rw [← Except.ok.inj h] at he
      exact absurd rfl he
    | cons step rest ih =>
      cases step with
      | stay | slash | up => exact .idle (by simp) (ih _ h)
      | name n =>
        unfold walkWith at h
        split at h
        · cases h
        next hname =>
        have hname := Nat.le_of_not_lt hname
        dsimp only at h
        split at h
        · next hdir => exact .enter hname hdir (ih _ h)
        · next target hlink =>
          split at h
          · next hkept =>
            have hslash : (rest == [.slash]) = false := by rwa [← Except.ok.inj h] at hs
            simp [LastLink.follows, hslash] at hkept
          · exact honLink dir n target rest hname hlink h
        · next c hfile =>
          split at h
          · next hlast =>
            obtain rfl := Except.ok.inj h
            obtain rfl | rfl := isLast_iff.1 hlast
            · rw [← hfile]
              exact .last hname (by simp [hfile, Entry.isFile])
            · cases hs
          · cases h
        · next hnone =>
          split at h
          · next hlast =>
            obtain rfl := Except.ok.inj h
            obtain rfl | rfl := isLast_iff.1 hlast
            · rw [← hnone]
              exact .last hname (by simp [hnone])
            · cases hs
          · cases h
  induction links generalizing dir steps with
  | zero => exact key 0 _ (fun _ _ _ _ _ _ hfault => by cases hfault) dir steps h
  | succ links ih =>
    exact key (links + 1) _ (fun _ _ _ _ hname hlink hrest => .link hname hlink (ih hrest)) dir steps h

namespace Finds

theorem walk_eq (h : t.Finds links dir steps spot) : t.walk .follow links dir steps = .ok spot := by
  have hwalk (links : Nat) : ∃ onLink, t.walk .follow links = t.walkWith .follow onLink :=
    t.exists_walk_eq .follow links
  induction h with
  | @idle links dir step rest spot hstep _ ih =>
    obtain ⟨onLink, hw⟩ := hwalk links
    rw [hw] at ih ⊢
    cases step with
    | stay | slash | up => exact ih
    | name n => exact absurd rfl (hstep n)
  | @enter links _ _ _ _ hname hdir _ ih =>
    obtain ⟨onLink, hw⟩ := hwalk links
    rw [hw] at ih ⊢
    rw [walkWith, if_neg (Nat.not_lt.2 hname)]
    simp only [hdir]
    exact ih
  | link hname hlink _ ih =>
    rw [walk, walkWith, if_neg (Nat.not_lt.2 hname)]
    simp only [hlink, LastLink.follows, Bool.not_true, Bool.and_false, Bool.false_eq_true, if_false]
    exact ih
  | @last links dir n hname hfree =>
    obtain ⟨onLink, hw⟩ := hwalk links
    rw [hw, walkWith, if_neg (Nat.not_lt.2 hname)]
    dsimp only
    split
    · next h => exact absurd (hfree _ h) (by decide)
    · next h => exact absurd (hfree _ h) Bool.false_ne_true
    · next h => rw [h]; rfl
    · next h => rw [h]; rfl

theorem entry_eq (h : t.Finds links dir steps spot) :
    spot.place ≠ [] ∧ (∀ e, t.get? spot.place = some e → e.isFile = true) ∧ spot.slashed = false := by
  induction h with
  | idle _ _ ih | enter _ _ _ ih | link _ _ _ ih => exact ih
  | last _ hfree => exact ⟨by simp, hfree, rfl⟩

theorem put (h : t.Finds links dir steps spot) (c : Content) :
    (t.put spot.place (.file c)).Finds links dir steps { spot with entry := some (.file c) } := by
  obtain ⟨hne, hfree, -⟩ := h.entry_eq
  have hkeep {q : Place} {e : Entry} (hq : t.get? q = some e) (hfile : e.isFile = false) :
      (t.put spot.place (.file c)).get? q = some e := by
    rw [get?_put_ne ?_, hq]
    rintro rfl
    exact absurd (hfree e hq) (Bool.eq_false_iff.1 hfile)
  induction h with
  | idle hstep _ ih => exact .idle hstep (ih hne hfree hkeep)
  | enter hname hdir _ ih => exact .enter hname (hkeep hdir rfl) (ih hne hfree hkeep)
  | link hname hlink _ ih => exact .link hname (hkeep hlink rfl) (ih hne hfree hkeep)
  | @last links dir n hname =>
    have hself := get?_put_self hne (.file c) t
    rw [← hself]
    apply Finds.last hname
    intro e he
    rw [← Option.some.inj (hself.symm.trans he)]
    rfl

end Finds

theorem read_of_write {p : Path} {s : Text} (h : t.write p (.text s) = .ok u) : u.read p = .ok s := by
  obtain ⟨spot, hspot, h⟩ := exists_of_bind_eq_ok h
  dsimp only at h
  split at h
  · cases h
  next hfree =>
  simp only [Bool.or_eq_true, beq_iff_eq, not_or, Bool.not_eq_true] at hfree
  obtain rfl := Except.ok.inj h
  unfold locate at hspot
  split at hspot
  · cases hspot
  next hfault =>
  have hfinds := finds_of_walk hspot hfree.2 hfree.1
  have hlocate : (t.put spot.place (.file (.text s))).locate .follow p =
      .ok { spot with entry := some (.file (.text s)) } := by
    rw [locate, hfault]
    exact (hfinds.put _).walk_eq
  rw [read, status, hlocate]
  simp [present, hfree.1, bind, Except.bind, pure, Except.pure]

end PatternBridge.Tree
