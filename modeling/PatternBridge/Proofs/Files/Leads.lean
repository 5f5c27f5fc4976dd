import PatternBridge.Proofs.Files.Entries
import PatternBridge.Proofs.Files.Place

/-! Looking up a path in a tree without links. `Leads` says where steps lead; in such a tree a
lookup finds just that, whatever it would do with a link. Where a path leads is the place it means,
and it stays so as long as no directory goes away. -/

namespace PatternBridge.Tree

/-- The steps lead from a directory to a spot. -/
inductive Leads (t : Tree) : Place → List Step → Spot → Prop where
  | stop (dir : Place) : Leads t dir [] { place := dir, entry := some .directory }
  | idle {dir : Place} {step : Step} {rest : List Step} {spot : Spot} (hstep : ∀ n, step ≠ .name n)
      (hrest : Leads t (step.move dir) rest spot) : Leads t dir (step :: rest) spot
  | enter {dir : Place} {n : Text} {rest : List Step} {spot : Spot}
      (hname : Text.byteLength n ≤ maxNameBytes) (hdir : t.get? (dir ++ [n]) = some .directory)
      (hrest : Leads t (dir ++ [n]) rest spot) : Leads t dir (.name n :: rest) spot
  | last {dir : Place} {n : Text} {rest : List Step} (hname : Text.byteLength n ≤ maxNameBytes)
      (hentry : t.get? (dir ++ [n]) ≠ some .directory) (hrest : rest = [] ∨ rest = [.slash]) :
      Leads t dir (.name n :: rest)
        { place := dir ++ [n], entry := t.get? (dir ++ [n]), slashed := rest == [.slash] }

theorem isLast_iff {rest : List Step} :
    (rest.isEmpty || rest == [.slash]) = true ↔ rest = [] ∨ rest = [.slash] := by
  simp

theorem leads_of_walkWith {t : Tree} (hl : t.LinkFree) {last : LastLink}
    {onLink : Place → Path → List Step → Except Fault Spot} {dir : Place} {steps : List Step}
    {spot : Spot} (h : t.walkWith last onLink dir steps = .ok spot) : t.Leads dir steps spot := by
  induction steps generalizing dir with
  | nil =>
    rw [← Except.ok.inj h]
    exact .stop dir
  | cons step rest ih =>
    cases step with
    | stay | slash | up => exact .idle (by simp) (ih h)
    | name n =>
      unfold walkWith at h
      split at h
      · cases h
      next hname =>
      dsimp only at h
      split at h
      · next hdir => exact .enter (Nat.le_of_not_lt hname) hdir (ih h)
      · next target hlink => exact absurd hlink (hl _ target)  -- `onLink` is never asked
      · next c hfile =>
        split at h
        · next hrest =>
          rw [← Except.ok.inj h, ← hfile]
          exact .last (Nat.le_of_not_lt hname) (by simp [hfile]) (isLast_iff.1 hrest)
        · cases h
      · next hnone =>
        split at h
        · next hrest =>
          rw [← Except.ok.inj h, ← hnone]
          exact .last (Nat.le_of_not_lt hname) (by simp [hnone]) (isLast_iff.1 hrest)
        · cases h

theorem Leads.walkWith_eq {t : Tree} (hl : t.LinkFree) {dir : Place} {steps : List Step}
    {spot : Spot} (h : t.Leads dir steps spot) (last : LastLink)
    (onLink : Place → Path → List Step → Except Fault Spot) :
    t.walkWith last onLink dir steps = .ok spot := by
  induction h with
  | stop => rfl
  | @idle dir step rest spot hstep _ ih =>
    cases step with
    | stay | slash | up => exact ih
    | name n => exact absurd rfl (hstep n)
  | enter hname hdir _ ih =>
    rw [walkWith, if_neg (Nat.not_lt.2 hname)]
    simp only [hdir]
    exact ih
  | last hname hentry hrest =>
    rw [walkWith, if_neg (Nat.not_lt.2 hname)]
    dsimp only
    split
    · next h => exact absurd h hentry
    · next target h => exact absurd h (hl _ target)
    · next c h => rw [if_pos (isLast_iff.2 hrest), h]
    · next h => rw [if_pos (isLast_iff.2 hrest), h]

theorem exists_walk_eq (t : Tree) (last : LastLink) (links : Nat) :
    ∃ onLink, t.walk last links = t.walkWith last onLink := by
  cases links <;> exact ⟨_, rfl⟩

theorem locate_eq_ok_iff {t : Tree} (hl : t.LinkFree) {last : LastLink} {p : Path} {spot : Spot} :
    t.locate last p = .ok spot ↔
      pathFault? p = none ∧ t.Leads (start t.here p) p.steps spot := by
  obtain ⟨onLink, hwalk⟩ := t.exists_walk_eq last maxLinks
  unfold locate
  rw [hwalk]
  constructor
  · intro h
    split at h
    · cases h
    · next hfault => exact ⟨hfault, leads_of_walkWith hl h⟩
  · rintro ⟨hfault, h⟩
    rw [hfault]
    exact h.walkWith_eq hl last onLink

namespace Leads
variable {t u : Tree} {dir : Place} {steps : List Step} {spot : Spot}

theorem place_eq (h : t.Leads dir steps spot) : spot.place = steps.foldl Step.move dir := by
  induction h with
  | stop => rfl
  | idle _ _ ih => exact ih
  | enter _ _ _ ih => exact ih
  | last _ _ hrest => rcases hrest with rfl | rfl <;> rfl

theorem entry_eq (h : t.Leads dir steps spot) (he : spot.entry ≠ some .directory) :
    spot.place ≠ [] ∧ spot.entry = t.get? spot.place := by
  induction h with
  | stop => exact absurd rfl he
  | idle _ _ ih => exact ih he
  | enter _ _ _ ih => exact ih he
  | last => exact ⟨by simp, rfl⟩

theorem exists_name (h : t.Leads dir steps spot) (he : spot.entry ≠ some .directory) :
    ∃ init n, steps = init ++ [.name n] ∨ steps = init ++ [.name n, .slash] := by
  induction h with
  | stop => exact absurd rfl he
  | idle _ _ ih | enter _ _ _ ih =>
    obtain ⟨init, n, h | h⟩ := ih he
    · exact ⟨_ :: init, n, .inl (by rw [h]; rfl)⟩
    · exact ⟨_ :: init, n, .inr (by rw [h]; rfl)⟩
  | @last dir n rest _ _ hrest =>
    rcases hrest with rfl | rfl
    · exact ⟨[], n, .inl rfl⟩
    · exact ⟨[], n, .inr rfl⟩

theorem keep (h : t.Leads dir steps spot) (hk : t.KeepsDirectories u)
    (he : spot.entry ≠ some .directory) (hu : u.get? spot.place ≠ some .directory) :
    u.Leads dir steps { spot with entry := u.get? spot.place } := by
  induction h with
  | stop => exact absurd rfl he
  | idle hstep _ ih => exact .idle hstep (ih he hu)
  | enter hname hdir _ ih => exact .enter hname (hk _ hdir) (ih he hu)
  | last hname _ hrest => exact .last hname hu hrest

end Leads
end PatternBridge.Tree
