import PatternBridge.Proofs.Files.Found

/-! What a walk collects in any tree, links included. A collected path ends in the name of a file,
and no two of them have the same components. -/

namespace PatternBridge

/-- The last step is to a name, at most with a slash behind it. -/
def Step.EndInName (steps : List Step) : Prop :=
  ∃ init n, steps = init ++ [.name n] ∨ steps = init ++ [.name n, .slash]

namespace Step.EndInName

theorem cons {steps : List Step} (h : EndInName steps) (step : Step) : EndInName (step :: steps) := by
  obtain ⟨init, n, rfl | rfl⟩ := h
  · exact ⟨step :: init, n, .inl rfl⟩
  · exact ⟨step :: init, n, .inr rfl⟩

theorem of_append {before steps : List Step} (h : EndInName (before ++ steps)) (hnil : steps ≠ [])
    (hslash : steps ≠ [.slash]) : EndInName steps := by
  rcases List.eq_nil_or_concat steps with rfl | ⟨front, last, rfl⟩
  · exact absurd rfl hnil
  rw [List.concat_eq_append] at h hslash ⊢
  obtain ⟨init, n, h | h⟩ := h
  · rw [← List.append_assoc] at h
    have hlast : last = .name n := List.singleton_inj.1 (List.append_inj' h rfl).2
    exact ⟨front, n, .inl (by rw [hlast])⟩
  · have hsplit : init ++ [.name n, .slash] = (init ++ [.name n]) ++ [.slash] := by simp
    rw [hsplit, ← List.append_assoc] at h
    obtain ⟨hfront, hlast⟩ := List.append_inj' h rfl
    have hlast : last = .slash := List.singleton_inj.1 hlast
    rcases List.eq_nil_or_concat front with rfl | ⟨start, step, rfl⟩
    · rw [hlast] at hslash
      exact absurd rfl hslash
    · rw [List.concat_eq_append, ← List.append_assoc] at hfront
      have hstep : step = .name n := List.singleton_inj.1 (List.append_inj' hfront rfl).2
      exact ⟨start, n, .inr (by rw [hlast, hstep]; simp)⟩

end Step.EndInName

namespace Tree
variable {t : Tree} {p : Path}

/-- What is found as anything but a directory is found by a name, also through links. -/
theorem endInName_of_walk {last : LastLink} {links : Nat} {dir : Place} {steps : List Step}
    {spot : Spot} (h : t.walk last links dir steps = .ok spot)
    (he : spot.entry ≠ some .directory) : Step.EndInName steps := by
  -- first along the steps, whatever becomes of a link, then by induction on the links that are left
  have key (onLink : Place → Path → List Step → Except Fault Spot)
      (honLink : ∀ dir target rest, onLink dir target rest = .ok spot →
        Step.EndInName (target.steps ++ rest)) (dir : Place) (steps : List Step)
      (h : t.walkWith last onLink dir steps = .ok spot) : Step.EndInName steps := by
    induction steps generalizing dir with
    | nil =>
      rw [← Except.ok.inj h] at he
      exact absurd rfl he
    | cons step rest ih =>
      cases step with
      | stay | slash | up => exact (ih _ h).cons _
      | name n =>
        by_cases hlast : rest = [] ∨ rest = [.slash]
        · rcases hlast with rfl | rfl
          · exact ⟨[], n, .inl rfl⟩
          · exact ⟨[], n, .inr rfl⟩
        have hmore : (rest.isEmpty || rest == [.slash]) = false := by
          rw [← Bool.not_eq_true, isLast_iff]
          exact hlast
        rw [not_or] at hlast
        unfold walkWith at h
        split at h
        · cases h
        simp only [hmore, Bool.false_and, Bool.false_eq_true, if_false] at h
        split at h
        · exact (ih _ h).cons _
        · exact ((honLink _ _ _ h).of_append hlast.1 hlast.2).cons _
        · cases h
        · cases h
  induction links generalizing dir steps with
  | zero => exact key _ (fun _ _ _ hfault => by cases hfault) dir steps h
  | succ links ih => exact key _ (fun _ _ _ hlink => ih hlink) dir steps h

theorem components_of_locate {last : LastLink} {spot : Spot} (h : t.locate last p = .ok spot)
    (he : spot.entry ≠ some .directory) : ∃ cs n, p.components = cs ++ [.name n] := by
  unfold locate at h
  split at h
  · cases h
  · obtain ⟨init, n, hsteps⟩ := endInName_of_walk h he
    obtain ⟨cs, hcs⟩ := Path.components_of_steps hsteps
    exact ⟨cs, n, hcs⟩

theorem components_of_mem_foundAt {f : Found} (h : f ∈ t.foundAt p)
    (he : f.entry ≠ .directory) :
    f.path = p ∧ ∃ cs, p.components = cs ++ [.name f.name] := by
  unfold foundAt at h
  split at h
  · next q e hstatus =>
    obtain rfl := List.mem_singleton.1 h
    obtain ⟨spot, hspot, hpresent⟩ := exists_of_bind_eq_ok hstatus
    obtain ⟨-, hentry, -⟩ := present_eq_ok hpresent
    have hfile : spot.entry ≠ some .directory := by simpa [hentry] using he
    obtain ⟨cs, n, hcs⟩ := components_of_locate hspot hfile
    exact ⟨rfl, cs, by rw [hcs, Path.fileName?_of_components hcs]; rfl⟩
  · simp at h

theorem components_of_mem_foundBelow (hw : t.WellFormed) {f : Found} (h : f ∈ t.foundBelow p) :
    ∃ cs, f.path.components = p.components ++ cs ++ [.name f.name] := by
  unfold foundBelow at h
  split at h
  · obtain ⟨⟨names, e⟩, hbelow, rfl⟩ := List.mem_map.1 h
    obtain ⟨⟨hne, hget⟩, -⟩ := mem_listedBelow.1 hbelow
    have hnames : ∀ n ∈ names, Path.IsName n :=
      fun n hn => hw.named hget n (List.mem_append_right _ hn)
    rcases List.eq_nil_or_concat names with rfl | ⟨init, n, rfl⟩
    · exact absurd rfl hne
    · refine ⟨init.map .name, ?_⟩
      rw [Path.components_pathTo p hnames]
      simp
  · simp at h

theorem components_of_mem_collected (hw : t.WellFormed) {suffix : Text}
    (hdot : suffix.head? = some '.') {x : Path} (hx : x ∈ t.filesEndingIn p suffix) :
    ∃ cs stem, x.components = cs ++ [.name (stem ++ suffix)] ∧ stem ≠ [] := by
  obtain ⟨f, hmem, rfl, ⟨c, hc⟩, stem, hstem, hne⟩ := (mem_filesEndingIn_iff hdot).1 hx
  rcases List.mem_append.1 hmem with hmem | hmem
  · obtain ⟨hpath, cs, hcs⟩ := components_of_mem_foundAt hmem (by simp [hc])
    exact ⟨cs, stem, by rw [hpath, hcs, hstem], hne⟩
  · obtain ⟨cs, hcs⟩ := components_of_mem_foundBelow hw hmem
    exact ⟨_, stem, by rw [hcs, hstem], hne⟩

theorem foundBelow_pairwise (hw : t.WellFormed) (p : Path) :
    (t.foundBelow p).Pairwise fun f g => f.path.components ≠ g.path.components := by
  unfold foundBelow
  split
  · next place _ =>
    rw [List.pairwise_map]
    apply ((below_sorted t place).filter _).imp_of_mem
    intro a b ha hb hab heq
    have hnames {x : List Text × Entry} (hx : x ∈ t.listedBelow p place) :
        ∀ n ∈ x.1, Path.IsName n :=
      fun n hn => hw.named (mem_listedBelow.1 hx).1.2 n (List.mem_append_right _ hn)
    have heq : (pathTo p a.1).components = (pathTo p b.1).components := heq
    rw [Path.components_pathTo p (hnames ha), Path.components_pathTo p (hnames hb)] at heq
    have hinj : Function.Injective Path.Component.name := fun _ _ h => Path.Component.name.inj h
    have hsame : a.1 = b.1 := hinj.list_map (List.append_cancel_left heq)
    rw [hsame] at hab
    exact hab.ne rfl
  · exact .nil

theorem filesEndingIn_pairwise (hw : t.WellFormed) (p : Path) (suffix : Text) :
    (t.filesEndingIn p suffix).Pairwise fun x y => x.components ≠ y.components := by
  unfold filesEndingIn
  rw [List.pairwise_map, List.filter_append, List.pairwise_append]
  refine ⟨?_, (foundBelow_pairwise hw p).filter _, ?_⟩
  · apply List.Pairwise.filter
    unfold foundAt
    split
    · exact List.pairwise_singleton _ _
    · exact .nil
  · intro f hf g hg heq
    obtain ⟨cs, hcs⟩ := components_of_mem_foundBelow hw (List.mem_filter.1 hg).1
    have hpath : f.path = p := by
      have hf := (List.mem_filter.1 hf).1
      unfold foundAt at hf
      split at hf
      · rw [List.mem_singleton.1 hf]
      · simp at hf
    rw [hpath, hcs, List.append_assoc] at heq
    have hlength := congrArg List.length heq
    simp at hlength

end Tree
end PatternBridge
