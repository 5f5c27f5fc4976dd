import PatternBridge.Files.Walk
import PatternBridge.Proofs.Files.Components

/-! The place that a path means: its components are followed one after the other, whatever the tree
holds. Where no links are in the way, a path leads nowhere else. -/

namespace PatternBridge

theorem Tree.pathTo_cons (p : Path) (n : Text) (names : List Text) :
    pathTo p (n :: names) = pathTo (p / ⟨n⟩) names := rfl

theorem Tree.pathTo_concat (p : Path) (names : List Text) (n : Text) :
    pathTo p (names ++ [n]) = pathTo p names / ⟨n⟩ := by
  rw [pathTo, List.foldl_append]
  rfl

namespace Path

def Component.move (dir : Place) : Component → Place
  | root => []
  | stay => dir
  | up => dir.dropLast
  | name n => dir ++ [n]

/-- The place that a path means for a working directory. -/
def placeFrom (here : Place) (p : Path) : Place := p.components.foldl Component.move here

/-- A place that a path passes through on its way to the place it means. -/
def PassesThrough (here : Place) (p : Path) (q : Place) : Prop :=
  ∃ cs c rest, p.components = cs ++ c :: rest ∧ cs.foldl Component.move here = q

theorem placeFrom_of_components (here : Place) {p : Path} {cs : List Component} {n : Text}
    (h : p.components = cs ++ [.name n]) :
    p.placeFrom here = cs.foldl Component.move here ++ [n] := by
  rw [placeFrom, h, List.foldl_append]
  rfl

theorem placeFrom_div_name (here : Place) (p : Path) {n : Text} (hn : IsName n) :
    (p / ⟨n⟩).placeFrom here = p.placeFrom here ++ [n] :=
  placeFrom_of_components here (components_div_name p hn)

theorem components_pathTo (p : Path) {names : List Text} (h : ∀ n ∈ names, IsName n) :
    (Tree.pathTo p names).components = p.components ++ names.map .name := by
  induction names generalizing p with
  | nil => simp [Tree.pathTo]
  | cons n names ih =>
    rw [Tree.pathTo_cons, ih (p / ⟨n⟩) fun m hm => h m (List.mem_cons_of_mem _ hm),
      components_div_name p (h n List.mem_cons_self)]
    simp

theorem placeFrom_pathTo (here : Place) (p : Path) {names : List Text}
    (h : ∀ n ∈ names, IsName n) :
    (Tree.pathTo p names).placeFrom here = p.placeFrom here ++ names := by
  induction names generalizing p with
  | nil => simp [Tree.pathTo]
  | cons n names ih =>
    rw [Tree.pathTo_cons, ih (p / ⟨n⟩) fun m hm => h m (List.mem_cons_of_mem _ hm),
      placeFrom_div_name here p (h n List.mem_cons_self), List.append_assoc]
    rfl

theorem passesThrough_of_mem_ancestors {here : Place} {p q r : Path} (hq : p.parent? = some q)
    (hr : r ∈ q.ancestors) : p.PassesThrough here (r.placeFrom here) := by
  obtain ⟨c, hc⟩ := components_of_parent? hq
  obtain ⟨cs, hcs⟩ := components_prefix_of_mem_ancestorsUpTo hr
  cases cs with
  | nil => exact ⟨r.components, c, [], by rw [hc, ← hcs, List.append_nil], rfl⟩
  | cons d ds => exact ⟨r.components, d, ds ++ [c], by rw [hc, ← hcs]; simp, rfl⟩

end Path

def Step.move (dir : Place) : Step → Place
  | stay => dir
  | up => dir.dropLast
  | name n => dir ++ [n]
  | slash => dir

theorem Step.foldl_move_filterMap (dir : Place) (segments : List Text) :
    (segments.filterMap Step.ofSegment?).foldl Step.move dir =
      (segments.filterMap Path.Component.ofSegment?).foldl Path.Component.move dir := by
  induction segments generalizing dir with
  | nil => rfl
  | cons s segments ih =>
    rw [List.filterMap_cons, List.filterMap_cons]
    by_cases hnil : s = []
    · subst hnil
      exact ih dir
    by_cases hstay : s = ['.']
    · subst hstay
      exact ih dir
    by_cases hup : s = ['.', '.']
    · subst hup
      exact ih dir.dropLast
    have hstep : Step.ofSegment? s = some (.name s) := by
      simp [Step.ofSegment?, hnil, hstay, hup]
    have hcomp : Path.Component.ofSegment? s = some (.name s) := by
      simp [Path.Component.ofSegment?, Path.isIdle, hnil, hstay, hup]
    rw [hstep, hcomp]
    exact ih (dir ++ [s])

/-- Following the segments of a path is following its components. -/
theorem Path.foldl_move_steps (here : Place) (p : Path) :
    p.steps.foldl Step.move (Tree.start here p) = p.placeFrom here := by
  have hslash (b : Bool) (dir : Place) :
      (if b then [Step.slash] else []).foldl Step.move dir = dir := by cases b <;> rfl
  have hanchor : p.anchor.components.foldl Component.move here = Tree.start here p := by
    unfold anchor Tree.start
    split
    · rfl
    · split <;> rfl
  rw [steps, List.foldl_append, hslash, Step.foldl_move_filterMap, placeFrom, components_eq_trail,
    List.foldl_append, hanchor]
  rfl

theorem Step.ofSegment?_eq_name {s n : Text} (h : ofSegment? s = some (.name n)) :
    Path.Component.ofSegment? s = some (.name n) := by
  unfold ofSegment? at h
  split at h
  · cases h
  next hnil =>
  split at h
  · cases h
  next hstay =>
  split at h
  · cases h
  next hup =>
  have hidle : Path.isIdle s = false := by simpa [Path.isIdle] using And.intro hnil hstay
  obtain rfl : s = n := by simpa using h
  rw [Path.Component.ofSegment?, hidle, if_neg Bool.false_ne_true, if_neg hup]

theorem Step.ofSegment?_eq_none {s : Text} (h : ofSegment? s = none) : s = [] := by
  unfold ofSegment? at h
  split at h
  · next hnil => exact List.isEmpty_iff.1 hnil
  · split at h
    · cases h
    · split at h <;> cases h

theorem Step.ofSegment?_ne_slash (s : Text) : ofSegment? s ≠ some .slash := by
  unfold ofSegment?
  split
  · simp
  · split
    · simp
    · split <;> simp

theorem Path.components_of_steps {p : Path} {init : List Step} {n : Text}
    (h : p.steps = init ++ [.name n] ∨ p.steps = init ++ [.name n, .slash]) :
    ∃ cs, p.components = cs ++ [.name n] := by
  have hnamed : p.segments.filterMap Step.ofSegment? = init ++ [.name n] := by
    have hslash : Step.slash ∉ p.segments.filterMap Step.ofSegment? := by
      intro hmem
      obtain ⟨s, -, hs⟩ := List.mem_filterMap.1 hmem
      exact Step.ofSegment?_ne_slash s hs
    unfold steps at h
    split at h
    · rcases h with h | h
      · cases (List.append_inj' h rfl).2
      · rw [show [Step.name n, Step.slash] = [.name n] ++ [.slash] from rfl,
          ← List.append_assoc] at h
        exact (List.append_inj' h rfl).1
    · rw [List.append_nil] at h
      rcases h with h | h
      · exact h
      · rw [h] at hslash
        simp at hslash
  obtain ⟨before, onward, hsegments, -, hlast⟩ := List.filterMap_eq_append_iff.1 hnamed
  obtain ⟨idle, s, after, rfl, -, hs, hafter⟩ := List.filterMap_eq_cons_iff.1 hlast
  -- behind the name only empty segments follow, which have no components either
  have htail : (s :: after).filterMap Component.ofSegment? = [.name n] := by
    rw [List.filterMap_cons, Step.ofSegment?_eq_name hs, List.filterMap_eq_nil_iff.2]
    intro a ha
    rw [Step.ofSegment?_eq_none (List.filterMap_eq_nil_iff.1 hafter a ha)]
    rfl
  rw [components_eq, hsegments, ← List.append_assoc]
  by_cases hnil : before ++ idle = []
  · have hidle : isIdle s = false := by
      have hcomp := Step.ofSegment?_eq_name hs
      unfold Component.ofSegment? at hcomp
      split at hcomp
      · cases hcomp
      · next hidle => simpa using hidle
    exact ⟨[], by rw [hnil, List.nil_append, componentsOf_idle hidle, htail]; rfl⟩
  by_cases hroot : before ++ idle = [[]]
  · rw [hroot]
    exact ⟨[.root], congrArg (Component.root :: ·) htail⟩
  · exact ⟨_, by rw [componentsOf_append hnil hroot, htail]⟩

end PatternBridge
