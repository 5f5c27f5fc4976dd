import Mathlib.Data.List.MinMax
import Mathlib.Data.List.Sort
import PatternBridge.Proofs.Files.Spelling

/-! What is collected below a directory, and in which order. The lists are parts of a walk that goes
through each directory by name and down where it meets one, and by their components the paths of
such a walk only increase. -/

namespace PatternBridge

section
variable {α : Type} [Ord α]

theorem compare_append_append [Std.ReflOrd α] (xs ys zs : List α) :
    compare (xs ++ ys) (xs ++ zs) = compare ys zs := by
  induction xs with
  | nil => rfl
  | cons x xs ih =>
    rw [List.compare_eq_compareLex] at ih ⊢
    rw [List.cons_append, List.cons_append, List.compareLex_cons_cons, Std.ReflOrd.compare_self, ih]
    rfl

theorem compare_cons_cons {x y : α} {xs ys : List α} :
    compare (x :: xs) (y :: ys) = (compare x y).then (compare xs ys) := by
  rw [List.compare_eq_compareLex, List.compareLex_cons_cons]

end

namespace Place
variable {a b : Place}

theorem before_append_iff (dir : Place) : Before (dir ++ a) (dir ++ b) ↔ Before a b := by
  rw [Before, compare_append_append]

theorem before_cons_iff {n m : Text} :
    Before (n :: a) (m :: b) ↔ compare n m = .lt ∨ n = m ∧ Before a b := by
  rw [Before, compare_cons_cons, Ordering.then_eq_lt, Std.LawfulEqOrd.compare_eq_iff_eq]

end Place

namespace Path

/-- Where a component stands among those that are no names; names come behind them. -/
def Component.rank : Component → Nat
  | root => 0
  | stay => 1
  | up => 2
  | name _ => 3

instance : Ord Component where
  compare
    | .name n, .name m => compare n m
    | c, d => compare c.rank d.rank

instance : Std.ReflOrd Component where
  compare_self {c} := by
    cases c with
    | name n => exact Std.ReflOrd.compare_self (a := n)
    | _ => rfl

def Before (p q : Path) : Prop := compare p.components q.components = .lt

instance : Std.Irrefl Before := ⟨fun p h => by simp [Before, Std.ReflOrd.compare_self] at h⟩

theorem compare_map_name (ns ms : List Text) :
    compare (ns.map Component.name) (ms.map Component.name) = compare ns ms := by
  induction ns generalizing ms with
  | nil => cases ms <;> rfl
  | cons n ns ih =>
    cases ms with
    | nil => rfl
    | cons m ms =>
      rw [List.map_cons, List.map_cons, compare_cons_cons, compare_cons_cons, ih]
      rfl

theorem before_pathTo_iff (p : Path) {ns ms : List Text} (hns : ∀ n ∈ ns, IsName n)
    (hms : ∀ m ∈ ms, IsName m) :
    (Tree.pathTo p ns).Before (Tree.pathTo p ms) ↔ Place.Before ns ms := by
  rw [Before, components_pathTo p hns, components_pathTo p hms, compare_append_append,
    compare_map_name]

end Path

namespace Tree
variable {t : Tree} {dir : Place} {ls : List (Text × Entry)} {w : List (List Text × Entry)}

/-- All that is in a directory, by name. -/
structure IsListing (t : Tree) (dir : Place) (ls : List (Text × Entry)) : Prop where
  sorted : ls.Pairwise fun a b => compare a.1 b.1 = .lt
  mem_iff : ∀ {n : Text} {e : Entry}, (n, e) ∈ ls ↔ t.get? (dir ++ [n]) = some e

/-- A visit to entries of a directory one after the other; each directory is followed by all that
is below it. What is found is told by the names that lead to it. -/
inductive Visits (t : Tree) : Place → List (Text × Entry) → List (List Text × Entry) → Prop
  | nil {dir : Place} : Visits t dir [] []
  | leaf {dir : Place} {n : Text} {e : Entry} {ls : List (Text × Entry)}
    {w : List (List Text × Entry)} (he : e ≠ .directory) (hrest : Visits t dir ls w) :
    Visits t dir ((n, e) :: ls) (([n], e) :: w)
  | directory {dir : Place} {n : Text} {inner ls : List (Text × Entry)}
    {sub w : List (List Text × Entry)} (hlist : t.IsListing (dir ++ [n]) inner)
    (hsub : Visits t (dir ++ [n]) inner sub) (hrest : Visits t dir ls w) :
    Visits t dir ((n, .directory) :: ls)
      (([n], .directory) :: (sub.map (fun x => (n :: x.1, x.2)) ++ w))

def Walks (t : Tree) (dir : Place) (w : List (List Text × Entry)) : Prop :=
  ∃ ls, t.IsListing dir ls ∧ t.Visits dir ls w

/-- What is found are the entries with the given first names, in order. -/
structure Visited (t : Tree) (dir : Place) (firsts : List Text) (w : List (List Text × Entry)) :
    Prop where
  sorted : w.Pairwise fun a b => Place.Before a.1 b.1
  mem_iff : ∀ {names : List Text} {e : Entry}, (names, e) ∈ w ↔
    t.get? (dir ++ names) = some e ∧ ∃ n ∈ firsts, ∃ rest, names = n :: rest

theorem below_pairwise (t : Tree) (dir : Place) :
    (t.below dir).Pairwise fun a b => Place.Before a.1 b.1 :=
  (below_sorted t dir).imp (Place.before_append_iff dir).1

instance : Std.Irrefl fun a b : List Text × Entry => Place.Before a.1 b.1 := ⟨fun _ h => h.ne rfl⟩

instance : Std.Antisymm fun a b : List Text × Entry => Place.Before a.1 b.1 :=
  ⟨fun _ _ h k => absurd rfl (h.trans k).ne⟩

theorem Visited.eq_below (h : t.Visited dir (ls.map Prod.fst) w) (hw : t.WellFormed)
    (hlist : t.IsListing dir ls) : w = t.below dir := by
  refine h.sorted.eq_of_mem_iff (below_pairwise t dir) fun ⟨names, e⟩ => ?_
  rw [h.mem_iff, mem_below]
  constructor
  · rintro ⟨hget, n, -, rest, rfl⟩
    exact ⟨List.cons_ne_nil _ _, hget⟩
  · rintro ⟨hne, hget⟩
    obtain ⟨n, rest, rfl⟩ := List.exists_cons_of_ne_nil hne
    refine ⟨hget, n, ?_, rest, rfl⟩
    have hfirst : ∃ f, t.get? (dir ++ [n]) = some f := by
      cases rest with
      | nil => exact ⟨e, hget⟩
      | cons m rest => exact ⟨.directory, hw.above (by simpa using hget)⟩
    obtain ⟨f, hf⟩ := hfirst
    exact List.mem_map_of_mem (hlist.mem_iff.2 hf) (f := Prod.fst)

theorem Visited.cons {n : Text} {e : Entry} {firsts : List Text} (h : t.Visited dir firsts w)
    (hget : t.get? (dir ++ [n]) = some e) (hfirst : ∀ m ∈ firsts, compare n m = .lt) :
    t.Visited dir (n :: firsts)
      (([n], e) :: ((t.below (dir ++ [n])).map (fun x => (n :: x.1, x.2)) ++ w)) where
  sorted := by
    have hlater {rest : List Text} {x : List Text × Entry} (hx : x ∈ w) :
        Place.Before (n :: rest) x.1 := by
      obtain ⟨-, m, hm, rest', hnames⟩ := h.mem_iff.1 hx
      exact hnames ▸ Place.before_cons_iff.2 (.inl (hfirst m hm))
    rw [List.pairwise_cons, List.pairwise_append, List.pairwise_map]
    refine ⟨fun x hx => ?_, ?_, h.sorted, fun x hx y hy => ?_⟩
    · obtain hx | hx := List.mem_append.1 hx
      · obtain ⟨⟨names, f⟩, hbelow, rfl⟩ := List.mem_map.1 hx
        refine Place.before_cons_iff.2 (.inr ⟨rfl, ?_⟩)
        obtain ⟨m, rest, rfl⟩ := List.exists_cons_of_ne_nil (mem_below.1 hbelow).1
        rfl
      · exact hlater hx
    · exact (below_pairwise t _).imp fun hab => Place.before_cons_iff.2 (.inr ⟨rfl, hab⟩)
    · obtain ⟨z, -, rfl⟩ := List.mem_map.1 hx
      exact hlater hy
  mem_iff := by
    intro names f
    rw [List.mem_cons, List.mem_append, List.mem_map, h.mem_iff]
    constructor
    · rintro (hnew | ⟨⟨rest, f⟩, hbelow, hnew⟩ | ⟨hf, m, hm, hnames⟩)
      · obtain ⟨rfl, rfl⟩ := Prod.mk.inj hnew
        exact ⟨hget, n, List.mem_cons_self, [], rfl⟩
      · obtain ⟨rfl, rfl⟩ := Prod.mk.inj hnew
        have hf := (mem_below.1 hbelow).2
        rw [List.append_assoc, List.singleton_append] at hf
        exact ⟨hf, n, List.mem_cons_self, rest, rfl⟩
      · exact ⟨hf, m, List.mem_cons_of_mem _ hm, hnames⟩
    · rintro ⟨hf, m, hm, rest, rfl⟩
      obtain rfl | hm := List.mem_cons.1 hm
      · cases rest with
        | nil => exact .inl (Prod.ext rfl (Option.some.inj (hf.symm.trans hget)))
        | cons k rest =>
          refine .inr (.inl ⟨(k :: rest, f), mem_below.2 ⟨List.cons_ne_nil _ _, ?_⟩, rfl⟩)
          rwa [List.append_assoc, List.singleton_append]
      · exact .inr (.inr ⟨hf, m, hm, rest, rfl⟩)

/-- By the visit itself: what stands below a directory on the way is all that is below it. -/
theorem Visits.visited (hw : t.WellFormed) (h : t.Visits dir ls w)
    (hsorted : ls.Pairwise fun a b => compare a.1 b.1 = .lt)
    (hget : ∀ x ∈ ls, t.get? (dir ++ [x.1]) = some x.2) : t.Visited dir (ls.map Prod.fst) w := by
  have hfirst {n : Text} {e : Entry} {ls : List (Text × Entry)}
      (hs : ((n, e) :: ls).Pairwise fun a b => compare a.1 b.1 = .lt) (m : Text)
      (hm : m ∈ ls.map Prod.fst) : compare n m = .lt := by
    obtain ⟨x, hx, rfl⟩ := List.mem_map.1 hm
    exact (List.pairwise_cons.1 hs).1 x hx
  induction h with
  | nil => exact ⟨.nil, by simp⟩
  | leaf he _ ih =>
    have hentry := hget _ List.mem_cons_self
    have hrest := ih hsorted.of_cons fun x hx => hget x (List.mem_cons_of_mem _ hx)
    have hall := hrest.cons hentry (hfirst hsorted)
    rwa [below_eq_nil hw (by simpa [hentry] using he)] at hall
  | directory hlist _ _ ihsub ih =>
    have hentry := hget _ List.mem_cons_self
    have hrest := ih hsorted.of_cons fun x hx => hget x (List.mem_cons_of_mem _ hx)
    have hsub := ihsub hlist.sorted fun x hx => hlist.mem_iff.1 hx
    rw [hsub.eq_below hw hlist]
    exact hrest.cons hentry (hfirst hsorted)

theorem Walks.eq_below (hw : t.WellFormed) (h : t.Walks dir w) : w = t.below dir := by
  obtain ⟨ls, hlist, hvisits⟩ := h
  exact (hvisits.visited hw hlist.sorted fun x hx => hlist.mem_iff.1 hx).eq_below hw hlist

def child? : List Text × Entry → Option (Text × Entry)
  | ([n], e) => some (n, e)
  | _ => none

theorem child?_eq_some {x : List Text × Entry} {n : Text} {e : Entry} :
    child? x = some (n, e) ↔ x = ([n], e) := by
  fun_cases child? x with
  | case1 => simp
  | case2 x hx => exact iff_of_false (by simp) (hx n e)

theorem exists_isListing (t : Tree) (dir : Place) : ∃ ls, t.IsListing dir ls := by
  refine ⟨(t.below dir).filterMap child?, ?_, fun {n e} => ?_⟩
  · refine (below_pairwise t dir).filterMap _ fun a b hab x hx y hy => ?_
    rw [child?_eq_some.1 hx, child?_eq_some.1 hy, Place.before_cons_iff] at hab
    exact hab.resolve_right fun h => absurd rfl h.2.ne
  · rw [List.mem_filterMap]
    constructor
    · rintro ⟨x, hbelow, hx⟩
      rw [child?_eq_some.1 hx] at hbelow
      exact (mem_below.1 hbelow).2
    · intro hget
      exact ⟨([n], e), mem_below.2 ⟨List.cons_ne_nil _ _, hget⟩, rfl⟩

theorem exists_walks_of_inner
    (h : ∀ n, t.get? (dir ++ [n]) = some .directory → ∃ w, t.Walks (dir ++ [n]) w) :
    ∃ w, t.Walks dir w := by
  have hvisits (ls : List (Text × Entry)) (hget : ∀ x ∈ ls, t.get? (dir ++ [x.1]) = some x.2) :
      ∃ w, t.Visits dir ls w := by
    induction ls with
    | nil => exact ⟨[], .nil⟩
    | cons x ls ih =>
      obtain ⟨n, e⟩ := x
      obtain ⟨w, hw⟩ := ih fun x hx => hget x (List.mem_cons_of_mem _ hx)
      by_cases he : e = .directory
      · subst he
        obtain ⟨sub, inner, hlist, hsub⟩ := h n (hget _ List.mem_cons_self)
        exact ⟨_, .directory hlist hsub hw⟩
      · exact ⟨_, .leaf he hw⟩
  obtain ⟨ls, hlist⟩ := exists_isListing t dir
  obtain ⟨w, hw⟩ := hvisits ls fun x hx => hlist.mem_iff.1 hx
  exact ⟨w, ls, hlist, hw⟩

/-- By induction on how much deeper than the directory the tree goes. -/
theorem exists_walks (t : Tree) (dir : Place) : ∃ w, t.Walks dir w := by
  have key (k : Nat) (dir : Place) (hdepth : ∀ x ∈ t.entries, x.1.length ≤ dir.length + k) :
      ∃ w, t.Walks dir w := by
    induction k generalizing dir with
    | zero =>
      refine exists_walks_of_inner fun n hn => ?_
      have hlength := hdepth _ ((get?_eq_some_iff_mem (by simp)).1 hn)
      rw [List.length_append] at hlength
      exact absurd hlength (Nat.not_succ_le_self _)
    | succ k ih =>
      refine exists_walks_of_inner fun n _ => ih _ fun x hx => (hdepth x hx).trans ?_
      rw [List.length_append, List.length_singleton]
      omega
  have hdepth (x : Place × Entry) (hx : x ∈ t.entries) :
      x.1.length ≤ (t.entries.map fun x => x.1.length).foldr max 0 :=
    List.le_max_of_le' 0 (List.mem_map_of_mem hx) le_rfl
  exact key _ dir fun x hx => (hdepth x hx).trans (Nat.le_add_left _ _)

section
variable {p : Path} {place : Place}

/-- A link at the end makes the only difference between following links and keeping the last. -/
theorem walk_follow_of_keep {links : Nat} {steps : List Step} {spot : Spot}
    (h : t.walk .keep links dir steps = .ok spot) (he : ∀ target, spot.entry ≠ some (.link target)) :
    t.walk .follow links dir steps = .ok spot := by
  -- first along the steps, whatever becomes of a link, then by induction on the links that are left
  have key (onLink onLink' : Place → Path → List Step → Except Fault Spot)
      (hsame : ∀ dir target rest, onLink dir target rest = .ok spot →
        onLink' dir target rest = .ok spot) (dir : Place) (steps : List Step)
      (h : t.walkWith .keep onLink dir steps = .ok spot) :
      t.walkWith .follow onLink' dir steps = .ok spot := by
    induction steps generalizing dir with
    | nil => exact h
    | cons step rest ih =>
      cases step with
      | stay | slash | up => exact ih _ h
      | name n =>
        unfold walkWith at h ⊢
        split at h
        · cases h
        next hname =>
        rw [if_neg hname]
        dsimp only at h ⊢
        cases hentry : t.get? (dir ++ [n]) with
        | none => rwa [hentry] at h
        | some e =>
          rw [hentry] at h
          cases e with
          | directory => exact ih _ h
          | file c => exact h
          | link target =>
            have hfollows : ¬ ((rest.isEmpty || rest == [.slash]) &&
                !LastLink.follows .follow (rest == [.slash])) = true := by simp [LastLink.follows]
            dsimp only at h ⊢
            rw [if_neg hfollows]
            split at h
            · exact absurd (congrArg Spot.entry (Except.ok.inj h)).symm (he target)
            · exact hsame _ _ _ h
  induction links generalizing dir steps with
  | zero => exact key _ _ (fun _ _ _ hfault => hfault) dir steps h
  | succ links ih => exact key _ _ (fun _ _ _ hlink => ih hlink) dir steps h

theorem isFile_of_mem_foundAt (h : t.status p = .ok (place, .directory)) {f : Found}
    (hf : f ∈ t.foundAt p) : f.entry.isFile = false := by
  unfold foundAt at hf
  split at hf
  · next q e hlink =>
    obtain rfl := List.mem_singleton.1 hf
    cases e with
    | directory => rfl
    | link target => rfl
    | file c =>
      obtain ⟨spot, hspot, hpresent⟩ := exists_of_bind_eq_ok hlink
      obtain ⟨-, he, -⟩ := present_eq_ok hpresent
      have hfollow : t.locate .follow p = .ok spot := by
        unfold locate at hspot ⊢
        split at hspot
        · cases hspot
        · exact walk_follow_of_keep hspot (by simp [he])
      rw [status, hfollow] at h
      cases hpresent.symm.trans h
  · cases hf

/-- What is collected are the paths of those entries of a walk that are listed and wanted, in the same
order. -/
theorem collected_eq (h : t.status p = .ok (place, .directory)) (wanted : Found → Bool) :
    ((t.foundBelow p).filter wanted).map Found.path =
      ((t.listedBelow p place).filter fun x =>
        wanted { path := pathTo p x.1, name := x.1.getLast?.getD [], entry := x.2 }).map
          fun x => pathTo p x.1 := by
  rw [foundBelow, h, List.filter_map, List.map_map]
  rfl

theorem collected_sublist (h : t.status p = .ok (place, .directory)) (wanted : Found → Bool) :
    (((t.foundBelow p).filter wanted).map Found.path).Sublist
      ((t.below place).map fun x => pathTo p x.1) := by
  rw [collected_eq h]
  exact (List.filter_sublist.trans List.filter_sublist).map _

theorem mem_collected_iff (h : t.status p = .ok (place, .directory)) {wanted : Found → Bool}
    {x : Path} :
    x ∈ ((t.foundBelow p).filter wanted).map Found.path ↔
      ∃ dirs n e, pathFault? (pathTo p dirs) = none ∧ t.get? (place ++ (dirs ++ [n])) = some e ∧
        x = pathTo p (dirs ++ [n]) ∧ wanted { path := x, name := n, entry := e } = true := by
  rw [collected_eq h, List.mem_map]
  constructor
  · rintro ⟨⟨names, e⟩, hx, rfl⟩
    obtain ⟨hbelow, hwanted⟩ := List.mem_filter.1 hx
    obtain ⟨⟨hne, hget⟩, hlisted⟩ := mem_listedBelow.1 hbelow
    obtain ⟨dirs, n, rfl⟩ := (List.eq_nil_or_concat names).resolve_left hne
    rw [List.concat_eq_append] at hget hlisted hwanted ⊢
    rw [List.getLast?_concat] at hwanted
    rw [isListed_iff, List.dropLast_concat] at hlisted
    exact ⟨dirs, n, e, hlisted, hget, rfl, hwanted⟩
  · rintro ⟨dirs, n, e, htaken, hget, rfl, hwanted⟩
    refine ⟨(dirs ++ [n], e), List.mem_filter.2 ⟨mem_listedBelow.2 ⟨⟨by simp, hget⟩, ?_⟩, ?_⟩, rfl⟩
    · rw [isListed_iff, List.dropLast_concat]
      exact htaken
    · rw [List.getLast?_concat]
      exact hwanted

theorem collected_pairwise (hw : t.WellFormed) (h : t.status p = .ok (place, .directory))
    (wanted : Found → Bool) :
    (((t.foundBelow p).filter wanted).map Found.path).Pairwise Path.Before := by
  rw [collected_eq h, List.pairwise_map]
  refine (((below_pairwise t place).filter _).filter _).imp_of_mem fun {a b} ha hb hab => ?_
  have hnames {x : List Text × Entry} {q : List Text × Entry → Bool}
      (hx : x ∈ (t.listedBelow p place).filter q) : ∀ n ∈ x.1, Path.IsName n := fun n hn =>
    hw.named (mem_listedBelow.1 (List.mem_of_mem_filter hx)).1.2 n (List.mem_append_right _ hn)
  exact (Path.before_pathTo_iff p (hnames ha) (hnames hb)).2 hab

theorem filesEndingIn_eq (h : t.status p = .ok (place, .directory)) (suffix : Text) :
    t.filesEndingIn p suffix = ((t.foundBelow p).filter fun f =>
      f.entry.isFile && !ignoredNames.contains f.name && Text.endsWith f.name suffix &&
        f.name != suffix).map Found.path := by
  unfold filesEndingIn
  dsimp only
  rw [List.filter_append, List.filter_eq_nil_iff.2, List.nil_append]
  intro f hf
  rw [isFile_of_mem_foundAt h hf]
  simp

theorem isWanted_iff {e : Entry} {n suffix : Text} :
    (e.isFile && !ignoredNames.contains n && Text.endsWith n suffix && n != suffix) = true ↔
      (∃ c, e = .file c) ∧ suffix <:+ n ∧ n ≠ suffix ∧ n ≠ ".DS_Store".toList := by
  cases e with
  | file c =>
    simp only [Entry.isFile, ignoredNames, Text.endsWith, Bool.true_and, Bool.and_eq_true,
      Bool.not_eq_true', List.contains_eq_mem, decide_eq_false_iff_not, List.mem_singleton,
      List.isSuffixOf_iff_suffix, bne_iff_ne, Entry.file.injEq, exists_eq', true_and]
    constructor
    · rintro ⟨⟨hignored, hends⟩, hne⟩
      exact ⟨hends, hne, hignored⟩
    · rintro ⟨hends, hne, hignored⟩
      exact ⟨⟨hignored, hends⟩, hne⟩
  | _ => simp [Entry.isFile]

theorem mem_entriesEndingIn_iff (h : t.status p = .ok (place, .directory)) {suffixes : List Text}
    {x : Path} :
    x ∈ t.entriesEndingIn p suffixes ↔ ∃ dirs n e, pathFault? (pathTo p dirs) = none ∧
      t.get? (place ++ (dirs ++ [n])) = some e ∧ x = pathTo p (dirs ++ [n]) ∧
        ∃ suffix ∈ suffixes, suffix <:+ n := by
  rw [entriesEndingIn, mem_collected_iff h]
  simp only [List.any_eq_true, Text.endsWith, List.isSuffixOf_iff_suffix]

theorem mem_filesEndingIn_below_iff (h : t.status p = .ok (place, .directory)) {suffix : Text}
    {x : Path} :
    x ∈ t.filesEndingIn p suffix ↔ ∃ dirs n c, pathFault? (pathTo p dirs) = none ∧
      t.get? (place ++ (dirs ++ [n])) = some (.file c) ∧ x = pathTo p (dirs ++ [n]) ∧
        suffix <:+ n ∧ n ≠ suffix ∧ n ≠ ".DS_Store".toList := by
  rw [filesEndingIn_eq h, mem_collected_iff h]
  simp only [isWanted_iff]
  constructor
  · rintro ⟨dirs, n, _, htaken, hget, hx, ⟨c, rfl⟩, hends⟩
    exact ⟨dirs, n, c, htaken, hget, hx, hends⟩
  · rintro ⟨dirs, n, c, htaken, hget, hx, hends⟩
    exact ⟨dirs, n, _, htaken, hget, hx, ⟨c, rfl⟩, hends⟩

theorem taken_of_get? (hw : t.WellFormed) (htaken : ∀ dirs,
    t.get? (place ++ dirs) = some .directory → pathFault? (pathTo p dirs) = none)
    {dirs : List Text} {n : Text} {e : Entry} (hget : t.get? (place ++ (dirs ++ [n])) = some e) :
    pathFault? (pathTo p dirs) = none := by
  rw [← List.append_assoc] at hget
  exact htaken dirs (hw.above hget)

/-- Below a directory, exactly the entries are collected whose names end in one of the suffixes, and
exactly the files whose names end in the suffix, are longer and are not ignored; only, nothing is
collected from directories whose paths are refused. In both lists the paths increase, component by
component, so that none is there twice; and both are parts of any walk through the directory, of which
there is one. -/
theorem collected_in_order (hw : t.WellFormed) (h : t.status p = .ok (place, .directory)) :
    (∀ suffixes : List Text,
      (∀ x, x ∈ t.entriesEndingIn p suffixes ↔ ∃ dirs n e, pathFault? (pathTo p dirs) = none ∧
        t.get? (place ++ (dirs ++ [n])) = some e ∧ x = pathTo p (dirs ++ [n]) ∧
          ∃ suffix ∈ suffixes, suffix <:+ n) ∧
      (t.entriesEndingIn p suffixes).Pairwise Path.Before ∧ (t.entriesEndingIn p suffixes).Nodup) ∧
    (∀ suffix : Text,
      (∀ x, x ∈ t.filesEndingIn p suffix ↔ ∃ dirs n c, pathFault? (pathTo p dirs) = none ∧
        t.get? (place ++ (dirs ++ [n])) = some (.file c) ∧ x = pathTo p (dirs ++ [n]) ∧
          suffix <:+ n ∧ n ≠ suffix ∧ n ≠ ".DS_Store".toList) ∧
      (t.filesEndingIn p suffix).Pairwise Path.Before ∧ (t.filesEndingIn p suffix).Nodup) ∧
    ((∀ dirs, t.get? (place ++ dirs) = some .directory → pathFault? (pathTo p dirs) = none) →
      (∀ (suffixes : List Text) x, x ∈ t.entriesEndingIn p suffixes ↔ ∃ dirs n e,
        t.get? (place ++ (dirs ++ [n])) = some e ∧ x = pathTo p (dirs ++ [n]) ∧
          ∃ suffix ∈ suffixes, suffix <:+ n) ∧
      ∀ (suffix : Text) x, x ∈ t.filesEndingIn p suffix ↔ ∃ dirs n c,
        t.get? (place ++ (dirs ++ [n])) = some (.file c) ∧ x = pathTo p (dirs ++ [n]) ∧
          suffix <:+ n ∧ n ≠ suffix ∧ n ≠ ".DS_Store".toList) ∧
    (∃ w, t.Walks place w) ∧ ∀ w, t.Walks place w →
      (∀ suffixes, (t.entriesEndingIn p suffixes).Sublist (w.map fun x => pathTo p x.1)) ∧
      ∀ suffix, (t.filesEndingIn p suffix).Sublist (w.map fun x => pathTo p x.1) := by
  refine ⟨fun suffixes => ⟨fun x => mem_entriesEndingIn_iff h, collected_pairwise hw h _,
    (collected_pairwise hw h _).nodup⟩, fun suffix => ⟨fun x => mem_filesEndingIn_below_iff h, ?_, ?_⟩,
    fun htaken => ⟨fun suffixes x => ?_, fun suffix x => ?_⟩, t.exists_walks place, fun w hwalk => ?_⟩
  · rw [filesEndingIn_eq h]
    exact collected_pairwise hw h _
  · rw [filesEndingIn_eq h]
    exact (collected_pairwise hw h _).nodup
  · rw [mem_entriesEndingIn_iff h]
    refine exists₃_congr fun dirs n e => and_iff_right_of_imp fun ⟨hget, _⟩ => ?_
    exact taken_of_get? hw htaken hget
  · rw [mem_filesEndingIn_below_iff h]
    refine exists₃_congr fun dirs n c => and_iff_right_of_imp fun ⟨hget, _⟩ => ?_
    exact taken_of_get? hw htaken hget
  · have hbelow := hwalk.eq_below hw
    refine ⟨fun suffixes => ?_, fun suffix => ?_⟩
    · rw [entriesEndingIn, hbelow]
      exact collected_sublist h _
    · rw [filesEndingIn_eq h, hbelow]
      exact collected_sublist h _

end

def siblings : Tree where
  entries := [(["a".toList], .directory), (["a".toList, "b.yml".toList], .file (.text "")),
    (["a-b.yml".toList], .file (.text "")), (["a.yml".toList], .link ⟨"a/b.yml"⟩)]
  sorted := by decide
  here := []

theorem collected_in_order_siblings :
    siblings.WellFormed ∧ siblings.status ⟨"."⟩ = .ok ([], .directory) ∧
      siblings.entriesEndingIn ⟨"."⟩ [".yml"] = [⟨"./a/b.yml"⟩, ⟨"./a-b.yml"⟩, ⟨"./a.yml"⟩] ∧
      Path.Before ⟨"./a/b.yml"⟩ ⟨"./a-b.yml"⟩ ∧ Path.Before ⟨"./a-b.yml"⟩ ⟨"./a.yml"⟩ ∧
      ⟨"./a.yml"⟩ ∉ siblings.filesEndingIn ⟨"."⟩ ".yml" ∧
      ∀ x, x ∈ siblings.filesEndingIn ⟨"."⟩ ".yml" ↔ ∃ dirs n c,
        siblings.get? ([] ++ (dirs ++ [n])) = some (.file c) ∧ x = pathTo ⟨"."⟩ (dirs ++ [n]) ∧
          ".yml".toList <:+ n ∧ n ≠ ".yml".toList ∧ n ≠ ".DS_Store".toList := by
  have hw : siblings.WellFormed := by decide +kernel
  have hstatus : siblings.status ⟨"."⟩ = .ok ([], .directory) := by decide +kernel
  have hentries : siblings.entriesEndingIn ⟨"."⟩ [".yml"] =
      [⟨"./a/b.yml"⟩, ⟨"./a-b.yml"⟩, ⟨"./a.yml"⟩] := by decide +kernel
  obtain ⟨hall, -, hfull, -⟩ := collected_in_order hw hstatus
  obtain ⟨-, hsorted, -⟩ := hall [".yml"]
  obtain ⟨-, hfiles⟩ := hfull (forall_directory_of_below (by decide) (by decide +kernel))
  rw [hentries] at hsorted
  have hsorted := List.pairwise_cons.1 hsorted
  exact ⟨hw, hstatus, hentries, hsorted.1 _ (by simp),
    (List.pairwise_cons.1 hsorted.2).1 _ (by simp), by decide +kernel, hfiles ".yml"⟩

end Tree
end PatternBridge
