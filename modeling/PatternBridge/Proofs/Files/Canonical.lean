import PatternBridge.Files.Canonical
import PatternBridge.Proofs.Files.Below
import PatternBridge.Proofs.Text.Bytes

/-! Full paths. A path is resolved to a place at which there is something and no link, and a file that
is read by the full path of a place is at that place, so that the full path is resolved to itself. -/

namespace PatternBridge

namespace Path
variable {p : Path} {names : List Text}

theorem prefix_pathTo (p : Path) (h : ∀ n ∈ names, IsName n) :
    p.text <+: (Tree.pathTo p names).text := by
  induction names generalizing p with
  | nil => exact List.prefix_rfl
  | cons n names ih =>
    rw [Tree.pathTo_cons]
    refine List.IsPrefix.trans ?_ (ih (p / ⟨n⟩) fun m hm => h m (List.mem_cons_of_mem _ hm))
    rw [text_div p (h n List.mem_cons_self).isAbsolute]
    split <;> exact List.prefix_append _ _

end Path

namespace Tree
variable {t : Tree} {p : Path} {place : Place} {e : Entry}

theorem get?_of_walkWith (hw : t.WellFormed)
    {onLink : Place → Path → List Step → Except Fault Spot} {dir : Place} {steps : List Step}
    {spot : Spot} (hdir : t.get? dir = some .directory)
    (honLink : ∀ dir target rest, t.get? dir = some .directory → onLink dir target rest = .ok spot →
      spot.entry = t.get? spot.place ∧ ∀ target, spot.entry ≠ some (.link target))
    (h : t.walkWith .follow onLink dir steps = .ok spot) :
    spot.entry = t.get? spot.place ∧ ∀ target, spot.entry ≠ some (.link target) := by
  induction steps generalizing dir with
  | nil =>
    rw [← Except.ok.inj h]
    exact ⟨hdir.symm, by simp⟩
  | cons step rest ih =>
    cases step with
    | stay | slash => exact ih hdir h
    | up => exact ih (hw.dropLast hdir) h
    | name n =>
      unfold walkWith at h
      split at h
      · cases h
      dsimp only at h
      split at h
      · next hnext => exact ih hnext h
      · next target hlink =>
        simp only [LastLink.follows, Bool.not_true, Bool.and_false, Bool.false_eq_true,
          if_false] at h
        exact honLink dir target rest hdir h
      · next c hfile =>
        split at h
        · rw [← Except.ok.inj h]
          exact ⟨hfile.symm, by simp⟩
        · cases h
      · next hnone =>
        split at h
        · rw [← Except.ok.inj h]
          exact ⟨hnone.symm, by simp⟩
        · cases h

theorem get?_of_walk (hw : t.WellFormed) {links : Nat} {dir : Place} {steps : List Step}
    {spot : Spot} (hdir : t.get? dir = some .directory)
    (h : t.walk .follow links dir steps = .ok spot) :
    spot.entry = t.get? spot.place ∧ ∀ target, spot.entry ≠ some (.link target) := by
  induction links generalizing dir steps with
  | zero => exact get?_of_walkWith hw hdir (fun _ _ _ _ hfault => by cases hfault) h
  | succ links ih =>
    exact get?_of_walkWith hw hdir
      (fun _ target _ hd hlink => ih (WellFormed.get?_start hd target) hlink) h

theorem get?_of_status_follow (hw : t.WellFormed) (h : t.status p = .ok (place, e)) :
    t.get? place = some e ∧ ∀ target, e ≠ .link target := by
  obtain ⟨spot, hspot, hpresent⟩ := exists_of_bind_eq_ok h
  obtain ⟨rfl, he, -⟩ := present_eq_ok hpresent
  unfold locate at hspot
  split at hspot
  · cases hspot
  · obtain ⟨hget, hlink⟩ := get?_of_walk hw (hw.start p) hspot
    rw [he] at hget hlink
    exact ⟨hget.symm, fun target htarget => hlink target (congrArg some htarget)⟩

theorem get?_of_resolveWith (hw : t.WellFormed)
    {onLink : Place → Path → List Step → Option Place} {dir : Place} {steps : List Step}
    (hdir : t.get? dir = some .directory)
    (honLink : ∀ dir target rest, t.get? dir = some .directory → onLink dir target rest = some place →
      ∃ e, t.get? place = some e ∧ ∀ target, e ≠ .link target)
    (h : t.resolveWith onLink dir steps = some place) :
    ∃ e, t.get? place = some e ∧ ∀ target, e ≠ .link target := by
  induction steps generalizing dir with
  | nil =>
    rw [← Option.some.inj h]
    exact ⟨.directory, hdir, by simp⟩
  | cons step rest ih =>
    cases step with
    | stay | slash => exact ih hdir h
    | up => exact ih (hw.dropLast hdir) h
    | name n =>
      unfold resolveWith at h
      dsimp only at h
      split at h
      · cases h
      split at h
      · next hnext =>
        split at h
        · cases h
        · exact ih hnext h
      · exact honLink _ _ _ hdir h
      · next c hfile =>
        split at h
        · rw [← Option.some.inj h]
          exact ⟨.file c, hfile, by simp⟩
        · cases h
      · cases h

theorem get?_of_resolve (hw : t.WellFormed) {links : Nat} {dir : Place} {steps : List Step}
    (hdir : t.get? dir = some .directory) (h : t.resolve links dir steps = some place) :
    ∃ e, t.get? place = some e ∧ ∀ target, e ≠ .link target := by
  induction links generalizing dir steps with
  | zero => exact get?_of_resolveWith hw hdir (fun _ _ _ _ hnone => by cases hnone) h
  | succ links ih =>
    exact get?_of_resolveWith hw hdir
      (fun _ target _ hd hlink => ih (WellFormed.get?_start hd target) hlink) h

theorem get?_of_canonical? (hw : t.WellFormed) (h : t.canonical? p = some place) :
    ∃ e, t.get? place = some e ∧ ∀ target, e ≠ .link target := by
  unfold canonical? at h
  split at h
  · cases h
  · exact get?_of_resolve hw (hw.start p) h

theorem fullLength_le_append {a b : Place} (h : ∀ n ∈ b, Path.IsName n) :
    fullLength a ≤ fullLength (a ++ b) := by
  have happend : fullPath (a ++ b) = pathTo (fullPath a) b := List.foldl_append
  rw [fullLength, fullLength, happend]
  exact Text.byteLength_le_of_prefix (Path.prefix_pathTo (fullPath a) h)

theorem place_of_walkWith {last : LastLink} {onLink : Place → Path → List Step → Except Fault Spot}
    {dir : Place} {names : List Text} {spot : Spot}
    (hdirs : ∀ front n back, names = front ++ n :: back → t.get? (dir ++ front) = some .directory)
    (hlink : ∀ target, t.get? (dir ++ names) ≠ some (.link target))
    (h : t.walkWith last onLink dir (names.map .name) = .ok spot) :
    spot.place = dir ++ names ∧ ∀ n ∈ names, Text.byteLength n ≤ maxNameBytes := by
  induction names generalizing dir with
  | nil =>
    rw [← Except.ok.inj h, List.append_nil]
    exact ⟨rfl, by simp⟩
  | cons n names ih =>
    rw [List.map_cons] at h
    unfold walkWith at h
    split at h
    · cases h
    next hname =>
    have hname := Nat.le_of_not_lt hname
    have hlast : ((names.map Step.name).isEmpty || names.map Step.name == [.slash]) = true →
        names = [] := by
      intro hlast
      cases names with
      | nil => rfl
      | cons m names => simp at hlast
    dsimp only at h
    split at h
    · next hnext =>
      rw [List.append_cons] at hlink ⊢
      obtain ⟨hplace, hnames⟩ := ih (fun front m back hsame => by
        have habove := hdirs (n :: front) m back (by rw [hsame]; rfl)
        rwa [List.append_cons] at habove) hlink h
      exact ⟨hplace, List.forall_mem_cons.2 ⟨hname, hnames⟩⟩
    · next target htarget =>
      -- a link at the last name is excluded, and before it there are directories
      cases names with
      | nil => exact absurd htarget (hlink target)
      | cons m names =>
        have hnext := hdirs [n] m names rfl
        rw [htarget] at hnext
        cases hnext
    · split at h
      · next hend =>
        rw [hlast hend, ← Except.ok.inj h]
        exact ⟨rfl, by simpa using hname⟩
      · cases h
    · split at h
      · next hend =>
        rw [hlast hend, ← Except.ok.inj h]
        exact ⟨rfl, by simpa using hname⟩
      · cases h

theorem exists_resolve_eq (t : Tree) (links : Nat) :
    ∃ onLink, t.resolve links = t.resolveWith onLink := by
  cases links <;> exact ⟨_, rfl⟩

theorem pathFault?_eq_none (h : pathFault? p = none) :
    p.text.contains '\u0000' = false ∧ p.text.isEmpty = false ∧
      Text.byteLength p.text < pathBytesLimit := by
  unfold pathFault? at h
  split at h
  · cases h
  split at h
  · cases h
  split at h
  · cases h
  · next hnull hempty hlength =>
    exact ⟨Bool.eq_false_iff.2 hnull, Bool.eq_false_iff.2 hempty, Nat.lt_of_not_le hlength⟩

theorem needDirectory_names (names : List Text) :
    Step.needDirectory (names.map .name) = false := by
  cases names <;> rfl

theorem resolveWith_names {onLink : Place → Path → List Step → Option Place} {dir : Place}
    {names : List Text} {c : Content} (hne : names ≠ []) (hnames : ∀ n ∈ names, Path.IsName n)
    (hshort : ∀ n ∈ names, Text.byteLength n ≤ maxNameBytes)
    (hlength : fullLength (dir ++ names) < pathBytesLimit)
    (hdirs : ∀ front n back, names = front ++ n :: back → t.get? (dir ++ front) = some .directory)
    (hfile : t.get? (dir ++ names) = some (.file c)) :
    t.resolveWith onLink dir (names.map .name) = some (dir ++ names) := by
  induction names generalizing dir with
  | nil => exact absurd rfl hne
  | cons n names ih =>
    rw [List.append_cons] at hlength hfile ⊢
    have hrest : ∀ m ∈ names, Path.IsName m := fun m hm => hnames m (List.mem_cons_of_mem _ hm)
    have htaken : ¬ (decide (maxNameBytes < Text.byteLength n) ||
        decide (pathBytesLimit ≤ fullLength (dir ++ [n]))) = true := by
      have hname := hshort n List.mem_cons_self
      have hbefore := fullLength_le_append (a := dir ++ [n]) hrest
      simp only [Bool.or_eq_true, decide_eq_true_eq]
      omega
    rw [List.map_cons, resolveWith, if_neg htaken]
    cases names with
    | nil =>
      rw [List.append_nil] at hfile ⊢
      rw [hfile]
      rfl
    | cons m names =>
      have hnext := hdirs [n] m names rfl
      rw [hnext]
      simp only
      rw [needDirectory_names, Bool.false_and, if_neg Bool.false_ne_true]
      refine ih (List.cons_ne_nil _ _) hrest (fun k hk => hshort k (List.mem_cons_of_mem _ hk)) hlength
        (fun front k back hsame => ?_) hfile
      have habove := hdirs (n :: front) k back (by rw [hsame]; rfl)
      rwa [List.append_cons] at habove

theorem place_of_status_fullPath (hw : t.WellFormed) (hget : t.get? place = some e)
    (hlink : ∀ target, e ≠ .link target) {q : Place} {e' : Entry}
    (h : t.status (fullPath place) = .ok (q, e')) :
    q = place ∧ ∀ n ∈ place, Text.byteLength n ≤ maxNameBytes := by
  obtain ⟨spot, hspot, hpresent⟩ := exists_of_bind_eq_ok h
  obtain ⟨rfl, -, -⟩ := present_eq_ok hpresent
  obtain ⟨onLink, hwalk⟩ := t.exists_walk_eq .follow maxLinks
  rw [locate, pathFault?_of_status h] at hspot
  dsimp only at hspot
  by_cases hne : place = []
  · subst hne
    rw [hwalk] at hspot
    have htop : { place := [], entry := some .directory } = spot := Except.ok.inj hspot
    exact ⟨by rw [← htop], by simp⟩
  · have hgoes := Path.goesOn_pathTo ⟨"/"⟩ hne (hw.named hget)
    have hsteps : (fullPath place).steps = place.map .name := hgoes.steps
    have hstart : start t.here (fullPath place) = [] := hgoes.start t.here
    rw [hsteps, hstart, hwalk] at hspot
    change spot.place = [] ++ place ∧ _
    refine place_of_walkWith (fun front n back hsame => ?_) (fun target htarget => ?_) hspot
    · rw [hsame] at hget
      exact hw.above hget
    · exact hlink target (Option.some.inj (hget.symm.trans htarget))

theorem canonical?_fullPath (hw : t.WellFormed) {c : Content} (hget : t.get? place = some (.file c))
    (hshort : ∀ n ∈ place, Text.byteLength n ≤ maxNameBytes)
    (hfault : pathFault? (fullPath place) = none) : t.canonical? (fullPath place) = some place := by
  have hne : place ≠ [] := by
    rintro rfl
    cases hget
  have hgoes := Path.goesOn_pathTo ⟨"/"⟩ hne (hw.named hget)
  have hsteps : (fullPath place).steps = place.map .name := hgoes.steps
  have hstart : start t.here (fullPath place) = [] := hgoes.start t.here
  obtain ⟨onLink, hresolve⟩ := t.exists_resolve_eq maxLinks
  obtain ⟨hnull, hempty, hlength⟩ := pathFault?_eq_none hfault
  rw [canonical?, hnull, hempty, hsteps, hstart, hresolve]
  refine resolveWith_names hne (hw.named hget) hshort hlength (fun front n back hsame => ?_) hget
  rw [hsame] at hget
  exact hw.above hget

/-- The place of a file whose full path goes through directories alone and is resolved to itself. -/
structure IsCanonical (t : Tree) (place : Place) : Prop where
  file : ∃ s, t.get? place = some (.file (.text s))
  straight : ∀ front n back, place = front ++ n :: back → t.get? front = some .directory
  fixed : t.canonical? (fullPath place) = some place

theorem isCanonical_of_read (hw : t.WellFormed) (hget : t.get? place = some e)
    (hlink : ∀ target, e ≠ .link target) {s : Text} (h : t.read (fullPath place) = .ok s) :
    t.IsCanonical place := by
  have hstraight (front : Place) (n : Text) (back : List Text) (hsame : place = front ++ n :: back) :
      t.get? front = some .directory := by
    rw [hsame] at hget
    exact hw.above hget
  obtain ⟨⟨q, e'⟩, hstatus, hread⟩ := exists_of_bind_eq_ok h
  obtain ⟨rfl, hshort⟩ := place_of_status_fullPath hw hget hlink hstatus
  have hfile := (get?_of_status_follow hw hstatus).1
  obtain ⟨s, rfl⟩ : ∃ s, e' = .file (.text s) := by
    cases e' with
    | directory => cases hread
    | link target => cases hread
    | file c =>
      cases c with
      | octets bytes => cases hread
      | text s => exact ⟨s, rfl⟩
  exact ⟨⟨s, hfile⟩, hstraight, canonical?_fullPath hw hfile hshort (pathFault?_of_status hstatus)⟩

end Tree
end PatternBridge
