import PatternBridge.Files.Walk
import PatternBridge.Proofs.Files.WellFormed
import PatternBridge.Proofs.Text.Suffix

/-! What a walk through a tree without links finds. The files that it collects are told by their
places alone: those at or below the place of the path, by name, each once and in the order of the
tree, as far as the paths of the directories they are in are not too long. -/

namespace PatternBridge

namespace Tree
variable {t : Tree} {p : Path}

theorem get?_of_status (hl : t.LinkFree) (hw : t.WellFormed) {q : Place} {e : Entry}
    (h : t.status p = .ok (q, e)) : q = p.placeFrom t.here ∧ t.get? q = some e := by
  obtain ⟨spot, hspot, hpresent⟩ := exists_of_bind_eq_ok h
  obtain ⟨rfl, he, -⟩ := present_eq_ok hpresent
  refine ⟨place_of_locate hl hspot, ?_⟩
  rw [← ((locate_eq_ok_iff hl).1 hspot).2.get?_eq hw (hw.start p), he]

theorem exists?_iff (hl : t.LinkFree) :
    t.exists? p = true ↔ ∃ e, t.status p = .ok (p.placeFrom t.here, e) := by
  unfold exists? entry?
  cases h : t.status p with
  | error f => simp [Except.toOption]
  | ok r =>
    obtain ⟨q, e⟩ := r
    simp [Except.toOption, (status_eq_ok hl h).1]

theorem linkStatus_eq_status (hl : t.LinkFree) (p : Path) {r : Place × Entry} :
    t.linkStatus p = .ok r ↔ t.status p = .ok r := by
  have hlocate (spot : Spot) : t.locate .keep p = .ok spot ↔ t.locate .follow p = .ok spot := by
    rw [locate_eq_ok_iff hl, locate_eq_ok_iff hl]
  constructor <;> intro h <;> obtain ⟨spot, hspot, h⟩ := exists_of_bind_eq_ok h
  · rw [status, (hlocate spot).1 hspot]
    exact h
  · rw [linkStatus, (hlocate spot).2 hspot]
    exact h

theorem Reaches.components (h : t.Reaches p) :
    ∃ cs n, p.components = cs ++ [.name n] := by
  obtain ⟨-, spot, hlead, he, -⟩ := h
  obtain ⟨init, n, hsteps⟩ := hlead.exists_name he
  obtain ⟨cs, hcs⟩ := Path.components_of_steps hsteps
  exact ⟨cs, n, hcs⟩

theorem mem_below {dir : Place} {names : List Text} {e : Entry} :
    (names, e) ∈ t.below dir ↔ names ≠ [] ∧ t.get? (dir ++ names) = some e := by
  unfold below
  rw [List.mem_filterMap]
  constructor
  · rintro ⟨⟨q, f⟩, hq, h⟩
    dsimp only at h
    split at h
    · next n ns hr =>
      obtain ⟨rfl, rfl⟩ := Prod.mk.inj (Option.some.inj h)
      rw [← List.append_eq_of_isPrefixOf?_eq_some hr] at hq
      exact ⟨by simp, (get?_eq_some_iff_mem (by simp)).2 hq⟩
    · cases h
  · rintro ⟨hne, h⟩
    obtain ⟨n, ns, rfl⟩ := List.exists_cons_of_ne_nil hne
    refine ⟨(dir ++ n :: ns, e), (get?_eq_some_iff_mem (by simp)).1 h, ?_⟩
    have hr : dir.isPrefixOf? (dir ++ n :: ns) = some (n :: ns) :=
      List.isPrefixOf?_eq_some_iff_append_eq.2 rfl
    simp only [hr]

theorem forall_directory_of_below {dir : Place} {P : List Text → Prop} (h : P [])
    (hbelow : ∀ x ∈ t.below dir, x.2 = .directory → P x.1) (names : List Text)
    (hget : t.get? (dir ++ names) = some .directory) : P names := by
  by_cases hne : names = []
  · rwa [hne]
  · exact hbelow _ (mem_below.2 ⟨hne, hget⟩) rfl

theorem pathFault?_of_status {r : Place × Entry} (h : t.status p = .ok r) : pathFault? p = none := by
  obtain ⟨spot, hspot, -⟩ := exists_of_bind_eq_ok h
  unfold locate at hspot
  split at hspot
  · cases hspot
  · assumption

theorem isListed_iff {names : List Text} :
    isListed p names = true ↔ pathFault? (pathTo p names.dropLast) = none :=
  Option.isNone_iff_eq_none

theorem mem_listedBelow {dir : Place} {names : List Text} {e : Entry} :
    (names, e) ∈ t.listedBelow p dir ↔
      (names ≠ [] ∧ t.get? (dir ++ names) = some e) ∧ isListed p names = true := by
  rw [listedBelow, List.mem_filter, mem_below]

theorem below_sorted (t : Tree) (dir : Place) :
    (t.below dir).Pairwise fun a b => Place.Before (dir ++ a.1) (dir ++ b.1) := by
  refine t.sorted.filterMap _ fun a b hab x hx y hy => ?_
  split at hx
  · next n ns ha =>
    split at hy
    · next m ms hb =>
      rw [← List.append_eq_of_isPrefixOf?_eq_some ha,
        ← List.append_eq_of_isPrefixOf?_eq_some hb] at hab
      rw [← Option.some.inj hx, ← Option.some.inj hy]
      exact hab
    · cases hy
  · cases hx

theorem foundAt_eq (hl : t.LinkFree) {q : Place} {c : Content}
    (h : t.status p = .ok (q, .file c)) :
    ∃ cs n, p.components = cs ++ [.name n] ∧
      t.foundAt p = [{ path := p, name := n, entry := .file c }] := by
  obtain ⟨cs, n, hcs⟩ := ((status_eq_ok hl h).2 (by simp)).1.components
  refine ⟨cs, n, hcs, ?_⟩
  rw [foundAt, (linkStatus_eq_status hl p).2 h, Path.fileName?_of_components hcs]
  rfl

/-- A file that is found at the names behind a path or, if there are none, at the path itself. -/
structure FoundFile (t : Tree) (p : Path) (names : List Text) (f : Found) (c : Content) : Prop where
  path_eq : f.path = pathTo p names
  reached : t.exists? p = true
  listed : isListed p names = true
  file : t.get? (p.placeFrom t.here ++ names) = some (.file c)
  named : ∃ dir, p.placeFrom t.here ++ names = dir ++ [f.name]

theorem foundFile_of_mem (hl : t.LinkFree) {f : Found} {c : Content}
    (hf : f ∈ t.foundAt p ++ t.foundBelow p) (hc : f.entry = .file c) :
    ∃ names, t.FoundFile p names f c := by
  rcases List.mem_append.1 hf with hf | hf
  · -- the path itself names the file
    unfold foundAt at hf
    split at hf
    · next q e hlink =>
      obtain rfl : e = .file c := by
        rw [← hc, List.mem_singleton.1 hf]
      have hstatus := (linkStatus_eq_status hl p).1 hlink
      obtain ⟨cs, n, hcs, -⟩ := foundAt_eq hl hstatus
      obtain ⟨rfl, hfile⟩ := status_eq_ok hl hstatus
      have hname := Path.fileName?_of_components hcs
      have hplace := Path.placeFrom_of_components t.here hcs
      obtain rfl := List.mem_singleton.1 hf
      refine ⟨[], rfl, (exists?_iff hl).2 ⟨_, hstatus⟩, isListed_iff.2 (pathFault?_of_status hstatus), ?_,
        cs.foldl Path.Component.move t.here, ?_⟩
      · rw [List.append_nil, (hfile (by simp)).2]
      · rw [List.append_nil, hplace, hname]
        rfl
    · simp at hf
  · -- the file lies below, and its name is the last on the way
    unfold foundBelow at hf
    split at hf
    · next q hstatus =>
      obtain ⟨⟨names, e⟩, hbelow, rfl⟩ := List.mem_map.1 hf
      obtain ⟨⟨hne, hget⟩, hlisted⟩ := mem_listedBelow.1 hbelow
      obtain rfl := (status_eq_ok hl hstatus).1
      obtain rfl : e = .file c := hc
      refine ⟨names, rfl, (exists?_iff hl).2 ⟨_, hstatus⟩, hlisted, hget, ?_⟩
      rcases List.eq_nil_or_concat names with rfl | ⟨init, n, rfl⟩
      · exact absurd rfl hne
      · refine ⟨p.placeFrom t.here ++ init, ?_⟩
        show _ = _ ++ [(init.concat n).getLast?.getD []]
        rw [List.concat_eq_append, List.getLast?_concat, List.append_assoc]
        rfl
    · simp at hf

theorem FoundFile.placed (hw : t.WellFormed) {names : List Text} {f : Found} {c : Content}
    (h : t.FoundFile p names f c) : f.path.placeFrom t.here = p.placeFrom t.here ++ names := by
  rw [h.path_eq]
  exact Path.placeFrom_pathTo t.here p fun n hn => hw.named h.file n (List.mem_append_right _ hn)

theorem FoundFile.components (hl : t.LinkFree) (hw : t.WellFormed) {names : List Text} {f : Found}
    {c : Content} (h : t.FoundFile p names f c) :
    ∃ cs, f.path.components = cs ++ [.name f.name] := by
  have hplace := h.placed hw
  obtain ⟨dir, hname⟩ := h.named
  obtain ⟨cs, n, hcs⟩ : ∃ cs n, f.path.components = cs ++ [.name n] := by
    rcases List.eq_nil_or_concat names with rfl | ⟨init, n, rfl⟩
    · obtain ⟨e, hstatus⟩ := (exists?_iff hl).1 h.reached
      have he := (get?_of_status hl hw hstatus).2
      rw [← List.append_nil (p.placeFrom t.here), h.file] at he
      rw [← Option.some.inj he] at hstatus
      obtain ⟨cs, n, hcs, -⟩ := foundAt_eq hl hstatus
      exact ⟨cs, n, by rw [h.path_eq]; exact hcs⟩
    · rw [List.concat_eq_append] at h
      have hn : Path.IsName n := hw.named h.file n (by simp)
      exact ⟨_, n, by rw [h.path_eq, pathTo_concat, Path.components_div_name _ hn]⟩
  have hlast := Path.placeFrom_of_components t.here hcs
  rw [hplace, hname] at hlast
  exact ⟨cs, by rw [hcs, List.singleton_inj.1 (List.append_inj' hlast rfl).2]⟩

/-- Each file at or below the place of a path is found, unless the path of its directory is refused. -/
theorem exists_found (hl : t.LinkFree) (hw : t.WellFormed) (hp : t.exists? p = true)
    {names : List Text} (hlisted : isListed p names = true) {c : Content}
    (h : t.get? (p.placeFrom t.here ++ names) = some (.file c)) :
    ∃ f ∈ t.foundAt p ++ t.foundBelow p, f.path = pathTo p names ∧ f.entry = .file c := by
  obtain ⟨e, hstatus⟩ := (exists?_iff hl).1 hp
  have he := (get?_of_status hl hw hstatus).2
  cases names with
  | nil =>
    rw [List.append_nil, he] at h
    rw [Option.some.inj h] at hstatus
    obtain ⟨cs, n, -, hfound⟩ := foundAt_eq hl hstatus
    exact ⟨_, List.mem_append_left _ (by rw [hfound]; exact List.mem_cons_self), rfl, rfl⟩
  | cons n ns =>
    rw [hw.above h] at he
    rw [← Option.some.inj he] at hstatus
    refine ⟨{ path := pathTo p (n :: ns), name := (n :: ns).getLast?.getD [], entry := .file c },
      List.mem_append_right _ ?_, rfl, rfl⟩
    rw [foundBelow, hstatus]
    exact List.mem_map.2 ⟨(n :: ns, .file c), mem_listedBelow.2 ⟨⟨by simp, h⟩, hlisted⟩, rfl⟩

/-- A file at or below the place of a path, whose name ends in a suffix and is longer, and whose
directory has a path that is not refused. -/
structure FileEndingIn (t : Tree) (p : Path) (suffix : Text) (q : Place) : Prop where
  reached : t.exists? p = true
  within : ∃ names, q = p.placeFrom t.here ++ names ∧ isListed p names = true
  named : ∃ dir stem, q = dir ++ [stem ++ suffix] ∧ stem ≠ []
  file : ∃ c, t.get? q = some (.file c)

theorem endsWith_iff {suffix : Text} (hdot : suffix.head? = some '.') (name : Text) :
    (!ignoredNames.contains name && Text.endsWith name suffix && name != suffix) = true ↔
      ∃ stem, name = stem ++ suffix ∧ stem ≠ [] := by
  obtain ⟨r, rfl⟩ := List.head?_eq_some_iff.1 hdot
  constructor
  · intro h
    simp only [Bool.and_eq_true, bne_iff_ne, Text.endsWith, List.isSuffixOf_iff_suffix] at h
    obtain ⟨⟨-, stem, hstem⟩, hne⟩ := h
    refine ⟨stem, hstem.symm, ?_⟩
    rintro rfl
    exact hne hstem.symm
  · rintro ⟨stem, rfl, hne⟩
    have hignored : stem ++ '.' :: r ≠ ".DS_Store".toList := by
      intro h
      have hr : r = "DS_Store".toList :=
        Text.eq_of_dot_suffix (a := []) (by simp) (by decide) ⟨stem, h⟩
      rw [hr] at h
      exact hne (List.append_cancel_right (h.trans (List.nil_append _).symm))
    simpa [ignoredNames, Text.endsWith, hne] using hignored

theorem mem_filesEndingIn_iff {suffix : Text} (hdot : suffix.head? = some '.') {x : Path} :
    x ∈ t.filesEndingIn p suffix ↔ ∃ f ∈ t.foundAt p ++ t.foundBelow p, f.path = x ∧
      (∃ c, f.entry = .file c) ∧ ∃ stem, f.name = stem ++ suffix ∧ stem ≠ [] := by
  have hfile (e : Entry) : e.isFile = true ↔ ∃ c, e = .file c := by
    cases e <;> simp [Entry.isFile]
  unfold filesEndingIn
  rw [List.mem_map]
  constructor
  · rintro ⟨f, hf, rfl⟩
    obtain ⟨hmem, hwanted⟩ := List.mem_filter.1 hf
    rw [Bool.and_assoc, Bool.and_assoc, ← Bool.and_assoc (!_), Bool.and_eq_true, hfile,
      endsWith_iff hdot] at hwanted
    exact ⟨f, hmem, rfl, hwanted⟩
  · rintro ⟨f, hmem, rfl, hwanted⟩
    refine ⟨f, List.mem_filter.2 ⟨hmem, ?_⟩, rfl⟩
    rw [Bool.and_assoc, Bool.and_assoc, ← Bool.and_assoc (!_), Bool.and_eq_true, hfile,
      endsWith_iff hdot]
    exact hwanted

theorem FoundFile.fileEndingIn {names : List Text} {f : Found} {c : Content} {stem suffix : Text}
    (h : t.FoundFile p names f c) (hstem : f.name = stem ++ suffix) (hne : stem ≠ []) :
    t.FileEndingIn p suffix (p.placeFrom t.here ++ names) := by
  obtain ⟨dir, hdir⟩ := h.named
  rw [hstem] at hdir
  exact ⟨h.reached, ⟨names, rfl, h.listed⟩, ⟨dir, stem, hdir, hne⟩, c, h.file⟩

theorem filesEndingIn_eq_nil (hl : t.LinkFree) {suffix : Text} (hdot : suffix.head? = some '.')
    (h : ∀ q, ¬ t.FileEndingIn p suffix q) : t.filesEndingIn p suffix = [] := by
  apply List.eq_nil_iff_forall_not_mem.2
  intro x hx
  obtain ⟨f, hmem, -, ⟨c, hc⟩, stem, hstem, hne⟩ := (mem_filesEndingIn_iff hdot).1 hx
  obtain ⟨names, hf⟩ := foundFile_of_mem hl hmem hc
  exact h _ (hf.fileEndingIn hstem hne)

theorem components_of_mem_filesEndingIn (hl : t.LinkFree) (hw : t.WellFormed) {suffix : Text}
    (hdot : suffix.head? = some '.') {x : Path} (hx : x ∈ t.filesEndingIn p suffix) :
    ∃ cs stem, x.components = cs ++ [.name (stem ++ suffix)] ∧ stem ≠ [] := by
  obtain ⟨f, hmem, rfl, ⟨c, hc⟩, stem, hstem, hne⟩ := (mem_filesEndingIn_iff hdot).1 hx
  obtain ⟨names, hf⟩ := foundFile_of_mem hl hmem hc
  obtain ⟨cs, hcs⟩ := hf.components hl hw
  exact ⟨cs, stem, by rw [hcs, hstem], hne⟩

theorem mem_places_filesEndingIn (hl : t.LinkFree) (hw : t.WellFormed) {suffix : Text}
    (hdot : suffix.head? = some '.') {q : Place} :
    q ∈ (t.filesEndingIn p suffix).map (·.placeFrom t.here) ↔ t.FileEndingIn p suffix q := by
  rw [List.mem_map]
  constructor
  · rintro ⟨x, hx, rfl⟩
    obtain ⟨f, hmem, rfl, ⟨c, hc⟩, stem, hstem, hne⟩ := (mem_filesEndingIn_iff hdot).1 hx
    obtain ⟨names, hf⟩ := foundFile_of_mem hl hmem hc
    rw [hf.placed hw]
    exact hf.fileEndingIn hstem hne
  · rintro ⟨hp, ⟨names, rfl, hlisted⟩, ⟨dir, stem, hq, hne⟩, c, hc⟩
    obtain ⟨f, hmem, hpath, hf⟩ := exists_found hl hw hp hlisted hc
    have hplace : f.path.placeFrom t.here = p.placeFrom t.here ++ names := by
      rw [hpath]
      exact Path.placeFrom_pathTo t.here p fun n hn => hw.named hc n (List.mem_append_right _ hn)
    obtain ⟨_, hfound⟩ := foundFile_of_mem hl hmem hf
    obtain ⟨cs, hcs⟩ := hfound.components hl hw
    have hname := Path.placeFrom_of_components t.here hcs
    rw [hplace, hq] at hname
    have hstem := List.singleton_inj.1 (List.append_inj' hname rfl).2
    exact ⟨f.path, (mem_filesEndingIn_iff hdot).2 ⟨f, hmem, rfl, ⟨c, hf⟩, stem, hstem.symm, hne⟩,
      hplace⟩

theorem foundBelow_sorted (hl : t.LinkFree) (hw : t.WellFormed) (p : Path) :
    (t.foundBelow p).Pairwise fun f g =>
      Place.Before (f.path.placeFrom t.here) (g.path.placeFrom t.here) := by
  unfold foundBelow
  split
  · next place hstatus =>
    obtain rfl := (status_eq_ok hl hstatus).1
    have hplace {x : List Text × Entry} (hx : x ∈ t.listedBelow p (p.placeFrom t.here)) :
        (pathTo p x.1).placeFrom t.here = p.placeFrom t.here ++ x.1 :=
      Path.placeFrom_pathTo t.here p fun n hn =>
        hw.named (mem_listedBelow.1 hx).1.2 n (List.mem_append_right _ hn)
    rw [List.pairwise_map]
    apply ((below_sorted t (p.placeFrom t.here)).filter _).imp_of_mem
    intro a b ha hb hab
    show Place.Before ((pathTo p a.1).placeFrom t.here) ((pathTo p b.1).placeFrom t.here)
    rw [hplace ha, hplace hb]
    exact hab
  · exact .nil

theorem filesEndingIn_sorted (hl : t.LinkFree) (hw : t.WellFormed) (p : Path) (suffix : Text) :
    ((t.filesEndingIn p suffix).map (·.placeFrom t.here)).Pairwise Place.Before := by
  unfold filesEndingIn
  rw [List.pairwise_map, List.pairwise_map, List.filter_append, List.pairwise_append]
  refine ⟨?_, (foundBelow_sorted hl hw p).filter _, ?_⟩
  · apply List.Pairwise.filter
    unfold foundAt
    split
    · exact List.pairwise_singleton _ _
    · exact .nil
  · -- where the path itself names a file, nothing is below it
    intro f hf g hg
    obtain ⟨hf, hwanted⟩ := List.mem_filter.1 hf
    have hg := (List.mem_filter.1 hg).1
    unfold foundAt at hf
    unfold foundBelow at hg
    split at hf
    · next q e hlink =>
      rw [(linkStatus_eq_status hl p).1 hlink] at hg
      rw [List.mem_singleton.1 hf] at hwanted
      cases e with
      | directory => simp [Entry.isFile] at hwanted
      | file c => simp at hg
      | link target => simp at hg
    · simp at hf

end Tree
end PatternBridge
