import PatternBridge.Proofs.Files.Found

/-! Paths that go on from another path by names. Where the other path opens a directory, the entry
at the longer path's place alone tells whether the longer path is found, so it is found or not
found whatever else is written and made in the meantime. -/

namespace PatternBridge

namespace Path

def track (p : Path) : List Step := p.segments.filterMap Step.ofSegment?

theorem steps_eq_track (p : Path) :
    p.steps = p.track ++ if p.text.getLast? == some '/' then [.slash] else [] := rfl

theorem isAbsolute_of_noSlash {n : Text} (hn : '/' ∉ n) : (Path.mk n).isAbsolute = false := by
  cases n with
  | nil => rfl
  | cons c n =>
    have hc : c ≠ '/' := fun hc => hn (hc ▸ List.mem_cons_self)
    simpa [isAbsolute] using hc

theorem start_join (here : Place) (p : Path) {q : Path} (hq : q.isAbsolute = false) :
    Tree.start here (p / q) = Tree.start here p := by
  rw [Tree.start, Tree.start, isAbsolute_div p hq]

theorem start_div (here : Place) (p : Path) {n : Text} (hn : '/' ∉ n) :
    Tree.start here (p / ⟨n⟩) = Tree.start here p :=
  start_join here p (isAbsolute_of_noSlash hn)

theorem track_join (p : Path) {q : Path} (hq : q.isAbsolute = false) :
    (p / q).track = p.track ++ q.track := by
  obtain ⟨init, hinit, hsegments⟩ := segments_join p hq
  have htrack : p.track = init.filterMap Step.ofSegment? := filterMap_of_seam rfl hinit
  rw [track, hsegments, List.filterMap_append, htrack]
  rfl

theorem segments_div (p : Path) {n : Text} (hn : '/' ∉ n) :
    ∃ init, (p.segments = init ∨ p.segments = init ++ [[]]) ∧ (p / ⟨n⟩).segments = init ++ [n] := by
  have hsingle : (Path.mk n).segments = [n] := List.splitOn_eq_singleton hn
  rw [← hsingle]
  exact segments_join p (isAbsolute_of_noSlash hn)

theorem track_div (p : Path) {n : Text} (hn : '/' ∉ n) :
    (p / ⟨n⟩).track = p.track ++ (Step.ofSegment? n).toList := by
  have hsingle : (Path.mk n).segments = [n] := List.splitOn_eq_singleton hn
  have hlast : (Path.mk n).track = (Step.ofSegment? n).toList := by
    rw [track, hsingle]
    cases h : Step.ofSegment? n <;> simp [h]
  rw [track_join p (isAbsolute_of_noSlash hn), hlast]

theorem IsName.ofStep? {n : Text} (hn : IsName n) : Step.ofSegment? n = some (.name n) := by
  simp [Step.ofSegment?, hn.ne_nil, hn.ne_stay, hn.ne_up]

theorem getLast?_div (p : Path) {n : Text} (hn : IsName n) :
    (p / ⟨n⟩).text.getLast? = n.getLast? := by
  obtain ⟨init, c, hc⟩ := List.eq_nil_or_concat n |>.resolve_left hn.ne_nil
  rw [text_div p (isAbsolute_of_noSlash hn.noSlash)]
  simp only [hc, List.concat_eq_append]
  split
  · rw [← List.append_assoc, List.getLast?_concat, List.getLast?_concat]
  · rw [← List.cons_append, ← List.append_assoc, List.getLast?_concat, List.getLast?_concat]

theorem steps_div_name (p : Path) {n : Text} (hn : IsName n) :
    (p / ⟨n⟩).steps = p.track ++ [.name n] := by
  have hend : ((p / ⟨n⟩).text.getLast? == some '/') = false := by
    rw [getLast?_div p hn]
    refine beq_eq_false_iff_ne.2 fun h => hn.noSlash (List.mem_of_getLast? h)
  rw [steps_eq_track, hend, track_div p hn.noSlash, hn.ofStep?]
  simp

theorem track_pathTo (p : Path) {names : List Text} (h : ∀ n ∈ names, IsName n) :
    (Tree.pathTo p names).track = p.track ++ names.map .name := by
  induction names generalizing p with
  | nil => exact (List.append_nil _).symm
  | cons n names ih =>
    have hn := h n List.mem_cons_self
    rw [Tree.pathTo_cons, ih (p / ⟨n⟩) fun m hm => h m (List.mem_cons_of_mem _ hm),
      track_div p hn.noSlash, hn.ofStep?, List.append_assoc]
    rfl

theorem start_pathTo (here : Place) (p : Path) {names : List Text} (h : ∀ n ∈ names, IsName n) :
    Tree.start here (Tree.pathTo p names) = Tree.start here p := by
  induction names generalizing p with
  | nil => rfl
  | cons n names ih =>
    have hn := h n List.mem_cons_self
    rw [Tree.pathTo_cons, ih (p / ⟨n⟩) fun m hm => h m (List.mem_cons_of_mem _ hm),
      start_div here p hn.noSlash]

/-- The path goes on from another one: it may step up or stay, and then it goes down by names. -/
structure GoesOn (p base : Path) (idle : List Step) (names : List Text) : Prop where
  steps : p.steps = base.track ++ (idle ++ names.map .name)
  start : ∀ here, Tree.start here p = Tree.start here base
  idle : ∀ step ∈ idle, ∀ n, step ≠ .name n
  ne_nil : names ≠ []

theorem goesOn_pathTo (base : Path) {names : List Text} (hne : names ≠ [])
    (h : ∀ n ∈ names, IsName n) : (Tree.pathTo base names).GoesOn base [] names := by
  refine ⟨?_, fun here => start_pathTo here base h, by simp, hne⟩
  obtain ⟨init, n, rfl⟩ := (List.eq_nil_or_concat names).resolve_left hne
  rw [List.concat_eq_append] at h ⊢
  rw [Tree.pathTo_concat, steps_div_name _ (h n (by simp)),
    track_pathTo base fun m hm => h m (List.mem_append_left _ hm)]
  simp

end Path

namespace Step

theorem foldl_move_names (dir : Place) (names : List Text) :
    (names.map Step.name).foldl Step.move dir = dir ++ names := by
  induction names generalizing dir with
  | nil => exact (List.append_nil dir).symm
  | cons n names ih =>
    rw [List.map_cons, List.foldl_cons, ih, move, List.append_assoc]
    rfl

end Step

namespace Tree
variable {t u : Tree} {p base : Path}

namespace Leads
variable {dir : Place} {steps before after : List Step} {spot : Spot}

theorem of_append (h : t.Leads dir (before ++ after) spot) (hnil : after ≠ [])
    (hslash : after ≠ [.slash]) :
    t.Leads dir before { place := before.foldl Step.move dir, entry := some .directory } := by
  induction before generalizing dir with
  | nil => exact .stop dir
  | cons step before ih =>
    cases h with
    | idle hstep hrest => exact .idle hstep (ih hrest)
    | enter hname hdir hrest => exact .enter hname hdir (ih hrest)
    | last _ _ hrest =>
      have hall : before ++ after = [] ∨ before ++ after = [.slash] := hrest
      rcases hall with hall | hall
      · exact absurd (List.append_eq_nil_iff.1 hall).2 hnil
      · rcases List.append_eq_singleton_iff.1 hall with ⟨-, h⟩ | ⟨-, h⟩
        · exact absurd h hslash
        · exact absurd h hnil

theorem of_append_directory (h : t.Leads dir (before ++ after) spot)
    (he : spot.entry = some .directory) :
    t.Leads dir before { place := before.foldl Step.move dir, entry := some .directory } := by
  induction before generalizing dir with
  | nil => exact .stop dir
  | cons step before ih =>
    cases h with
    | idle hstep hrest => exact .idle hstep (ih hrest)
    | enter hname hdir hrest => exact .enter hname hdir (ih hrest)
    | last _ hentry => exact absurd he hentry

theorem append {mid : Spot} (h : t.Leads dir before mid) (he : mid.entry = some .directory)
    (k : t.Leads mid.place after spot) : t.Leads dir (before ++ after) spot := by
  induction h with
  | stop => exact k
  | idle hstep _ ih => exact .idle hstep (ih he k)
  | enter hname hdir _ ih => exact .enter hname hdir (ih he k)
  | last _ hentry => exact absurd he hentry

theorem keep_directory (h : t.Leads dir steps spot) (he : spot.entry = some .directory)
    (hk : t.KeepsDirectories u) : u.Leads dir steps spot := by
  induction h with
  | stop => exact .stop _
  | idle hstep _ ih => exact .idle hstep (ih he)
  | enter hname hdir _ ih => exact .enter hname (hk _ hdir) (ih he)
  | last _ hentry => exact absurd he hentry

theorem byteLength_le (h : t.Leads dir steps spot) {n : Text} (hn : .name n ∈ steps) :
    Text.byteLength n ≤ maxNameBytes := by
  induction h with
  | stop => simp at hn
  | idle hstep _ ih =>
    rcases List.mem_cons.1 hn with hn | hn
    · exact absurd hn.symm (hstep n)
    · exact ih hn
  | enter hname _ _ ih =>
    rcases List.mem_cons.1 hn with hn | hn
    · rwa [Step.name.inj hn]
    · exact ih hn
  | last hname _ hrest =>
    rcases List.mem_cons.1 hn with hn | hn
    · rwa [Step.name.inj hn]
    · rcases hrest with rfl | rfl <;> simp at hn

theorem of_get? (hw : t.WellFormed) {names : List Text} {e : Entry} (hne : names ≠ [])
    (hget : t.get? (dir ++ names) = some e)
    (hlength : ∀ n ∈ names, Text.byteLength n ≤ maxNameBytes) :
    t.Leads dir (names.map .name) { place := dir ++ names, entry := some e } := by
  induction names generalizing dir with
  | nil => exact absurd rfl hne
  | cons n names ih =>
    have hn := hlength n List.mem_cons_self
    have hrest : ∀ m ∈ names, Text.byteLength m ≤ maxNameBytes :=
      fun m hm => hlength m (List.mem_cons_of_mem _ hm)
    have hsplit : dir ++ n :: names = (dir ++ [n]) ++ names := by simp
    rw [hsplit] at hget ⊢
    cases names with
    | cons m ms =>
      exact .enter hn (hw.above hget) (ih (List.cons_ne_nil m ms) hget hrest)
    | nil =>
      rw [List.append_nil] at hget ⊢
      by_cases hdir : e = .directory
      · subst hdir
        exact .enter hn hget (.stop _)
      · rw [← hget]
        exact .last hn (by simpa [hget] using hdir) (.inl rfl)

theorem of_idle {idle rest : List Step} (hidle : ∀ step ∈ idle, ∀ n, step ≠ .name n)
    (h : t.Leads (idle.foldl Step.move dir) rest spot) : t.Leads dir (idle ++ rest) spot := by
  induction idle generalizing dir with
  | nil => exact h
  | cons step idle ih =>
    exact .idle (hidle step List.mem_cons_self)
      (ih (fun s hs => hidle s (List.mem_cons_of_mem _ hs)) h)

end Leads

def Opens (t : Tree) (p : Path) : Prop :=
  t.Leads (start t.here p) p.track { place := p.placeFrom t.here, entry := some .directory }

theorem foldl_move_track (here : Place) (p : Path) :
    p.track.foldl Step.move (start here p) = p.placeFrom here := by
  have hsteps := Path.foldl_move_steps here p
  rw [Path.steps_eq_track, List.foldl_append] at hsteps
  rw [← hsteps]
  split <;> rfl

theorem opens_of_status (hl : t.LinkFree) {q : Place} (h : t.status p = .ok (q, .directory)) :
    t.Opens p := by
  obtain ⟨spot, hspot, hpresent⟩ := exists_of_bind_eq_ok h
  obtain ⟨-, he, -⟩ := present_eq_ok hpresent
  have hlead := ((locate_eq_ok_iff hl).1 hspot).2
  rw [Path.steps_eq_track] at hlead
  have htrack := hlead.of_append_directory he
  rwa [foldl_move_track] at htrack

theorem status_of_leads (hl : t.LinkFree) (hfault : pathFault? p = none) {spot : Spot} {e : Entry}
    (h : t.Leads (start t.here p) p.steps spot) (he : spot.entry = some e)
    (hs : e = .directory ∨ spot.slashed = false) : t.status p = .ok (spot.place, e) := by
  have hlocate : t.locate .follow p = .ok spot := (locate_eq_ok_iff hl).2 ⟨hfault, h⟩
  have hslash : ¬ (spot.slashed && e != .directory) = true := by
    rcases hs with hs | hs <;> simp [hs]
  rw [status, hlocate]
  show present spot = _
  simp only [present, he, if_neg hslash]

theorem leads_of_status (hl : t.LinkFree) {q : Place} {e : Entry} (h : t.status p = .ok (q, e)) :
    pathFault? p = none ∧ ∃ spot, t.Leads (start t.here p) p.steps spot ∧ spot.place = q ∧
      spot.entry = some e ∧ (e = .directory ∨ spot.slashed = false) := by
  obtain ⟨spot, hspot, hpresent⟩ := exists_of_bind_eq_ok h
  obtain ⟨hplace, he, hs⟩ := present_eq_ok hpresent
  obtain ⟨hfault, hlead⟩ := (locate_eq_ok_iff hl).1 hspot
  exact ⟨hfault, spot, hlead, hplace, he, hs⟩

theorem status_of_keeps (hl : t.LinkFree) (hlu : u.LinkFree) (hhere : u.here = t.here)
    (hk : t.KeepsDirectories u) {q : Place} {e : Entry} (h : t.status p = .ok (q, e))
    (hu : u.get? q = some e) : u.status p = .ok (q, e) := by
  obtain ⟨hfault, spot, hlead, rfl, he, hs⟩ := leads_of_status hl h
  rw [← hhere] at hlead
  by_cases hdir : e = .directory
  · subst hdir
    exact status_of_leads hlu hfault (hlead.keep_directory he hk) he hs
  · have hkept := hlead.keep hk (by simpa [he] using hdir) (by simpa [hu] using hdir)
    have hstatus := status_of_leads hlu hfault hkept hu hs
    exact hstatus

variable {idle : List Step} {names : List Text}

theorem placeFrom_of_goesOn (here : Place) (hp : p.GoesOn base idle names) :
    p.placeFrom here = idle.foldl Step.move (base.placeFrom here) ++ names := by
  rw [← Path.foldl_move_steps, hp.steps, hp.start, List.foldl_append, foldl_move_track,
    List.foldl_append, Step.foldl_move_names]

theorem opens_of_goesOn (hl : t.LinkFree) (hp : p.GoesOn base idle names) {r : Place × Entry}
    (h : t.status p = .ok r) : t.Opens base := by
  obtain ⟨-, spot, hlead, -⟩ := leads_of_status hl h
  obtain ⟨init, n, hnames⟩ := (List.eq_nil_or_concat names).resolve_left hp.ne_nil
  have hslash : idle ++ names.map Step.name ≠ [.slash] := by
    intro h
    have hmem : Step.name n ∈ idle ++ names.map .name := by simp [hnames]
    rw [h] at hmem
    cases List.mem_singleton.1 hmem
  rw [hp.steps, hp.start] at hlead
  have htrack := hlead.of_append (by simp [hp.ne_nil]) hslash
  rwa [foldl_move_track] at htrack

/-- A path that goes on from a directory is found if the entry is there, since it is found in some
tree with the entry. -/
theorem status_of_goesOn (hl : t.LinkFree) (hlu : u.LinkFree) (hw : t.WellFormed)
    (hhere : u.here = t.here) (hopens : t.Opens base) (hp : p.GoesOn base idle names) {q : Place}
    {e : Entry} (h : u.status p = .ok (q, e)) (ht : t.get? q = some e) :
    t.status p = .ok (q, e) := by
  obtain ⟨hfault, spot, hlead, hplace, -⟩ := leads_of_status hlu h
  have hq : q = idle.foldl Step.move (base.placeFrom t.here) ++ names := by
    rw [← hplace, hlead.place_eq, Path.foldl_move_steps, placeFrom_of_goesOn _ hp, hhere]
  have hlength (n : Text) (hn : n ∈ names) : Text.byteLength n ≤ maxNameBytes := by
    apply hlead.byteLength_le
    rw [hp.steps]
    simp [hn]
  rw [hq] at ht ⊢
  have hnames := Leads.of_get? hw hp.ne_nil ht hlength
  have hall := Leads.append hopens rfl (Leads.of_idle hp.idle hnames)
  rw [← hp.start, ← hp.steps] at hall
  exact status_of_leads hl hfault hall rfl (.inr rfl)

end Tree
end PatternBridge
