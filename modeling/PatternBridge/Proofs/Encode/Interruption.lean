import PatternBridge.Proofs.Encode.Migration

/-! What a run leaves however it ends. The templates before the first one that fails are replaced,
those behind it are as they were, and the error is that of the failing template; only if none fails
it can be one of the data file. -/

namespace PatternBridge.Encode
open PatternBridge.Tree

variable {d : Dialect} {ext : Text} {layout : Layout} {t m u v : Tree}

/-- What a change may do at a place: nothing, or make a directory on the way to the data file. -/
def KeptAt (layout : Layout) (t u : Tree) (q : Place) : Prop :=
  u.get? q = t.get? q ∨
    t.get? q = none ∧ u.get? q = some .directory ∧ layout.dataFile.PassesThrough t.here q

/-- What a run leaves that replaced the templates `before` and not those in `after`, the first of
which, if there is one, is the one that failed. -/
structure Advanced (d : Dialect) (ext : Text) (layout : Layout) (t u : Tree)
    (before after : List Path) : Prop where
  sources_eq : t.filesEndingIn layout.patterns ext = before ++ after
  replaced : ∀ x ∈ before, ∃ dir stem s, Site t.here ext (outputs ext x) dir stem ∧
    t.get? (dir ++ [stem ++ ext]) = some (.file (.text s)) ∧
    u.get? (dir ++ [stem ++ encodedExt]) = some (.file (.text (d.encode s))) ∧
    u.get? (dir ++ [stem ++ sidecarExt]) = some (.file (.text d.sidecarText)) ∧
    u.read (outputs ext x).encoded = .ok (d.encode s) ∧
    u.read (outputs ext x).sidecar = .ok d.sidecarText
  gone : ∀ x ∈ before, u.get? (x.placeFrom t.here) = none ∨
    u.get? (x.placeFrom t.here) = some .directory ∧
      layout.dataFile.PassesThrough t.here (x.placeFrom t.here)
  intact : ∀ x ∈ after, ∃ c, t.get? (x.placeFrom t.here) = some (.file c) ∧
    u.get? (x.placeFrom t.here) = some (.file c)
  untouched : ∀ x ∈ after.tail, ∀ q, Touches t.here (outputs ext x) q → KeptAt layout t u q
  /-- Without a template that was replaced, the data file is as before too. -/
  unsaved : before = [] → ∀ q, (∀ x ∈ after.take 1, ¬ Touches t.here (outputs ext x) q) →
    u.get? q = t.get? q
  here : u.here = t.here
  kept : ∀ q, (∀ x ∈ before ++ after.take 1, ¬ Touches t.here (outputs ext x) q) →
    q ≠ layout.dataFile.placeFrom t.here → KeptAt layout t u q

/-- What attempts at templates that failed may have changed. -/
structure Attempted (files : List EncodedFile) (t u : Tree) : Prop where
  here : u.here = t.here
  linkFree : u.LinkFree
  keeps : t.KeepsDirectories u
  frame : ∀ q, (∀ f ∈ files, q ≠ f.encoded.placeFrom t.here ∧ q ≠ f.sidecar.placeFrom t.here) →
    u.get? q = t.get? q

theorem Attempted.refl (hl : t.LinkFree) (files : List EncodedFile) : Attempted files t t :=
  ⟨rfl, hl, .refl t, fun _ _ => rfl⟩

section
variable {files : List EncodedFile} {f : EncodedFile} {p : Path}

theorem Attempted.write (h : Attempted files t u) (hf : f ∈ files)
    (hp : p = f.encoded ∨ p = f.sidecar) {c : Content} (hwrite : u.write p c = .ok v) :
    Attempted files t v := by
  have hwrote := wrote_of_write h.linkFree hwrite
  refine ⟨hwrote.here.trans h.here, hwrote.linkFree, h.keeps.trans hwrote.keeps, fun q hq => ?_⟩
  obtain ⟨hencoded, hsidecar⟩ := hq f hf
  rw [hwrote.frame q, h.frame q hq]
  rw [h.here]
  obtain rfl | rfl := hp
  · exact hencoded
  · exact hsidecar

theorem Attempted.writeFails (h : Attempted files t u) (hf : f ∈ files)
    (hp : p = f.encoded ∨ p = f.sidecar) {text : Text} {e : Fault}
    (hwrite : u.WriteFails p text e v) : Attempted files t v := by
  cases hwrite with
  | unopened => exact h
  | stopped cut hwrite => exact h.write hf hp hwrite

end

def IsFaultOf (ext : Text) (x : Path) (f : EncodeFault) : Prop :=
  ∃ p e, f = .file p e ∧ (p = x ∨ p = (outputs ext x).encoded ∨ p = (outputs ext x).sidecar)

theorem FileRun.attempted {root x : Path} {s s' : Session} {f : EncodeFault}
    (hl : s.tree.LinkFree) (h : FileRun d ext root x s (.error f) s') :
    Attempted [outputs ext x] s.tree s'.tree ∧ IsFaultOf ext x f := by
  have hself : outputs ext x ∈ [outputs ext x] := List.mem_cons_self
  have hstart := Attempted.refl hl [outputs ext x]
  cases h with
  | unread => exact ⟨hstart, x, _, rfl, .inl rfl⟩
  | unescaped _ hwrite =>
    exact ⟨hstart.writeFails hself (.inl rfl) hwrite, _, _, rfl, .inr (.inl rfl)⟩
  | unpaired _ hwrite hpair =>
    have hescaped := hstart.write hself (.inl rfl) hwrite
    exact ⟨hescaped.writeFails hself (.inr rfl) hpair, _, _, rfl, .inr (.inr rfl)⟩
  | unremoved _ hwrite hpair =>
    have hescaped := hstart.write hself (.inl rfl) hwrite
    exact ⟨hescaped.write hself (.inr rfl) hpair, x, _, rfl, .inl rfl⟩

theorem Replaced.attempted {f : EncodedFile} {files : List EncodedFile} (h : Replaced d t m f)
    (hhere : m.here = t.here) (ha : Attempted files m v)
    (hapart : ∀ g ∈ files, ∀ q, Touches t.here f q → ¬ Touches t.here g q) :
    Replaced d t v f := by
  obtain ⟨⟨s, hcontent, hescaped⟩, hpaired, hgone, hencoded, hsidecar⟩ := h
  have hsame (q : Place) (hq : Touches t.here f q) : v.get? q = m.get? q := by
    apply ha.frame
    intro g hg
    rw [hhere]
    exact ⟨fun h => hapart g hg q hq (.inr (.inl h)), fun h => hapart g hg q hq (.inr (.inr h))⟩
  rw [← hsame _ (.inr (.inl rfl))] at hescaped
  rw [← hsame _ (.inr (.inr rfl))] at hpaired
  rw [← hsame _ (.inl rfl)] at hgone
  refine ⟨⟨s, hcontent, hescaped⟩, hpaired, hgone, ?_, ?_⟩
  · exact hencoded.keep ha.here ha.keeps (by simp [hhere, hescaped])
  · exact hsidecar.keep ha.here ha.keeps (by simp [hhere, hpaired])

theorem not_touches_of_ne (he : TemplateExt ext) (hl : t.LinkFree) (hw : t.WellFormed) {p x y : Path}
    (hx : x ∈ t.filesEndingIn p ext) (hy : y ∈ t.filesEndingIn p ext)
    (hne : x.placeFrom t.here ≠ y.placeFrom t.here) {q : Place}
    (hq : Touches t.here (outputs ext x) q) : ¬ Touches t.here (outputs ext y) q := by
  obtain ⟨dir, stem, hsite⟩ := exists_site he hl hw hx
  obtain ⟨dir', stem', hsite'⟩ := exists_site he hl hw hy
  exact hsite.apart he hsite' hne hq

theorem source_ne_outputs (he : TemplateExt ext) (hl : t.LinkFree) (hw : t.WellFormed)
    {p x y : Path} (hx : x ∈ t.filesEndingIn p ext) (hy : y ∈ t.filesEndingIn p ext) :
    x.placeFrom t.here ≠ (outputs ext y).encoded.placeFrom t.here ∧
      x.placeFrom t.here ≠ (outputs ext y).sidecar.placeFrom t.here := by
  by_cases hxy : x.placeFrom t.here = y.placeFrom t.here
  · obtain ⟨dir, stem, hsite⟩ := exists_site he hl hw hy
    rw [hxy]
    exact ⟨(hsite.distinct he).1.symm, (hsite.distinct he).2.1.symm⟩
  · have happart {q : Place} := not_touches_of_ne he hl hw hx hy hxy (q := q)
    exact ⟨fun h => happart (.inl rfl) (.inr (.inl h)), fun h => happart (.inl rfl) (.inr (.inr h))⟩

/-- The templates `before` are replaced, the first of `after` was attempted at most, and the data file
is still to be saved. -/
structure Stopped (d : Dialect) (ext : Text) (layout : Layout) (t m v : Tree)
    (before after : List Path) : Prop where
  sources_eq : t.filesEndingIn layout.patterns ext = before ++ after
  replaces : Replaces d t m (before.map (outputs ext))
  attempted : Attempted ((after.take 1).map (outputs ext)) m v

namespace Stopped
variable {before after : List Path}

theorem here (h : Stopped d ext layout t m v before after) : v.here = t.here :=
  h.attempted.here.trans h.replaces.here

theorem mem_before (h : Stopped d ext layout t m v before after) {x : Path} (hx : x ∈ before) :
    x ∈ t.filesEndingIn layout.patterns ext :=
  h.sources_eq ▸ List.mem_append_left _ hx

theorem mem_after (h : Stopped d ext layout t m v before after) {x : Path} (hx : x ∈ after) :
    x ∈ t.filesEndingIn layout.patterns ext :=
  h.sources_eq ▸ List.mem_append_right _ hx

theorem placeFrom_ne (h : Stopped d ext layout t m v before after) (hl : t.LinkFree)
    (hw : t.WellFormed) {x y : Path} (hx : x ∈ before) (hy : y ∈ after) :
    x.placeFrom t.here ≠ y.placeFrom t.here := by
  have hsorted := filesEndingIn_sorted hl hw layout.patterns ext
  rw [h.sources_eq, List.pairwise_map] at hsorted
  exact ((List.pairwise_append.1 hsorted).2.2 x hx y hy).ne

theorem placeFrom_ne_tail (h : Stopped d ext layout t m v before after) (hl : t.LinkFree)
    (hw : t.WellFormed) {x y : Path} (hx : x ∈ after.take 1) (hy : y ∈ after.tail) :
    x.placeFrom t.here ≠ y.placeFrom t.here := by
  have hsorted := filesEndingIn_sorted hl hw layout.patterns ext
  rw [h.sources_eq, List.pairwise_map] at hsorted
  have hlater := (List.pairwise_append.1 hsorted).2.1
  cases after with
  | nil => simp at hx
  | cons z rest =>
    rw [List.take_one, List.head?_cons] at hx
    obtain rfl : x = z := by simpa using hx
    exact ((List.pairwise_cons.1 hlater).1 y hy).ne

theorem frame (h : Stopped d ext layout t m v before after) {q : Place}
    (hq : ∀ x ∈ before ++ after.take 1, ¬ Touches t.here (outputs ext x) q) :
    v.get? q = t.get? q := by
  rw [h.attempted.frame q, h.replaces.frame q]
  · intro f hf
    obtain ⟨x, hx, rfl⟩ := List.mem_map.1 hf
    exact hq x (List.mem_append_left _ hx)
  · intro f hf
    obtain ⟨x, hx, rfl⟩ := List.mem_map.1 hf
    have hx := hq x (List.mem_append_right _ hx)
    rw [h.replaces.here]
    exact ⟨fun h => hx (.inr (.inl h)), fun h => hx (.inr (.inr h))⟩

theorem replaced (h : Stopped d ext layout t m v before after) (he : TemplateExt ext)
    (hl : t.LinkFree) (hw : t.WellFormed) {x : Path} (hx : x ∈ before) :
    Replaced d t v (outputs ext x) := by
  have hreplaced := h.replaces.replaced _ (List.mem_map_of_mem hx)
  apply hreplaced.attempted h.replaces.here h.attempted
  intro g hg q hq
  obtain ⟨y, hy, rfl⟩ := List.mem_map.1 hg
  have hy := List.mem_of_mem_take hy
  exact not_touches_of_ne he hl hw (h.mem_before hx) (h.mem_after hy) (h.placeFrom_ne hl hw hx hy) hq

/-- A template that is not replaced is as before, also the one that was attempted. -/
theorem get?_after (h : Stopped d ext layout t m v before after) (he : TemplateExt ext)
    (hl : t.LinkFree) (hw : t.WellFormed) {x : Path} (hx : x ∈ after) :
    v.get? (x.placeFrom t.here) = t.get? (x.placeFrom t.here) := by
  rw [h.attempted.frame, h.replaces.frame]
  · intro f hf
    obtain ⟨y, hy, rfl⟩ := List.mem_map.1 hf
    exact not_touches_of_ne he hl hw (h.mem_after hx) (h.mem_before hy)
      (h.placeFrom_ne hl hw hy hx).symm (.inl rfl)
  · intro f hf
    obtain ⟨y, hy, rfl⟩ := List.mem_map.1 hf
    rw [h.replaces.here]
    -- here `y` may be `x`, whose own outputs are elsewhere too
    exact source_ne_outputs he hl hw (h.mem_after hx) (h.mem_after (List.mem_of_mem_take hy))

theorem frame_tail (h : Stopped d ext layout t m v before after) (he : TemplateExt ext)
    (hl : t.LinkFree) (hw : t.WellFormed) {x : Path} (hx : x ∈ after.tail) {q : Place}
    (hq : Touches t.here (outputs ext x) q) : v.get? q = t.get? q := by
  have hx' := h.mem_after (List.mem_of_mem_tail hx)
  apply h.frame
  intro y hy hy'
  rcases List.mem_append.1 hy with hy | hy
  · have hne := h.placeFrom_ne hl hw hy (List.mem_of_mem_tail hx)
    exact not_touches_of_ne he hl hw (h.mem_before hy) hx' hne hy' hq
  · have hne := h.placeFrom_ne_tail hl hw hy hx
    exact not_touches_of_ne he hl hw (h.mem_after (List.mem_of_mem_take hy)) hx' hne hy' hq

theorem keptAt (h : Stopped d ext layout t m v before after) (hsaved : SavedTo layout.dataFile v u)
    {q : Place} (hv : v.get? q = t.get? q) (hne : q ≠ layout.dataFile.placeFrom t.here) :
    KeptAt layout t u q := by
  rw [← h.here] at hne
  unfold KeptAt
  rw [← hv, ← h.here]
  exact hsaved.frame q hne

/-- Saving the data file, which is none of the templates' files, takes the run to its end. -/
theorem advanced (h : Stopped d ext layout t m v before after) (he : TemplateExt ext)
    (hl : t.LinkFree) (hw : t.WellFormed) (hsaved : SavedTo layout.dataFile v u)
    (hunsaved : before = [] → u = v)
    (hdata : ∀ x ∈ t.filesEndingIn layout.patterns ext,
      ¬ Touches t.here (outputs ext x) (layout.dataFile.placeFrom t.here)) :
    Advanced d ext layout t u before after := by
  refine ⟨h.sources_eq, ?replaced, ?gone, ?intact, ?untouched, ?unsaved, hsaved.here.trans h.here, ?kept⟩
  case replaced =>
    intro x hx
    have hmem := h.mem_before hx
    obtain ⟨dir, stem, hsite⟩ := exists_site he hl hw hmem
    obtain ⟨s, hs⟩ := (h.replaced he hl hw hx).saved hsite h.here hsaved (hdata x hmem)
    exact ⟨dir, stem, s, hsite, hs⟩
  case gone =>
    intro x hx
    exact (h.replaced he hl hw hx).gone_of_savedTo h.here hsaved (hdata x (h.mem_before hx))
  case intact =>
    intro x hx
    have hplaces := List.mem_map_of_mem (f := (·.placeFrom t.here)) (h.mem_after hx)
    obtain ⟨c, hc⟩ := ((mem_places_filesEndingIn hl hw he.dot).1 hplaces).file
    refine ⟨c, hc, ?_⟩
    obtain hu | ⟨hnone, -⟩ := h.keptAt hsaved (h.get?_after he hl hw hx) fun h' =>
      hdata x (h.mem_after hx) (.inl h'.symm)
    · rw [hu, hc]
    · rw [hc] at hnone
      cases hnone
  case untouched =>
    intro x hx q hq
    apply h.keptAt hsaved (h.frame_tail he hl hw hx hq)
    rintro rfl
    exact hdata x (h.mem_after (List.mem_of_mem_tail hx)) hq
  case unsaved =>
    intro hnone q hq
    rw [hunsaved hnone]
    apply h.frame
    rwa [hnone, List.nil_append]
  case kept =>
    intro q hq hne
    exact h.keptAt hsaved (h.frame hq) hne

end Stopped

/-- How a run ends that replaced the templates `before` and not those in `after`. -/
inductive EndsWith (d : Dialect) (ext : Text) (layout : Layout) (t : Tree) (before after : List Path) :
    Except EncodeFault EncodeReport → Prop where
  | done {report : EncodeReport} (hafter : after = [])
      (hfiles : report.files = before.map (outputs ext)) : EndsWith d ext layout t before after (.ok report)
  | fileFailed {x : Path} {rest : List Path} {m m' : Session} {f : EncodeFault}
      (hafter : after = x :: rest) (hreplaces : Replaces d t m.tree (before.map (outputs ext)))
      (hfails : FileRun d ext layout.root x m (.error f) m') (hfault : IsFaultOf ext x f) :
      EndsWith d ext layout t before after (.error f)
  | dataFailed {m : Session} {f : DataFault} (hafter : after = []) (hbefore : before ≠ [])
      (hreplaces : Replaces d t m.tree (before.map (outputs ext)))
      (hfails : (((DataFile.load t layout.dataFile).add
        ((DataFile.load t layout.dataFile).missingKeys d.hiddenPairs)).run m).1.1 = .error f) :
      EndsWith d ext layout t before after (.error (.data f))

theorem addLacking_eq_error {data : DataFile} {r : Progress} {s s' : Session} {f : EncodeFault}
    (h : (addLacking d data r).outcome s = (.error f, s')) :
    r.1 ≠ [] ∧ r.2 = none ∧ ∃ e, f = .data e ∧
      ((data.add (data.missingKeys d.hiddenPairs)).run s).1.1 = .error e := by
  unfold addLacking at h
  split at h
  · cases h
  · next hne =>
    unfold addKeys at h
    rw [Task.outcome_bind, Task.outcome_liftM] at h
    dsimp only at h
    split at h
    · cases h
    · next e he =>
      split at h
      · cases h
      · next hnone =>
        refine ⟨by simpa using hne, by simpa using hnone, e, ?_, he⟩
        exact (Except.error.inj (Prod.mk.inj h).1).symm

theorem FilesRun.ended_or_failed {root : Path} {s s' : Session} {sources : List Path}
    {failure : Option EncodeFault} (h : FilesRun d ext root s sources ([], failure) s') :
    (sources = [] ∧ failure = none ∧ s' = s) ∨
      ∃ x rest f, sources = x :: rest ∧ failure = some f ∧ FileRun d ext root x s (.error f) s' := by
  cases h with
  | ended => exact .inl ⟨rfl, rfl, rfl⟩
  | failed rest hfile => exact .inr ⟨_, rest, _, rfl, rfl, hfile⟩

theorem advanced_of_filesRun {s m : Session} {r : Progress} (he : TemplateExt ext)
    (hl : s.tree.LinkFree) (hw : s.tree.WellFormed)
    (hdata : ∀ x ∈ s.tree.filesEndingIn layout.patterns ext,
      ¬ Touches s.tree.here (outputs ext x) (layout.dataFile.placeFrom s.tree.here))
    (h : FilesRun d ext layout.root s (s.tree.filesEndingIn layout.patterns ext) r m) :
    ∃ before after, r.1 = before.map (outputs ext) ∧
      Advanced d ext layout s.tree
        ((addLacking d (.load s.tree layout.dataFile) r).outcome m).2.tree before after ∧
      ((after = [] ∧ r.2 = none ∧ Replaces d s.tree m.tree (before.map (outputs ext))) ∨
        ∃ f, r.2 = some f ∧ EndsWith d ext layout s.tree before after (.error f)) := by
  have hnodup := (List.pairwise_map.1 (filesEndingIn_sorted hl hw layout.patterns ext)).imp
    Place.Before.ne
  obtain ⟨before, after, n, hsources, hfiles, hreplaces, hrest⟩ :=
    h.replaces he hl (fun x hx => exists_site he hl hw hx) hnodup
  rw [hfiles] at hreplaces
  have hunsaved (hnone : before = []) :
      ((addLacking d (.load s.tree layout.dataFile) r).outcome m).2.tree = m.tree := by
    have hempty : r.1.isEmpty = true := by rw [hfiles, hnone]; rfl
    rw [addLacking, if_pos hempty]
    rfl
  have hends (hattempted : Attempted ((after.take 1).map (outputs ext)) n.tree m.tree) :
      Advanced d ext layout s.tree
        ((addLacking d (.load s.tree layout.dataFile) r).outcome m).2.tree before after := by
    have hstopped : Stopped d ext layout s.tree n.tree m.tree before after :=
      ⟨hsources, hreplaces, hattempted⟩
    have hsaved := savedTo_addLacking d s.tree layout.dataFile r hattempted.linkFree
    exact hstopped.advanced he hl hw hsaved hunsaved hdata
  refine ⟨before, after, hfiles, ?_⟩
  obtain ⟨rfl, hnone, rfl⟩ | ⟨x, rest, f, rfl, hsome, hfile⟩ := hrest.ended_or_failed
  · exact ⟨hends (.refl hreplaces.linkFree _), .inl ⟨rfl, hnone, hreplaces⟩⟩
  · obtain ⟨hattempted, hfault⟩ := hfile.attempted hreplaces.linkFree
    exact ⟨hends hattempted, .inr ⟨f, hsome, .fileFailed rfl hreplaces hfile hfault⟩⟩

theorem advanced_of_run {c : Config} {s s' : Session} {r : Except EncodeFault EncodeReport}
    (he : TemplateExt ext) (hl : s.tree.LinkFree) (hw : s.tree.WellFormed)
    (hdata : ∀ x ∈ s.tree.filesEndingIn c.layout.patterns ext,
      ¬ Touches s.tree.here (outputs ext x) (c.layout.dataFile.placeFrom s.tree.here))
    (h : Run d ext c.layout s r s') :
    ∃ before after, Advanced d ext c.layout s.tree s'.tree before after ∧
      EndsWith d ext c.layout s.tree before after r := by
  cases h with
  | @unadded m u p f hfiles hadd =>
    obtain ⟨before, after, hbefore, hadvanced, hend⟩ := advanced_of_filesRun he hl hw hdata hfiles
    obtain ⟨hne, hnone, e, rfl, hfails⟩ := addLacking_eq_error hadd
    rw [hadd] at hadvanced
    obtain ⟨hafter, -, hreplaces⟩ | ⟨f, hsome, -⟩ := hend
    · refine ⟨before, after, hadvanced, .dataFailed hafter ?_ hreplaces hfails⟩
      rintro rfl
      exact hne hbefore
    · rw [hnone] at hsome
      cases hsome
  | @failed m u files f keys hfiles hadd =>
    obtain ⟨before, after, hbefore, hadvanced, hend⟩ := advanced_of_filesRun he hl hw hdata hfiles
    rw [hadd] at hadvanced
    rw [announced_tree]
    obtain ⟨-, hnone, -⟩ | ⟨f', hsome, hends⟩ := hend
    · cases hnone
    · rw [Option.some.inj hsome]
      exact ⟨before, after, hadvanced, hends⟩
  | @done m u files keys hfiles hadd =>
    obtain ⟨before, after, hbefore, hadvanced, hend⟩ := advanced_of_filesRun he hl hw hdata hfiles
    rw [hadd] at hadvanced
    rw [announced_tree]
    obtain ⟨hafter, -, -⟩ | ⟨f', hsome, -⟩ := hend
    · exact ⟨before, after, hadvanced, .done hafter hbefore⟩
    · cases hsome

theorem argumentMessage?_of_sourceExt {given : Option Text} {f : EncodeFault}
    (h : sourceExt given = .error f) : f.argumentMessage?.isSome = true := by
  unfold sourceExt at h
  split at h
  · rw [← Except.error.inj h]
    rfl
  · split at h
    · rw [← Except.error.inj h]
      rfl
    · cases h

theorem outcome_run_cases (tag : Text) (given : Option Text) (layout : Layout) (s : Session) :
    (∃ f, (run tag given layout).outcome s = (.error f, s) ∧ f.argumentMessage?.isSome = true) ∨
      ∃ d ext, Dialect.find? tag = some d ∧ sourceExt given = .ok ext := by
  cases hd : Dialect.find? tag with
  | none =>
    refine .inl ⟨.unknownDialect tag, ?_, rfl⟩
    unfold run
    rw [hd]
    rfl
  | some d =>
    cases hext : sourceExt given with
    | error f =>
      refine .inl ⟨f, ?_, argumentMessage?_of_sourceExt hext⟩
      unfold run
      rw [hd]
      dsimp only
      rw [hext]
      rfl
    | ok ext => exact .inr ⟨d, ext, rfl, rfl⟩

theorem EndsWith.argumentMessage? {before after : List Path} {f : EncodeFault}
    (h : EndsWith d ext layout t before after (.error f)) : f.argumentMessage? = none := by
  cases h with
  | fileFailed _ _ _ hfault =>
    obtain ⟨p, e, rfl, -⟩ := hfault
    rfl
  | dataFailed => rfl

theorem run_keeps_templates {tag : Text} {given : Option Text} {c : Config} {s s' : Session}
    {r : Except EncodeFault EncodeReport} (hw : s.tree.WellFormed) (hl : s.tree.LinkFree)
    (hends : ∀ ext, sourceExt given = .ok ext →
      Text.endsWith ext encodedExt = false ∧ Text.endsWith ext sidecarExt = false)
    (hdata : ∀ ext, sourceExt given = .ok ext →
      ∀ x ∈ s.tree.filesEndingIn c.layout.patterns ext,
        (outputs ext x).encoded.placeFrom s.tree.here ≠ c.layout.dataFile.placeFrom s.tree.here ∧
        (outputs ext x).sidecar.placeFrom s.tree.here ≠ c.layout.dataFile.placeFrom s.tree.here)
    (h : (run tag given c.layout).outcome s = (r, s')) :
    (∀ f, r = .error f → f.argumentMessage?.isSome = true → s' = s) ∧
    ((∀ f, r = .error f → f.argumentMessage? = none) →
      ∃ d ext before after, Dialect.find? tag = some d ∧ sourceExt given = .ok ext ∧
        Advanced d ext c.layout s.tree s'.tree before after ∧
        EndsWith d ext c.layout s.tree before after r) := by
  obtain ⟨f, hrefused, hmessage⟩ | ⟨d, ext, hd, hext⟩ := outcome_run_cases tag given c.layout s
  · obtain ⟨rfl, rfl⟩ := Prod.mk.inj (h.symm.trans hrefused)
    refine ⟨fun _ _ _ => rfl, fun hnone => ?_⟩
    rw [hnone f rfl] at hmessage
    cases hmessage
  · have he : TemplateExt ext := ⟨head?_of_sourceExt hext, (hends ext hext).1, (hends ext hext).2⟩
    have hrun := run_run hd hext c.layout s
    rw [h] at hrun
    obtain ⟨before, after, hadvanced, hend⟩ := advanced_of_run he hl hw (fun x hx =>
      not_touches_dataFile he hl hw hx (hdata ext hext x hx).1 (hdata ext hext x hx).2) hrun
    refine ⟨?_, fun _ => ⟨d, ext, before, after, hd, hext, hadvanced, hend⟩⟩
    rintro f rfl hmessage
    rw [hend.argumentMessage?] at hmessage
    cases hmessage

def halted : Session where
  tree := {
    entries := [(["source"], .directory), (["source", "_patterns"], .directory),
      (["source", "_patterns", "a.hbs"], .file (.text "\x7b\x7bx\x7d\x7d")),
      (["source", "_patterns", "b.hbs"], .file (.octets [0xff])),
      (["source", "_patterns", "z.hbs"], .file (.text "\x7b\x7bz\x7d\x7d"))]
    sorted := by decide
    here := [] }

def haltedRun (c : Config) : Except EncodeFault EncodeReport × Session :=
  (run "hbs" (some "hbs".toList) c.layout).outcome halted

theorem halted_keeps_templates :
    (haltedRun {}).1 = .error (.file ⟨"./source/_patterns/b.hbs"⟩ .notText) ∧
    ∃ d ext before after, Dialect.find? "hbs" = some d ∧
      sourceExt (some "hbs".toList) = .ok ext ∧
      Advanced d ext ({} : Config).layout halted.tree (haltedRun {}).2.tree before after ∧
      EndsWith d ext ({} : Config).layout halted.tree before after (haltedRun {}).1 := by
  have hfault : (haltedRun {}).1 = .error (.file ⟨"./source/_patterns/b.hbs"⟩ .notText) := by
    decide +kernel
  have hext (ext : Text) (h : sourceExt (some "hbs".toList) = .ok ext) : ext = ".hbs".toList :=
    (Except.ok.inj h).symm
  have hrun : (run "hbs" (some "hbs".toList) ({} : Config).layout).outcome halted =
      ((haltedRun {}).1, (haltedRun {}).2) := (Prod.eta _).symm
  refine ⟨hfault, (run_keeps_templates (by decide) (by decide) ?_ ?_ hrun).2 ?_⟩
  · intro ext h
    rw [hext ext h]
    decide
  · intro ext h
    rw [hext ext h]
    decide +kernel
  · intro f hf
    rw [← Except.error.inj (hfault.symm.trans hf)]
    rfl

def shadowing : Config := { data := ⟨"source/_patterns/z.mustache"⟩ }

/-- No data file has the path of an output. Yet once a template's place is made a directory, once a
directory is made beside a template behind the failing one, and once the keys overwrite the marker
values of a template. -/
theorem data_path_reaches_templates :
    (sample.tree.WellFormed ∧ sample.tree.LinkFree ∧
      (∀ f ∈ sampleReport.files,
        f.encoded.placeFrom sample.tree.here ≠ crossing.layout.dataFile.placeFrom sample.tree.here ∧
        f.sidecar.placeFrom sample.tree.here ≠
          crossing.layout.dataFile.placeFrom sample.tree.here) ∧
      sample.tree.isFile ⟨"./source/_patterns/a.hbs"⟩ = true ∧
      (sampleAfter crossing).tree.isDirectory ⟨"./source/_patterns/a.hbs"⟩ = true) ∧
    (halted.tree.WellFormed ∧ halted.tree.LinkFree ∧
      (∀ x ∈ halted.tree.filesEndingIn shadowing.layout.patterns ".hbs",
        (outputs ".hbs" x).encoded.placeFrom halted.tree.here ≠
          shadowing.layout.dataFile.placeFrom halted.tree.here ∧
        (outputs ".hbs" x).sidecar.placeFrom halted.tree.here ≠
          shadowing.layout.dataFile.placeFrom halted.tree.here) ∧
      (haltedRun shadowing).1 = .error (.file ⟨"./source/_patterns/b.hbs"⟩ .notText) ∧
      halted.tree.exists? ⟨"./source/_patterns/z.mustache"⟩ = false ∧
      (haltedRun shadowing).2.tree.exists? ⟨"./source/_patterns/z.mustache"⟩ = true) ∧
    (∀ f ∈ sampleReport.files,
      f.encoded ≠ aliased.layout.dataFile ∧ f.sidecar ≠ aliased.layout.dataFile) ∧
    (sampleAfter aliased).tree.read ⟨"./source/_patterns/_data.json"⟩ ≠
      .ok Dialect.handlebars.sidecarText := by
  refine ⟨⟨by decide, by decide, by decide +kernel, by decide +kernel, by decide +kernel⟩,
    ⟨by decide, by decide, by decide +kernel, by decide +kernel, by decide +kernel,
      by decide +kernel⟩, by decide +kernel, by decide +kernel⟩

end PatternBridge.Encode
