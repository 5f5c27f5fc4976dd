import PatternBridge.Proofs.Encode.Run

/-! What a run that goes well leaves behind. The templates below the patterns directory are
replaced by their escaped forms with the marker values beside them, the data file is saved, and
nothing else changes; thus a second run finds nothing to do. -/

namespace PatternBridge.Encode
open PatternBridge.Tree

structure Migrated (d : Dialect) (ext : Text) (layout : Layout) (t u : Tree)
    (files : List EncodedFile) : Prop where
  files_eq : files = (t.filesEndingIn layout.patterns ext).map (outputs ext)
  ordered : (files.map (·.source.placeFrom t.here)).Pairwise Place.Before
  complete : ∀ q, q ∈ files.map (·.source.placeFrom t.here) ↔ t.FileEndingIn layout.patterns ext q
  replaced : ∀ f ∈ files, ∃ dir stem s, Site t.here ext f dir stem ∧
    t.get? (dir ++ [stem ++ ext]) = some (.file (.text s)) ∧
    u.get? (dir ++ [stem ++ encodedExt]) = some (.file (.text (d.encode s))) ∧
    u.get? (dir ++ [stem ++ sidecarExt]) = some (.file (.text d.sidecarText)) ∧
    u.read f.encoded = .ok (d.encode s) ∧ u.read f.sidecar = .ok d.sidecarText
  /-- Only if the data file's path leads through a template's place, a directory is made there. -/
  gone : ∀ f ∈ files, u.get? (f.source.placeFrom t.here) = none ∨
    u.get? (f.source.placeFrom t.here) = some .directory ∧
      layout.dataFile.PassesThrough t.here (f.source.placeFrom t.here)
  here : u.here = t.here
  /-- All other places are as before, except that directories above the data file may be new. -/
  kept : ∀ q, (∀ f ∈ files, ¬ Touches t.here f q) → q ≠ layout.dataFile.placeFrom t.here →
    u.get? q = t.get? q ∨ t.get? q = none ∧ u.get? q = some .directory ∧
      layout.dataFile.PassesThrough t.here q

theorem placeFrom_dataFile (here : Place) (c : Config) :
    ∃ dir, c.layout.dataFile.placeFrom here = dir ++ [Config.dataFileName] := by
  have hname : Path.IsName ("_data".toList ++ sidecarExt) :=
    Path.isName_append (by decide) (by decide) (by decide)
  exact ⟨_, Path.placeFrom_div_name here (c.rootPath / c.data) hname⟩

variable {d : Dialect} {ext : Text} {layout : Layout} {t m u : Tree} {files : List EncodedFile}

theorem exists_site (he : TemplateExt ext) (hl : t.LinkFree) (hw : t.WellFormed) {p x : Path}
    (hx : x ∈ t.filesEndingIn p ext) : ∃ dir stem, Site t.here ext (outputs ext x) dir stem := by
  obtain ⟨cs, stem, hcs, -⟩ := components_of_mem_filesEndingIn hl hw he.dot hx
  refine ⟨_, stem, site_of_components t.here hcs ?_⟩
  obtain ⟨c, hc⟩ := ((mem_places_filesEndingIn hl hw he.dot).1 (List.mem_map_of_mem hx)).file
  rw [Path.placeFrom_of_components t.here hcs] at hc
  have hname : Path.IsName (stem ++ ext) := hw.named hc _ (by simp)
  exact fun hmem => hname.noSlash (List.mem_append_left _ hmem)

theorem get?_of_savedTo {p : Path} {q : Place} {e : Entry} (h : SavedTo p m u)
    (hq : q ≠ p.placeFrom m.here) (hm : m.get? q = some e) : u.get? q = some e := by
  obtain hu | ⟨hnone, -, -⟩ := h.frame q hq
  · rw [hu, hm]
  · rw [hm] at hnone
    cases hnone

theorem read_of_savedTo {p : Path} {f : Path} {s : Text} (h : SavedTo p m u)
    (hf : f.placeFrom m.here ≠ p.placeFrom m.here) (hreach : m.Reaches f)
    (hm : m.get? (f.placeFrom m.here) = some (.file (.text s))) : u.read f = .ok s := by
  have hu := get?_of_savedTo h hf hm
  rw [← h.here] at hu
  apply (hreach.keep h.here h.keeps ?_).read h.linkFree hu
  rw [← h.here, hu]
  simp

theorem ne_of_not_touches {p : Path} {f : EncodedFile} {q : Place} (hhere : m.here = t.here)
    (hp : ¬ Touches t.here f (p.placeFrom t.here)) (hq : Touches t.here f q) :
    q ≠ p.placeFrom m.here := by
  rintro rfl
  rw [hhere] at hq
  exact hp hq

theorem Replaced.saved {p : Path} {f : EncodedFile} {dir : Place} {stem : Text}
    (h : Replaced d t m f) (hsite : Site t.here ext f dir stem) (hhere : m.here = t.here)
    (hs : SavedTo p m u) (hp : ¬ Touches t.here f (p.placeFrom t.here)) :
    ∃ s, t.get? (dir ++ [stem ++ ext]) = some (.file (.text s)) ∧
      u.get? (dir ++ [stem ++ encodedExt]) = some (.file (.text (d.encode s))) ∧
      u.get? (dir ++ [stem ++ sidecarExt]) = some (.file (.text d.sidecarText)) ∧
      u.read f.encoded = .ok (d.encode s) ∧ u.read f.sidecar = .ok d.sidecarText := by
  obtain ⟨⟨s, hcontent, hescaped⟩, hpaired, -, hencoded, hsidecar⟩ := h
  have hes := ne_of_not_touches hhere hp (.inr (.inl rfl))
  have hss := ne_of_not_touches hhere hp (.inr (.inr rfl))
  rw [← hsite.source, ← hsite.encoded, ← hsite.sidecar]
  refine ⟨s, hcontent, get?_of_savedTo hs hes hescaped, get?_of_savedTo hs hss hpaired, ?_, ?_⟩
  · rw [← hhere] at hes hescaped
    exact read_of_savedTo hs hes hencoded hescaped
  · rw [← hhere] at hss hpaired
    exact read_of_savedTo hs hss hsidecar hpaired

theorem Replaced.gone_of_savedTo {p : Path} {f : EncodedFile} (h : Replaced d t m f)
    (hhere : m.here = t.here) (hs : SavedTo p m u)
    (hp : ¬ Touches t.here f (p.placeFrom t.here)) :
    u.get? (f.source.placeFrom t.here) = none ∨
      u.get? (f.source.placeFrom t.here) = some .directory ∧
        p.PassesThrough t.here (f.source.placeFrom t.here) := by
  obtain hu | ⟨-, hu, hpath⟩ := hs.frame _ (ne_of_not_touches hhere hp (.inl rfl))
  · exact .inl (hu.trans h.gone)
  · rw [hhere] at hpath
    exact .inr ⟨hu, hpath⟩

theorem migrated_of_savedTo (he : TemplateExt ext) (hl : t.LinkFree) (hw : t.WellFormed)
    (hfiles : files = (t.filesEndingIn layout.patterns ext).map (outputs ext))
    (hreplaces : Replaces d t m files) (hsaved : SavedTo layout.dataFile m u)
    (hdata : ∀ f ∈ files, ¬ Touches t.here f (layout.dataFile.placeFrom t.here)) :
    Migrated d ext layout t u files := by
  have hplaces : files.map (·.source.placeFrom t.here) =
      (t.filesEndingIn layout.patterns ext).map (·.placeFrom t.here) := by
    rw [hfiles, List.map_map]
    rfl
  refine ⟨hfiles, ?_, ?_, ?_, ?_, hsaved.here.trans hreplaces.here, ?_⟩
  · rw [hplaces]
    exact filesEndingIn_sorted hl hw layout.patterns ext
  · intro q
    rw [hplaces]
    exact mem_places_filesEndingIn hl hw he.dot
  · intro f hf
    obtain ⟨x, hx, rfl⟩ := List.mem_map.1 (hfiles ▸ hf)
    obtain ⟨dir, stem, hsite⟩ := exists_site he hl hw hx
    obtain ⟨s, hs⟩ := (hreplaces.replaced _ hf).saved hsite hreplaces.here hsaved (hdata _ hf)
    exact ⟨dir, stem, s, hsite, hs⟩
  · intro f hf
    exact (hreplaces.replaced f hf).gone_of_savedTo hreplaces.here hsaved (hdata f hf)
  · intro q hq hne
    rw [← hreplaces.here] at hne
    rw [← hreplaces.frame q hq, ← hreplaces.here]
    exact hsaved.frame q hne

theorem Migrated.no_sources {c : Config} (h : Migrated d ext c.layout t u files)
    (he : TemplateExt ext) (hl : u.LinkFree) (hne : files ≠ []) :
    u.filesEndingIn c.layout.patterns ext = [] := by
  apply filesEndingIn_eq_nil hl he.dot
  rintro q ⟨-, hwithin, ⟨dir, stem, rfl, hstem⟩, content, hfile⟩
  have hname {dir' : Place} {n : Text} (hn : stem ++ ext ≠ n) :
      dir ++ [stem ++ ext] ≠ dir' ++ [n] := fun hq => hn (List.singleton_inj.1 (List.append_inj' hq rfl).2)
  have huntouched (f : EncodedFile) (hf : f ∈ files) :
      ¬ Touches t.here f (dir ++ [stem ++ ext]) := by
    have hgone := h.gone f hf
    obtain ⟨dir', stem', _, hsite, -⟩ := h.replaced f hf
    rintro (hq | hq | hq)
    · rw [← hq, hfile] at hgone
      simp at hgone
    · exact hname (he.ne_encoded stem stem') (hq.trans hsite.encoded)
    · exact hname (he.ne_sidecar stem stem') (hq.trans hsite.sidecar)
  have hapart : dir ++ [stem ++ ext] ≠ c.layout.dataFile.placeFrom t.here := by
    obtain ⟨dir', hdata⟩ := placeFrom_dataFile t.here c
    rw [hdata]
    exact hname (he.ne_dataFileName stem)
  obtain hsame | ⟨-, hmade, -⟩ := h.kept _ huntouched hapart
  · -- a template that is still there was one before, but none of those was left
    obtain ⟨f, hf⟩ := List.exists_mem_of_ne_nil files hne
    have hreached := ((h.complete _).1 (List.mem_map_of_mem hf)).reached
    rw [h.here] at hwithin
    rw [hsame] at hfile
    have hbefore : t.FileEndingIn c.layout.patterns ext (dir ++ [stem ++ ext]) :=
      ⟨hreached, hwithin, ⟨dir, stem, rfl, hstem⟩, content, hfile⟩
    obtain ⟨g, hg, hplace⟩ := List.mem_map.1 ((h.complete _).2 hbefore)
    exact huntouched g hg (.inl hplace.symm)
  · rw [hmade] at hfile
    cases hfile

theorem not_touches_dataFile {c : Config} (he : TemplateExt ext) (hl : t.LinkFree)
    (hw : t.WellFormed) {p x : Path} (hx : x ∈ t.filesEndingIn p ext)
    (hencoded : (outputs ext x).encoded.placeFrom t.here ≠ c.layout.dataFile.placeFrom t.here)
    (hsidecar : (outputs ext x).sidecar.placeFrom t.here ≠ c.layout.dataFile.placeFrom t.here) :
    ¬ Touches t.here (outputs ext x) (c.layout.dataFile.placeFrom t.here) := by
  obtain ⟨dir, stem, hsite⟩ := exists_site he hl hw hx
  obtain ⟨dir', hplace⟩ := placeFrom_dataFile t.here c
  rintro (hq | hq | hq)
  · rw [hplace, hsite.source] at hq
    exact he.ne_dataFileName stem (List.singleton_inj.1 (List.append_inj' hq rfl).2).symm
  · exact hencoded hq.symm
  · exact hsidecar hq.symm

theorem migrated_of_run {c : Config} {s s' : Session} {report : EncodeReport}
    (he : TemplateExt ext) (hl : s.tree.LinkFree) (hw : s.tree.WellFormed)
    (hdata : ∀ x ∈ s.tree.filesEndingIn c.layout.patterns ext,
      ¬ Touches s.tree.here (outputs ext x) (c.layout.dataFile.placeFrom s.tree.here))
    (h : Run d ext c.layout s (.ok report) s') :
    s'.tree.LinkFree ∧ Migrated d ext c.layout s.tree s'.tree report.files := by
  cases h with
  | @done m u files keys hfiles hadd =>
  have hnodup := (List.pairwise_map.1 (filesEndingIn_sorted hl hw c.layout.patterns ext)).imp
    Place.Before.ne
  obtain ⟨before, after, m', hall, hmap, hreplaces, hrest⟩ :=
    hfiles.replaces he hl (fun x hx => exists_site he hl hw hx) hnodup
  -- without a failure, no template is left to encode
  cases hrest
  rw [List.append_nil] at hall
  rw [← hall] at hmap
  dsimp only at hmap hreplaces
  have hsaved := savedTo_addLacking d s.tree c.layout.dataFile (files, none) hreplaces.linkFree
  rw [hadd] at hsaved
  rw [announced_tree]
  refine ⟨hsaved.linkFree, migrated_of_savedTo he hl hw hmap hreplaces hsaved fun f hf => ?_⟩
  obtain ⟨x, hx, rfl⟩ := List.mem_map.1 (hmap ▸ hf)
  exact hdata x hx

theorem run_migrates_project {tag : Text} {given : Option Text} {c : Config} {s s' : Session}
    {report : EncodeReport} (hw : s.tree.WellFormed) (hl : s.tree.LinkFree)
    (hd : Dialect.find? tag = some d) (hext : sourceExt given = .ok ext)
    (hnotEncoded : Text.endsWith ext encodedExt = false)
    (hnotSidecar : Text.endsWith ext sidecarExt = false)
    (hdata : ∀ x ∈ s.tree.filesEndingIn c.layout.patterns ext,
      (outputs ext x).encoded.placeFrom s.tree.here ≠ c.layout.dataFile.placeFrom s.tree.here ∧
      (outputs ext x).sidecar.placeFrom s.tree.here ≠ c.layout.dataFile.placeFrom s.tree.here)
    (h : (run tag given c.layout).outcome s = (.ok report, s')) :
    Migrated d ext c.layout s.tree s'.tree report.files ∧
      (run tag given c.layout).outcome s' = (.ok ⟨[], []⟩, s') := by
  have he : TemplateExt ext := ⟨head?_of_sourceExt hext, hnotEncoded, hnotSidecar⟩
  have hrun := run_run hd hext c.layout s
  rw [h] at hrun
  obtain ⟨hl', hmigrated⟩ := migrated_of_run he hl hw (fun x hx =>
    not_touches_dataFile he hl hw hx (hdata x hx).1 (hdata x hx).2) hrun
  refine ⟨hmigrated, ?_⟩
  by_cases hnone : report.files = []
  · -- a run that encodes nothing changes nothing, so the second run is the first one again
    have hsources : s.tree.filesEndingIn c.layout.patterns ext = [] := by
      rw [hmigrated.files_eq] at hnone
      exact List.map_eq_nil_iff.1 hnone
    have hsame := outcome_run_of_no_sources hd hext c.layout hsources
    rw [h] at hsame
    rw [(Prod.mk.inj hsame).2]
    exact outcome_run_of_no_sources hd hext c.layout hsources
  · exact outcome_run_of_no_sources hd hext c.layout (hmigrated.no_sources he hl' hnone)

def sample : Session where
  tree := {
    entries := [(["source"], .directory), (["source", "_patterns"], .directory),
      (["source", "_patterns", "_data.hbs"], .file (.text "\x7b\x7bx\x7d\x7d")),
      (["source", "_patterns", "a.hbs"], .file (.text "\x7b\x7bx\x7d\x7d")),
      (["source", "_patterns", "sub"], .directory)]
    sorted := by decide
    here := [] }

def sampleReport : EncodeReport where
  files := [
    ⟨⟨"./source/_patterns/_data.hbs"⟩, ⟨"./source/_patterns/_data.mustache"⟩,
      ⟨"./source/_patterns/_data.json"⟩⟩,
    ⟨⟨"./source/_patterns/a.hbs"⟩, ⟨"./source/_patterns/a.mustache"⟩,
      ⟨"./source/_patterns/a.json"⟩⟩]
  keysAdded := [Braces.openMarker, Braces.closeMarker]

def sampleAfter (c : Config) : Session :=
  ((run "hbs" (some "hbs".toList) c.layout).outcome sample).2

theorem sample_migrates :
    Migrated .handlebars ".hbs" ({} : Config).layout sample.tree (sampleAfter {}).tree
        sampleReport.files ∧
      (run "hbs" (some "hbs".toList) ({} : Config).layout).outcome (sampleAfter {}) =
        (.ok ⟨[], []⟩, sampleAfter {}) :=
  run_migrates_project (by decide) (by decide) rfl rfl (by decide) (by decide)
    (by decide +kernel) (Task.outcome_eq_ok (a := sampleReport) (by decide +kernel))

def crossing : Config := { data := ⟨"new/../source/_patterns/a.hbs"⟩ }

def aliased : Config := { data := ⟨"source/_patterns/sub/.."⟩ }

def buried : Session where
  tree := {
    entries := [(["source"], .directory), (["source", "_patterns"], .directory),
      (["source", "_patterns", List.replicate 200 'd'], .directory),
      (["source", "_patterns", List.replicate 200 'd', "z.hbs"], .file (.text "z"))]
    sorted := by decide
    here := [] }

def distant : Config := { root := some ⟨(List.replicate 2000 "./".toList).flatten⟩ }

/-- Neither data file has the path of an output. Yet once a directory is made where a template was,
and once the keys overwrite a template's marker values. And behind the long root, the path of the
directory is refused and the template in it not found. -/
theorem paths_change_runs :
    sample.tree.WellFormed ∧ sample.tree.LinkFree ∧
    ((∀ f ∈ sampleReport.files,
        f.encoded.placeFrom sample.tree.here ≠
          crossing.layout.dataFile.placeFrom sample.tree.here ∧
        f.sidecar.placeFrom sample.tree.here ≠
          crossing.layout.dataFile.placeFrom sample.tree.here) ∧
      (run "hbs" (some "hbs".toList) crossing.layout).outcome sample =
        (.ok sampleReport, sampleAfter crossing) ∧
      ∃ f ∈ sampleReport.files, (sampleAfter crossing).tree.exists? f.source = true) ∧
    ((∀ f ∈ sampleReport.files,
        f.encoded ≠ aliased.layout.dataFile ∧ f.sidecar ≠ aliased.layout.dataFile) ∧
      (run "hbs" (some "hbs".toList) aliased.layout).outcome sample =
        (.ok sampleReport, sampleAfter aliased) ∧
      ∃ f ∈ sampleReport.files,
        (sampleAfter aliased).tree.get? (f.sidecar.placeFrom sample.tree.here) ≠
          some (.file (.text Dialect.handlebars.sidecarText))) ∧
    buried.tree.WellFormed ∧ buried.tree.LinkFree ∧
    buried.tree.get? (distant.layout.patterns.placeFrom buried.tree.here ++
      [List.replicate 200 'd', "z.hbs"]) = some (.file (.text "z")) ∧
    (run "hbs" (some "hbs".toList) distant.layout).outcome buried = (.ok ⟨[], []⟩, buried) := by
  refine ⟨by decide, by decide, ⟨by decide +kernel, ?_, by decide +kernel⟩,
    ⟨by decide +kernel, ?_, by decide +kernel⟩, by decide +kernel, by decide, by decide +kernel, ?_⟩
  · exact Task.outcome_eq_ok (a := sampleReport) (by decide +kernel)
  · exact Task.outcome_eq_ok (a := sampleReport) (by decide +kernel)
  · exact outcome_run_of_no_sources rfl rfl distant.layout (by decide +kernel)

end PatternBridge.Encode
