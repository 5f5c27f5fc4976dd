import PatternBridge.Proofs.Compile.Run

/-! Descriptors do not touch each other: one that fails or routes nothing may come or go without a
change to what is compiled from the others, as long as the options stay and no directory is new. -/

namespace PatternBridge

namespace Compile
open PatternBridge.Tree

variable {layout : Layout} {t u : Tree} {x : Path}

/-- The second tree is the first one with one more descriptor, which fails or routes nothing. Its
directory is there in both. -/
structure Joins (layout : Layout) (x : Path) (t u : Tree) : Prop where
  free : t.get? (x.placeFrom t.here) = none
  tree_eq : ∃ c, u = t.put (x.placeFrom t.here) (.file c)
  wellFormed : u.WellFormed
  mem : x ∈ discover u layout
  idle : ∀ r, route u layout x = .ok (some r) → ∀ markup, u.read r.markup ≠ .ok markup

namespace Joins

theorem ne_nil (h : Joins layout x t u) : x.placeFrom t.here ≠ [] := by
  intro hnil
  have hfree := h.free
  rw [hnil, get?_nil] at hfree
  cases hfree

theorem here (h : Joins layout x t u) : u.here = t.here := by
  obtain ⟨c, rfl⟩ := h.tree_eq
  rfl

theorem linkFree (h : Joins layout x t u) (hl : t.LinkFree) : u.LinkFree := by
  obtain ⟨c, rfl⟩ := h.tree_eq
  exact hl.put rfl

theorem get?_self (h : Joins layout x t u) : ∃ c, u.get? (x.placeFrom t.here) = some (.file c) := by
  obtain ⟨c, rfl⟩ := h.tree_eq
  exact ⟨c, get?_put_self h.ne_nil _ t⟩

theorem get?_ne (h : Joins layout x t u) {q : Place} (hq : q ≠ x.placeFrom t.here) :
    u.get? q = t.get? q := by
  obtain ⟨c, rfl⟩ := h.tree_eq
  exact get?_put_ne hq _ t

theorem keeps (h : Joins layout x t u) : t.KeepsDirectories u := by
  intro q hq
  rwa [h.get?_ne]
  rintro rfl
  rw [h.free] at hq
  cases hq

theorem keeps_back (h : Joins layout x t u) : u.KeepsDirectories t := by
  intro q hq
  rwa [← h.get?_ne]
  rintro rfl
  obtain ⟨c, hc⟩ := h.get?_self
  rw [hc] at hq
  cases hq

theorem status_eq (h : Joins layout x t u) (hl : t.LinkFree) (hw : t.WellFormed) {p : Path}
    (hp : p.placeFrom t.here ≠ x.placeFrom t.here) :
    (u.status p).toOption = (t.status p).toOption :=
  toOption_status_eq hl hw (h.linkFree hl) h.wellFormed h.here h.keeps h.keeps_back (h.get?_ne hp)

end Joins

/-- What is discovered among more entries stands among what is discovered without them. -/
theorem discover_split {dir : Place} (ht : t.status layout.templates = .ok (dir, .directory))
    (hu : u.status layout.templates = .ok (dir, .directory)) {before after : List (Place × Entry)}
    {z : Place × Entry} (hentries : t.entries = before ++ after)
    (hentries' : u.entries = before ++ z :: after) :
    ∃ front middle back, discover t layout = front ++ back ∧
      discover u layout = front ++ (middle ++ back) ∧ middle.length ≤ 1 := by
  rw [List.append_cons, List.append_assoc] at hentries'
  unfold discover entriesEndingIn foundBelow listedBelow below
  rw [ht, hu, hentries, hentries']
  dsimp only
  simp only [List.filterMap_append, List.map_append, List.filter_append]
  refine ⟨_, _, _, rfl, rfl, ?_⟩
  rw [List.length_map]
  refine Nat.le_trans (List.length_filter_le _ _) ?_
  rw [List.length_map]
  refine Nat.le_trans (List.length_filter_le _ _) ?_
  exact List.length_filterMap_le _ _

namespace Joins

theorem exists_templates (h : Joins layout x t u) (hl : t.LinkFree) (hw : t.WellFormed) :
    ∃ dir, t.status layout.templates = .ok (dir, .directory) ∧
      u.status layout.templates = .ok (dir, .directory) := by
  obtain ⟨names, hcandidate⟩ := candidate_of_mem (h.linkFree hl) h.wellFormed h.mem
  have hplace := hcandidate.place
  rw [h.here] at hplace
  -- the new entry is below the directory, not the directory itself
  have habove : layout.templates.placeFrom t.here ≠ x.placeFrom t.here := by
    rw [hplace]
    intro heq
    exact hcandidate.goesOn.ne_nil (List.self_eq_append_right.1 heq)
  have hsame := h.status_eq hl hw habove
  have hmem := h.mem
  unfold discover entriesEndingIn foundBelow at hmem
  split at hmem
  · next dir hu =>
    rw [hu] at hsame
    cases ht : t.status layout.templates with
    | error f => rw [ht] at hsame; cases hsame
    | ok r => rw [ht] at hsame; exact ⟨dir, by rw [← Option.some.inj hsame], hu⟩
  · simp at hmem

theorem not_mem (h : Joins layout x t u) (hl : t.LinkFree) (hw : t.WellFormed) :
    x ∉ discover t layout := by
  intro hx
  obtain ⟨_, hold⟩ := candidate_of_mem hl hw hx
  obtain ⟨e, he⟩ := hold.entry
  rw [h.free] at he
  cases he

theorem exists_discover (h : Joins layout x t u) (hl : t.LinkFree) (hw : t.WellFormed) :
    ∃ front back, discover t layout = front ++ back ∧ discover u layout = front ++ x :: back := by
  obtain ⟨dir, ht, hu⟩ := h.exists_templates hl hw
  obtain ⟨c, hc⟩ := h.tree_eq
  obtain ⟨before, after, hentries, hput⟩ := exists_entries_put (e := .file c) h.ne_nil h.free
  rw [← hc] at hput
  obtain ⟨front, middle, back, hd, hd', hlength⟩ := discover_split ht hu hentries hput
  -- one entry gives at most one descriptor, and the new one has to come from it
  have hmiddle : middle = [x] := by
    have hold := h.not_mem hl hw
    have hnew := h.mem
    rw [hd', List.mem_append, List.mem_append] at hnew
    rw [hd, List.mem_append, not_or] at hold
    have hx := (hnew.resolve_left hold.1).resolve_right hold.2
    obtain ⟨y, rfl⟩ := List.length_eq_one_iff.1
      (Nat.le_antisymm hlength (List.length_pos_of_mem hx))
    rw [List.mem_singleton.1 hx]
  exact ⟨front, back, hd, by rw [hd', hmiddle]; rfl⟩

end Joins

theorem placeFrom_markup_ne (hl : t.LinkFree) (hw : t.WellFormed) (hx : x ∈ discover t layout)
    {y : Path} {r : Route} (hr : route u layout y = .ok (some r)) :
    r.markup.placeFrom t.here ≠ x.placeFrom t.here := by
  obtain ⟨names, hcandidate⟩ := candidate_of_mem hl hw hx
  obtain ⟨init, stem, suffix, hsuffix, hnames⟩ := hcandidate.named
  obtain ⟨id, hid, hmarkup⟩ := markup_eq hr
  have hname : Path.IsName (id ++ Route.markupSuffix) :=
    Path.isName_append hid (by decide) (by decide)
  rw [hcandidate.place, hnames, hmarkup, Route.markupOf, Path.placeFrom_div_name _ _ hname,
    ← List.append_assoc]
  intro heq
  have heq := List.singleton_inj.1 (List.append_inj' heq rfl).2
  have hsuffixes : Descriptor.suffixes = [".yml".toList, ".yaml".toList] := rfl
  rw [hsuffixes, List.mem_cons, List.mem_singleton] at hsuffix
  rcases hsuffix with rfl | rfl
  · exact Text.append_ne_of_endsWith (by decide) (by decide) (by decide) id stem heq
  · exact Text.append_ne_of_endsWith (by decide) (by decide) (by decide) id stem heq

namespace Joins

theorem sourcesOf_self (h : Joins layout x t u) : sourcesOf u layout [x] = [] := by
  apply List.eq_nil_iff_forall_not_mem.2
  rintro ⟨r, markup⟩ hmem
  obtain ⟨hr, hread⟩ := mem_sourcesOf.1 hmem
  obtain ⟨y, hy, hroute⟩ := mem_routesOf.1 hr
  rw [List.mem_singleton.1 hy] at hroute
  exact h.idle r hroute markup hread

theorem sourcesOf_old (h : Joins layout x t u) (hl : t.LinkFree) (hw : t.WellFormed) {y : Path}
    (hy : y ∈ discover t layout) : sourcesOf u layout [y] = sourcesOf t layout [y] := by
  obtain ⟨_, hcandidate⟩ := candidate_of_mem hl hw hy
  obtain ⟨e, he⟩ := hcandidate.entry
  have hplace : y.placeFrom t.here ≠ x.placeFrom t.here := by
    intro heq
    rw [heq, h.free] at he
    cases he
  apply sourcesOf_singleton_congr
  · exact toOption_route_congr (h.status_eq hl hw hplace)
  · intro r hr
    have hmarkup := placeFrom_markup_ne (h.linkFree hl) h.wellFormed h.mem hr
    rw [h.here] at hmarkup
    exact toOption_read_congr (h.status_eq hl hw hmarkup)

theorem sources_eq (h : Joins layout x t u) (hl : t.LinkFree) (hw : t.WellFormed) :
    sourcesOf u layout (discover u layout) = sourcesOf t layout (discover t layout) := by
  obtain ⟨front, back, hd, hd'⟩ := h.exists_discover hl hw
  rw [hd', List.append_cons, sourcesOf_append, sourcesOf_append, h.sourcesOf_self, List.append_nil,
    ← sourcesOf_append, ← hd]
  exact sourcesOf_congr fun y hy => h.sourcesOf_old hl hw hy

end Joins

variable {report : CompileReport} {s s' : Session}

/-- A run that goes well compiles what has a route and markup, each on its own. -/
theorem run_isolates_descriptors (hw : s.tree.WellFormed) (hl : s.tree.LinkFree)
    (hapart : Apart layout s.tree) (h : (run layout).outcome s = (.ok report, s')) :
    ∃ options source m, (OptionsFile.resolve layout.rcFile).outcome s = (.ok (options, source), m) ∧
      Compiled options layout s.tree report s'.tree ∧
      ∀ {x : Path} {b b' n : Session} {report' : CompileReport} {source' : Option Path},
        Joins layout x s.tree b.tree → Apart layout b.tree →
        (OptionsFile.resolve layout.rcFile).outcome b = (.ok (options, source'), n) →
        (run layout).outcome b = (.ok report', b') →
          report'.compiled = report.compiled ∧
            ∀ p ∈ report.compiled, b'.tree.read p = s'.tree.read p := by
  obtain ⟨options, source, m, hresolve, hcompiled⟩ := compiled_of_run hl hw hapart h
  refine ⟨options, source, m, hresolve, hcompiled, ?_⟩
  intro x b b' n report' source' hjoins hapart' hresolve' h'
  obtain ⟨options', source'', m', hresolve'', hcompiled'⟩ :=
    compiled_of_run (hjoins.linkFree hl) hjoins.wellFormed hapart' h'
  obtain rfl : options = options' := by
    rw [hresolve'] at hresolve''
    exact congrArg Prod.fst (Except.ok.inj (congrArg Prod.fst hresolve''))
  have hsources := hjoins.sources_eq hl hw
  have hsame : report'.compiled = report.compiled := by
    rw [hcompiled'.compiled_eq, hcompiled.compiled_eq, hsources]
  refine ⟨hsame, fun p hp => ?_⟩
  obtain ⟨markup, hlast, hread⟩ := hcompiled.written p hp
  obtain ⟨markup', hlast', hread'⟩ := hcompiled'.written p (hsame ▸ hp)
  rw [hsources, hjoins.here, hlast] at hlast'
  rw [hread, hread', Option.some.inj hlast']

def sample : Session where
  tree := {
    entries := [(["public"], .directory), (["public", "patterns"], .directory),
      (["public", "patterns", "card"], .directory),
      (["public", "patterns", "card", "card.markup-only.html"], .file (.text "Card")),
      (["source"], .directory), (["source", "_patterns"], .directory),
      (["source", "_patterns", "card.yml"],
        .file (.text "tpl_compile_dir: v\ntpl_compile_ext: hbs\n"))]
    sorted := by decide
    here := [] }

def sampleDestination : Path := ⟨"./backend/v/card.hbs"⟩

def sampleReport : CompileReport := { compiled := [sampleDestination] }

/-- The sample with a descriptor that routes nothing, though it reads as formatter options. -/
def joined : Session := { sample with
  tree := sample.tree.put ["source", "_patterns", "bare.yml"]
    (.file (.text "\x7b\"end_with_newline\": false\x7d")) }

def joinedPath : Path := ⟨"./source/_patterns/bare.yml"⟩

def sampleAfter (c : Config) (s : Session) : Session := ((run c.layout).outcome s).2

theorem outcome_run_eq {c : Config}
    (h : ((run c.layout).outcome s).1.toOption = some report) :
    (run c.layout).outcome s = (.ok report, sampleAfter c s) := Task.outcome_eq_ok h

theorem joins_sample {c : Config} (hmem : joinedPath ∈ discover joined.tree c.layout)
    (hroute : (route joined.tree c.layout joinedPath).toOption = some none) :
    Joins c.layout joinedPath sample.tree joined.tree := by
  have hplace : joinedPath.placeFrom sample.tree.here =
      ["source".toList, "_patterns".toList, "bare.yml".toList] := by decide +kernel
  refine ⟨by decide +kernel, ⟨_, by rw [hplace]; rfl⟩, by decide +kernel, hmem, fun r hr => ?_⟩
  rw [hr] at hroute
  cases hroute

/-- Without an options file the new descriptor leaves the sample's output alone. -/
theorem sample_isolated :
    ∃ options source m,
      (OptionsFile.resolve ({} : Config).layout.rcFile).outcome sample = (.ok (options, source), m) ∧
      Compiled options ({} : Config).layout sample.tree sampleReport (sampleAfter {} sample).tree ∧
      (sampleAfter {} joined).tree.read sampleDestination =
        (sampleAfter {} sample).tree.read sampleDestination := by
  have hsample : (OptionsFile.resolve ({} : Config).layout.rcFile).outcome sample =
      (.ok (.bundled, none), sample) := OptionsFile.resolve_of_not_isFile (by decide +kernel)
  have hjoined : (OptionsFile.resolve ({} : Config).layout.rcFile).outcome joined =
      (.ok (.bundled, none), joined) := OptionsFile.resolve_of_not_isFile (by decide +kernel)
  have hrun : (run ({} : Config).layout).outcome sample = (.ok sampleReport, sampleAfter {} sample) :=
    outcome_run_eq (by decide +kernel)
  have hrun' : (run ({} : Config).layout).outcome joined =
      (.ok { sampleReport with skipped := 1 }, sampleAfter {} joined) :=
    outcome_run_eq (by decide +kernel)
  obtain ⟨options, source, m, hresolve, hcompiled, hisolated⟩ :=
    run_isolates_descriptors (by decide) (by decide) (by decide +kernel) hrun
  obtain rfl : options = .bundled := by
    rw [hsample] at hresolve
    exact (congrArg Prod.fst (Except.ok.inj (congrArg Prod.fst hresolve))).symm
  have hsame := hisolated (joins_sample (by decide +kernel) (by decide +kernel))
    (by decide +kernel) hjoined hrun'
  exact ⟨.bundled, source, m, hresolve, hcompiled, hsame.2 _ (List.mem_singleton_self _)⟩

/-- The descriptor is the options file. -/
def styled : Config := { rc := "source/_patterns/bare.yml" }

/-- The path of the generated markup leads through a directory that is not there. -/
def detour : Config := { published := ⟨"source/_patterns/new/../../../public/patterns"⟩ }

def nested : Session := { sample with
  tree := (sample.tree.put ["source", "_patterns", "new"] .directory).put
    ["source", "_patterns", "new", "empty.yml"] (.file (.text [])) }

def nestedPath : Path := ⟨"./source/_patterns/new/empty.yml"⟩

/-- A descriptor that routes nothing may change what another one is compiled to, once because it
holds the options, and once because its directory lets the markup be found. -/
theorem idle_descriptors_change_outputs :
    sample.tree.WellFormed ∧ sample.tree.LinkFree ∧
    (Joins styled.layout joinedPath sample.tree joined.tree ∧
      Apart styled.layout sample.tree ∧ Apart styled.layout joined.tree ∧
      (run styled.layout).outcome sample = (.ok sampleReport, sampleAfter styled sample) ∧
      (run styled.layout).outcome joined =
        (.ok { sampleReport with skipped := 1 }, sampleAfter styled joined) ∧
      (sampleAfter styled joined).tree.read sampleDestination ≠
        (sampleAfter styled sample).tree.read sampleDestination) ∧
    (nested.tree.WellFormed ∧ nested.tree.LinkFree ∧
      nestedPath ∈ discover nested.tree detour.layout ∧
      (route nested.tree detour.layout nestedPath).toOption = some none ∧
      Apart detour.layout sample.tree ∧ Apart detour.layout nested.tree ∧
      (run detour.layout).outcome sample = (.ok { failed := 1 }, sampleAfter detour sample) ∧
      (run detour.layout).outcome nested =
        (.ok { sampleReport with skipped := 1 }, sampleAfter detour nested)) := by
  have hdiffers : ((sampleAfter styled joined).tree.read sampleDestination).toOption ≠
      ((sampleAfter styled sample).tree.read sampleDestination).toOption := by decide +kernel
  refine ⟨by decide, by decide, ⟨?joins, ?apart, ?apart', ?run, ?run', fun h => hdiffers (congrArg _ h)⟩,
    by decide, by decide, by decide +kernel, by decide +kernel, ?apartDetour, ?apartNested,
    ?runDetour, ?runNested⟩
  case joins => exact joins_sample (by decide +kernel) (by decide +kernel)
  case apart | apart' | apartDetour | apartNested => decide +kernel
  case run | run' | runDetour | runNested => exact outcome_run_eq (by decide +kernel)

end Compile
end PatternBridge
