import PatternBridge.Proofs.Compile.Run

/-! A run that stops because a file cannot be written. What was compiled before stays as a run over
the descriptors before it leaves it, and nothing behind it is touched. Of the file itself, if it was
opened, a part may be there. -/

namespace PatternBridge.Compile
open PatternBridge.Tree

variable {options : Markup.Options} {layout : Layout} {report : CompileReport} {s s' : Session}
  {x : Path} {f : CompileFault}

inductive Unwritten (p : Path) (content : Text) (t : Tree) : CompileFault → Tree → Prop
  | directory {parent : Path} {g : Fault} {u : Tree} (hparent : p.parent? = some parent)
      (hgrown : t.GrownBy u (p.PassesThrough t.here)) :
      Unwritten p content t (.directory parent g) u
  | output {m u : Tree} {g : Fault} (hgrown : t.GrownBy m (p.PassesThrough t.here))
      (hwrite : m.WriteFails p content g u) : Unwritten p content t (.output p g) u

/-- At the place there is a part of the text, since the write stopped. -/
def Unfinished (here : Place) (p : Path) (content : Text) (f : CompileFault) (u : Tree) (q : Place) :
    Prop :=
  q = p.placeFrom here ∧
    ∃ cut : Cut, f = .output p cut.fault ∧ u.get? q = some (.file (cut.content content))

theorem Unwritten.get?_cases {p : Path} {content : Text} {t u : Tree}
    (h : Unwritten p content t f u) (hl : t.LinkFree) (q : Place) :
    u.get? q = t.get? q ∨
      (t.get? q = none ∧ u.get? q = some .directory ∧ p.PassesThrough t.here q) ∨
      Unfinished t.here p content f u q := by
  cases h with
  | directory hparent hgrown => exact (hgrown.2 q).imp_right .inl
  | output hgrown hwrite =>
    cases hwrite with
    | unopened => exact (hgrown.2 q).imp_right .inl
    | stopped cut hwrite =>
      have hwrote := wrote_of_write (hgrown.linkFree hl) hwrite
      by_cases hq : q = p.placeFrom t.here
      · refine .inr (.inr ⟨hq, cut, rfl, ?_⟩)
        rw [hq, ← hgrown.1]
        exact hwrote.written
      · rw [hwrote.frame q (by rwa [hgrown.1])]
        exact (hgrown.2 q).imp_right .inl

theorem unwritten_of_writeOutput {p : Path} {content : Text} (hl : s.tree.LinkFree)
    (h : (writeOutput p content).outcome s = (.error f, s')) :
    Unwritten p content s.tree f s'.tree ∧ s' = { s with tree := s'.tree, cuts := s'.cuts } := by
  have hmade := grownBy_parentsMade hl p
  cases saving_of_writeOutput h with
  | unmade hparent => exact ⟨.directory hparent hmade, rfl⟩
  | unwritten hwrite => exact ⟨.output hmade hwrite, rfl⟩

theorem unwritten_of_compileOne (hl : s.tree.LinkFree)
    (h : (compileOne options layout report x).outcome s = (.error f, s')) :
    ∃ r markup, sourcesOf s.tree layout [x] = [(r, markup)] ∧
      Unwritten r.destination (Markup.render options markup) s.tree f s'.tree ∧
      s' = { s with tree := s'.tree, cuts := s'.cuts } := by
  obtain ⟨-, -, made, hmade, -⟩ | ⟨r, markup, hsource, ⟨m, -, hmade, -⟩ | ⟨g, hwrite, hfault⟩⟩ :=
    compileOne_cases h
  · cases hmade
  · cases hmade
  · obtain rfl := Except.error.inj hfault
    exact ⟨r, markup, hsource, unwritten_of_writeOutput hl hwrite⟩

/-- What a run leaves that stops at a descriptor, the output of which cannot be written. -/
structure Stopped (options : Markup.Options) (layout : Layout) (s : Session) (f : CompileFault)
    (before : List Path) (x : Path) (after : List Path) (r : Route) (markup : Text) (s' : Session) :
    Prop where
  discovered : discover s.tree layout = before ++ x :: after
  source : sourcesOf s.tree layout [x] = [(r, markup)]
  /-- A run over the descriptors before it goes well, and after it comes only the attempt to write. -/
  attempted : ∃ n n' report, n.tree = s.tree ∧
    (before.foldlM (compileOne options layout) {}).outcome n = (.ok report, n') ∧
    Unwritten r.destination (Markup.render options markup) n'.tree f s'.tree ∧
    s' = { n' with tree := s'.tree, cuts := s'.cuts }
  /-- Each file compiled before has the last text that goes there, unless it is opened again. -/
  written : ∀ q last, lastMarkup s.tree.here (sourcesOf s.tree layout before) q = some last →
    s'.tree.get? q = some (.file (.text (Markup.render options last))) ∨
      Unfinished s.tree.here r.destination (Markup.render options markup) f s'.tree q
  /-- Everything else is as before the run, also where later descriptors go, except that directories
  may be new on the way to the files up to the one that could not be written. -/
  kept : ∀ q, q ∉ (sourcesOf s.tree layout before).map (·.1.destination.placeFrom s.tree.here) →
    s'.tree.get? q = s.tree.get? q ∨
      (s.tree.get? q = none ∧ s'.tree.get? q = some .directory ∧
        ∃ source ∈ sourcesOf s.tree layout (before ++ [x]),
          source.1.destination.PassesThrough s.tree.here q) ∨
      Unfinished s.tree.here r.destination (Markup.render options markup) f s'.tree q

theorem Progress.stopped {before after : List Path} {n n' : Session} (hl : s.tree.LinkFree)
    (hw : s.tree.WellFormed) (hapart : Apart layout s.tree)
    (hdiscover : discover s.tree layout = before ++ x :: after) (hn : n.tree = s.tree)
    (hbefore : (before.foldlM (compileOne options layout) {}).outcome n = (.ok report, n'))
    (hstop : (compileOne options layout report x).outcome n' = (.error f, s')) :
    ∃ r markup, Stopped options layout s f before x after r markup s' := by
  have hmem (y : Path) (hy : y ∈ before) : y ∈ discover s.tree layout := by
    rw [hdiscover]
    exact List.mem_append_left _ hy
  have hstart : Progress options layout s.tree [] {} n.tree := by
    rw [hn]
    exact .start hl hw
  have hprogress : Progress options layout s.tree before report n'.tree :=
    hstart.foldlM hl hw hapart hmem hbefore
  obtain ⟨r, markup, hsource, hunwritten, hrest⟩ := unwritten_of_compileOne hprogress.linkFree hstop
  rw [hprogress.sourcesOf_eq hl hw hapart hmem (by rw [hdiscover]; simp)] at hsource
  have hcases := hunwritten.get?_cases hprogress.linkFree
  rw [hprogress.here] at hcases
  refine ⟨r, markup, hdiscover, hsource, ⟨n, n', report, hn, hbefore, hunwritten, hrest⟩, ?_, ?_⟩
  · intro q last hlast
    have hwritten := hprogress.written q last hlast
    obtain hsame | ⟨hnone, -⟩ | hunfinished := hcases q
    · exact .inl (hsame.trans hwritten)
    · rw [hwritten] at hnone
      cases hnone
    · exact .inr hunfinished
  · intro q hq
    have hcompiled : report.compiled.map (·.placeFrom s.tree.here) =
        (sourcesOf s.tree layout before).map (·.1.destination.placeFrom s.tree.here) := by
      rw [hprogress.compiled_eq, List.map_map]
      rfl
    have hsplit := sourcesOf_append s.tree layout before [x]
    rw [hsource] at hsplit
    obtain hsame | ⟨hnone, hnew, hpass⟩ | hunfinished := hcases q
    · rw [hsame, hsplit]
      refine (hprogress.kept q (hcompiled ▸ hq)).imp_right fun ⟨hnone, hnew, p, hp, hpass⟩ => .inl ?_
      rw [hprogress.compiled_eq] at hp
      obtain ⟨source, hmem, rfl⟩ := List.mem_map.1 hp
      exact ⟨hnone, hnew, source, List.mem_append_left _ hmem, hpass⟩
    · obtain hsame | ⟨-, hold, -⟩ := hprogress.kept q (hcompiled ▸ hq)
      · refine .inr (.inl ⟨hsame.symm.trans hnone, hnew, (r, markup), ?_, hpass⟩)
        rw [hsplit]
        exact List.mem_append_right _ (List.mem_singleton_self _)
      · rw [hold] at hnone
        cases hnone
    · exact .inr (.inr hunfinished)

/-- A run fails for want of options, and then no file is touched, or at an output, and then it has
done for the descriptors before it what a run over them alone does. -/
theorem run_stops_at_output (hw : s.tree.WellFormed) (hl : s.tree.LinkFree)
    (hapart : Apart layout s.tree) (h : (run layout).outcome s = (.error f, s')) :
    (∃ g, f = .options g ∧ (OptionsFile.resolve layout.rcFile).outcome s = (.error g, s') ∧
      s'.tree = s.tree) ∨
    ∃ options source m before x after r markup,
      (OptionsFile.resolve layout.rcFile).outcome s = (.ok (options, source), m) ∧
      Stopped options layout s f before x after r markup s' := by
  rcases hresolve : (OptionsFile.resolve layout.rcFile).outcome s with ⟨g | ⟨options, source⟩, m⟩
  · rw [outcome_run_of_no_options hresolve] at h
    obtain ⟨hfault, rfl⟩ := Prod.mk.inj h
    have htree := OptionsFile.tree_resolve layout.rcFile s
    rw [hresolve] at htree
    exact .inl ⟨g, (Except.error.inj hfault).symm, rfl, htree⟩
  · obtain ⟨n, hn, hrun⟩ := outcome_run_eq_foldlM hresolve
    rw [hrun] at h
    obtain ⟨before, x, after, report, n', hdiscover, hbefore, hstop⟩ :=
      Task.exists_of_foldlM_eq_error h
    obtain ⟨r, markup, hstopped⟩ := Progress.stopped hl hw hapart hdiscover hn hbefore hstop
    exact .inr ⟨options, source, m, before, x, after, r, markup, rfl, hstopped⟩

def blocking : Session where
  tree := {
    entries := [(["public"], .directory), (["public", "patterns"], .directory),
      (["public", "patterns", "a"], .directory),
      (["public", "patterns", "a", "a.markup-only.html"], .file (.text "A")),
      (["public", "patterns", "b"], .directory),
      (["public", "patterns", "b", "b.markup-only.html"], .file (.text "B")),
      (["public", "patterns", "c"], .directory),
      (["public", "patterns", "c", "c.markup-only.html"], .file (.text "C")),
      (["source"], .directory), (["source", "_patterns"], .directory),
      (["source", "_patterns", "a.yml"],
        .file (.text "tpl_compile_dir: v\ntpl_compile_ext: hbs\n")),
      (["source", "_patterns", "b.yml"],
        .file (.text "tpl_compile_dir: v/a.hbs/w\ntpl_compile_ext: hbs\n")),
      (["source", "_patterns", "c.yml"],
        .file (.text "tpl_compile_dir: v\ntpl_compile_ext: hbs\n"))]
    sorted := by decide
    here := [] }

def blockedFault : CompileFault := .directory ⟨"./backend/v/a.hbs/w"⟩ .notDirectory

def blockedRun : Except CompileFault CompileReport × Session :=
  (run ({} : Config).layout).outcome blocking

theorem run_stops_at_output_blocking :
    blockedRun.1 = .error blockedFault ∧
    ∃ options source m before x after r markup,
      (OptionsFile.resolve ({} : Config).layout.rcFile).outcome blocking =
        (.ok (options, source), m) ∧
      Stopped options ({} : Config).layout blocking blockedFault before x after r markup
        blockedRun.2 := by
  have hfault : blockedRun.1 = .error blockedFault := by decide +kernel
  have hrun : (run ({} : Config).layout).outcome blocking = (blockedRun.1, blockedRun.2) :=
    (Prod.eta _).symm
  rw [hfault] at hrun
  refine ⟨hfault, (run_stops_at_output ?_ ?_ ?_ hrun).resolve_left ?_⟩
  · decide
  · decide
  · decide +kernel
  · rintro ⟨g, hoptions, -⟩
    cases hoptions

/-- A project in which the first and the last descriptor go to one file, and that of the second one
cannot be written. -/
def sharing : Session where
  tree := {
    entries := [(["public"], .directory), (["public", "patterns"], .directory),
      (["public", "patterns", "a-x"], .directory),
      (["public", "patterns", "a-x", "a-x.markup-only.html"], .file (.text "A")),
      (["public", "patterns", "b-y"], .directory),
      (["public", "patterns", "b-y", "b-y.markup-only.html"], .file (.text "B")),
      (["public", "patterns", "c-x"], .directory),
      (["public", "patterns", "c-x", "c-x.markup-only.html"], .file (.text "C")),
      (["source"], .directory), (["source", "_patterns"], .directory),
      (["source", "_patterns", "a"], .directory),
      (["source", "_patterns", "a", "x.yml"],
        .file (.text "tpl_compile_dir: v\ntpl_compile_ext: hbs\n")),
      (["source", "_patterns", "b"], .directory),
      (["source", "_patterns", "b", "y.yml"],
        .file (.text "tpl_compile_dir: v/x.hbs/w\ntpl_compile_ext: hbs\n")),
      (["source", "_patterns", "c"], .directory),
      (["source", "_patterns", "c", "x.yml"],
        .file (.text "tpl_compile_dir: v\ntpl_compile_ext: hbs\n"))]
    sorted := by decide
    here := [] }

def outOfSpace : Session := { blocking with cuts := [some ⟨0, .noSpace⟩] }

/-- Behind the descriptor at which a run stops, there may be one that goes to a file that is written;
and the file at which a run stops may be there afterwards. -/
theorem stopped_run_leaves_outputs :
    let layout := ({} : Config).layout
    let shared : Path := ⟨"./backend/v/x.hbs"⟩
    let cut : Path := ⟨"./backend/v/a.hbs"⟩
    (sharing.tree.WellFormed ∧ sharing.tree.LinkFree ∧ Apart layout sharing.tree ∧
      discover sharing.tree layout = [⟨"./source/_patterns/a/x.yml"⟩, ⟨"./source/_patterns/b/y.yml"⟩,
        ⟨"./source/_patterns/c/x.yml"⟩] ∧
      ((run layout).outcome sharing).1 = .error (.directory ⟨"./backend/v/x.hbs/w"⟩ .notDirectory) ∧
      (sourcesOf sharing.tree layout [⟨"./source/_patterns/b/y.yml"⟩]).map (·.1.destination) =
        [⟨"./backend/v/x.hbs/w/y.hbs"⟩] ∧
      (sourcesOf sharing.tree layout [⟨"./source/_patterns/c/x.yml"⟩]).map (·.1.destination) =
        [shared] ∧
      sharing.tree.exists? shared = false ∧
      ((run layout).outcome sharing).2.tree.isFile shared = true) ∧
    outOfSpace.tree.WellFormed ∧ outOfSpace.tree.LinkFree ∧ Apart layout outOfSpace.tree ∧
      ((run layout).outcome outOfSpace).1 = .error (.output cut .noSpace) ∧
      outOfSpace.tree.exists? cut = false ∧
      ((run layout).outcome outOfSpace).2.tree.isFile cut = true := by
  refine ⟨⟨by decide +kernel, by decide, by decide +kernel, by decide +kernel, by decide +kernel,
    by decide +kernel, by decide +kernel, by decide +kernel, by decide +kernel⟩, by decide +kernel,
    by decide, by decide +kernel, by decide +kernel, by decide +kernel, by decide +kernel⟩

end PatternBridge.Compile
