import PatternBridge.Proofs.Compile.Output
import PatternBridge.Proofs.OptionsFile.Outcome

/-! A whole run. What is compiled is told by the sources of the tree before the run, each in its
turn; of several that go to one destination, the last one's text stays. -/

namespace PatternBridge

namespace Compile
open PatternBridge.Tree

/-- The markup of the last source that goes to a place. -/
def lastMarkup (here : Place) (sources : List (Route × Text)) (q : Place) : Option Text :=
  (sources.filter fun s => s.1.destination.placeFrom here == q).getLast?.map Prod.snd

theorem lastMarkup_concat (here : Place) (sources : List (Route × Text)) (s : Route × Text)
    (q : Place) : lastMarkup here (sources ++ [s]) q =
      if s.1.destination.placeFrom here = q then some s.2 else lastMarkup here sources q := by
  unfold lastMarkup
  rw [List.filter_append]
  split
  · next h => simp [h]
  · next h => simp [h]

theorem exists_lastMarkup (here : Place) {sources : List (Route × Text)} {s : Route × Text}
    (hs : s ∈ sources) : ∃ markup, lastMarkup here sources (s.1.destination.placeFrom here) =
      some markup := by
  have hmem : s ∈ sources.filter fun s' =>
      s'.1.destination.placeFrom here == s.1.destination.placeFrom here :=
    List.mem_filter.2 ⟨hs, BEq.rfl⟩
  have hlast := List.getLast?_eq_some_getLast (List.ne_nil_of_mem hmem)
  exact ⟨_, by rw [lastMarkup, hlast]; rfl⟩

variable {options : Markup.Options} {layout : Layout} {t u v : Tree} {done : List Path}
  {report report' : CompileReport}

/-- What a run has done after some descriptors. -/
structure Progress (options : Markup.Options) (layout : Layout) (t : Tree) (done : List Path)
    (report : CompileReport) (u : Tree) : Prop where
  counted : report.compiled.length + report.skipped + report.failed = done.length
  compiled_eq : report.compiled = (sourcesOf t layout done).map (·.1.destination)
  here : u.here = t.here
  linkFree : u.LinkFree
  wellFormed : u.WellFormed
  keeps : t.KeepsDirectories u
  reached : ∀ p ∈ report.compiled, u.Reaches p
  written : ∀ q markup, lastMarkup t.here (sourcesOf t layout done) q = some markup →
    u.get? q = some (.file (.text (Markup.render options markup)))
  kept : ∀ q, q ∉ report.compiled.map (·.placeFrom t.here) → u.get? q = t.get? q ∨
    t.get? q = none ∧ u.get? q = some .directory ∧ ∃ p ∈ report.compiled, p.PassesThrough t.here q
  untouched : report.compiled = [] → u = t

theorem Progress.start (hl : t.LinkFree) (hw : t.WellFormed) :
    Progress options layout t [] {} t where
  counted := rfl
  compiled_eq := rfl
  here := rfl
  linkFree := hl
  wellFormed := hw
  keeps := .refl t
  reached := nofun
  written := nofun
  kept := fun _ _ => .inl rfl
  untouched := fun _ => rfl

theorem Progress.later (h : Progress options layout t done report u) :
    Later (· ∈ report.compiled.map (·.placeFrom t.here)) t u where
  here := h.here
  linkFree := h.linkFree
  wellFormed := h.wellFormed
  keeps := h.keeps
  frame := fun q hq => (h.kept q hq).imp_right fun hnew => ⟨hnew.1, hnew.2.1⟩

theorem Progress.mem_routesOf (h : Progress options layout t done report u)
    (hdone : ∀ x ∈ done, x ∈ discover t layout) {q : Place}
    (hq : q ∈ report.compiled.map (·.placeFrom t.here)) :
    ∃ r ∈ routesOf t layout (discover t layout), r.destination.placeFrom t.here = q := by
  rw [h.compiled_eq, List.map_map] at hq
  obtain ⟨⟨r, markup⟩, hs, rfl⟩ := List.mem_map.1 hq
  obtain ⟨y, hy, hroute⟩ := Compile.mem_routesOf.1 (mem_sourcesOf.1 hs).1
  exact ⟨r, Compile.mem_routesOf.2 ⟨y, hdone y hy, hroute⟩, rfl⟩

theorem Progress.opens (h : Progress options layout t done report u) (hl : t.LinkFree)
    (hsome : report.compiled ≠ []) : t.Opens layout.published := by
  obtain ⟨p, hp⟩ := List.exists_mem_of_ne_nil _ hsome
  rw [h.compiled_eq] at hp
  obtain ⟨⟨r, markup⟩, hs, -⟩ := List.mem_map.1 hp
  obtain ⟨hr, hread⟩ := mem_sourcesOf.1 hs
  obtain ⟨y, -, hy⟩ := Compile.mem_routesOf.1 hr
  obtain ⟨_, _, hgoes⟩ := goesOn_markup hy
  obtain ⟨found, hstatus, -⟩ := exists_of_bind_eq_ok hread
  exact opens_of_goesOn hl hgoes hstatus

/-- A descriptor has the same source when its turn comes as it had before the run. -/
theorem Progress.sourcesOf_eq (h : Progress options layout t done report u) (hl : t.LinkFree)
    (hw : t.WellFormed) (hapart : Apart layout t) (hdone : ∀ x ∈ done, x ∈ discover t layout)
    {x : Path} (hx : x ∈ discover t layout) : sourcesOf u layout [x] = sourcesOf t layout [x] := by
  obtain ⟨names, hcandidate⟩ := candidate_of_mem hl hw hx
  have hroute : (route u layout x).toOption = (route t layout x).toOption := by
    apply hcandidate.route_eq hl hw h.later
    intro hq
    obtain ⟨r, hr, hplace⟩ := h.mem_routesOf hdone hq
    exact (hapart r hr).1 x hx hplace
  have hread (r : Route) (hr : route u layout x = .ok (some r)) :
      (u.read r.markup).toOption = (t.read r.markup).toOption := by
    have hr : route t layout x = .ok (some r) := by
      have hjoin := congrArg Option.join hroute
      rw [join_toOption_eq_some.2 hr] at hjoin
      exact join_toOption_eq_some.1 hjoin.symm
    -- the directory of the markup might be found through a new directory only: not once it is open
    by_cases hnone : report.compiled = []
    · rw [h.untouched hnone]
    · obtain ⟨_, _, hgoes⟩ := goesOn_markup hr
      apply h.later.read_eq hl hw (h.opens hl hnone) hgoes
      intro hq
      obtain ⟨r', hr', hplace⟩ := h.mem_routesOf hdone hq
      exact (hapart r' hr').2 r (Compile.mem_routesOf.2 ⟨x, hx, hr⟩) hplace
  exact sourcesOf_singleton_congr hroute hread

theorem Progress.passed (h : Progress options layout t done report u) {x : Path}
    (hsource : sourcesOf t layout [x] = []) (hcompiled : report'.compiled = report.compiled)
    (hcount : report'.skipped + report'.failed = report.skipped + report.failed + 1) :
    Progress options layout t (done ++ [x]) report' u := by
  have hsources : sourcesOf t layout (done ++ [x]) = sourcesOf t layout done := by
    rw [sourcesOf_append, hsource, List.append_nil]
  refine ⟨?_, ?_, h.here, h.linkFree, h.wellFormed, h.keeps, ?_, ?_, ?_, ?_⟩
  · have hcounted := h.counted
    rw [hcompiled, List.length_append, List.length_singleton]
    omega
  · rw [hcompiled, hsources, h.compiled_eq]
  · rw [hcompiled]
    exact h.reached
  · rw [hsources]
    exact h.written
  · rw [hcompiled]
    exact h.kept
  · rw [hcompiled]
    exact h.untouched

section Compiled
variable {p : Path} {content : Text}

theorem Progress.reached_concat (h : Progress options layout t done report u)
    (hemitted : Emitted p content u v) : ∀ q ∈ report.compiled ++ [p], v.Reaches q := by
  intro q hq
  rcases List.mem_append.1 hq with hq | hq
  · have hold := hq
    rw [h.compiled_eq] at hold
    obtain ⟨s, hs, rfl⟩ := List.mem_map.1 hold
    obtain ⟨last, hlast⟩ := exists_lastMarkup t.here hs
    have hu := h.written _ _ hlast
    apply (h.reached _ hq).keep hemitted.here hemitted.keeps
    obtain hv | hplace := hemitted.get?_eq hu
    · rw [h.here]
      simp [hv]
    · rw [h.here, hplace]
      simp [hemitted.written]
  · exact List.mem_singleton.1 hq ▸ hemitted.reached

theorem Progress.kept_concat (h : Progress options layout t done report u)
    (hemitted : Emitted p content u v) :
    ∀ q, q ∉ (report.compiled ++ [p]).map (·.placeFrom t.here) → v.get? q = t.get? q ∨
      t.get? q = none ∧ v.get? q = some .directory ∧
        ∃ p' ∈ report.compiled ++ [p], p'.PassesThrough t.here q := by
  intro q hq
  rw [List.map_append, List.mem_append, not_or] at hq
  have hplace : q ≠ p.placeFrom u.here := by
    rw [h.here]
    exact fun h => hq.2 (by simp [h])
  have hframe := hemitted.frame q hplace
  rw [h.here] at hframe
  obtain hv | ⟨hnone, hdir, hpass⟩ := hframe
  · rw [hv]
    refine (h.kept q hq.1).imp_right fun ⟨ht, hu, p', hp', hpass⟩ => ⟨ht, hu, p', ?_, hpass⟩
    exact List.mem_append_left _ hp'
  · obtain hu | ⟨-, hu, -⟩ := h.kept q hq.1
    · refine .inr ⟨hu.symm.trans hnone, hdir, p, ?_, hpass⟩
      exact List.mem_append_right _ (List.mem_singleton_self _)
    · rw [hu] at hnone
      cases hnone

end Compiled

theorem Progress.compiled (h : Progress options layout t done report u) {x : Path} {r : Route}
    {markup : Text} (hsource : sourcesOf t layout [x] = [(r, markup)])
    (hemitted : Emitted r.destination (Markup.render options markup) u v) :
    Progress options layout t (done ++ [x])
      { report with compiled := report.compiled ++ [r.destination] } v := by
  have hsources : sourcesOf t layout (done ++ [x]) = sourcesOf t layout done ++ [(r, markup)] := by
    rw [sourcesOf_append, hsource]
  refine ⟨?_, ?_, hemitted.here.trans h.here, hemitted.linkFree, hemitted.wellFormed,
    h.keeps.trans hemitted.keeps, h.reached_concat hemitted, ?_, h.kept_concat hemitted, ?_⟩
  · have hcounted := h.counted
    simp only [List.length_append, List.length_singleton]
    omega
  · rw [hsources, List.map_append, ← h.compiled_eq]
    rfl
  · intro q last hlast
    rw [hsources, lastMarkup_concat] at hlast
    split at hlast
    · next hplace =>
      rw [← hplace, ← Option.some.inj hlast, ← h.here]
      exact hemitted.written
    · next hplace =>
      refine (hemitted.get?_eq (h.written q last hlast)).resolve_right fun hq => hplace ?_
      rw [hq, h.here]
  · intro hnil
    simp at hnil

theorem Progress.foldlM (hl : t.LinkFree) (hw : t.WellFormed) (hapart : Apart layout t)
    {todo : List Path} {s s' : Session} (h : Progress options layout t done report s.tree)
    (hall : ∀ x ∈ done ++ todo, x ∈ discover t layout)
    (hrun : (todo.foldlM (compileOne options layout) report).outcome s = (.ok report', s')) :
    Progress options layout t (done ++ todo) report' s'.tree := by
  -- by induction on the descriptors to come; those that are done carry the progress
  induction todo generalizing done report s with
  | nil =>
    obtain ⟨hreport, rfl⟩ := Prod.mk.inj hrun
    rw [← Except.ok.inj hreport, List.append_nil]
    exact h
  | cons x todo ih =>
    rw [List.foldlM_cons, Task.outcome_bind] at hrun
    split at hrun
    · next middle m hone =>
      have hsource := h.sourcesOf_eq hl hw hapart (fun y hy => hall y (List.mem_append_left _ hy))
        (hall x (by simp))
      have hturned := turned_of_compileOne h.linkFree h.wellFormed hone
      have hnext : Progress options layout t (done ++ [x]) middle m.tree := by
        generalize m.tree = v at hturned
        cases hturned with
        | passed hnone hcompiled hcount => exact h.passed (hsource ▸ hnone) hcompiled hcount
        | compiled hsome hemitted => exact h.compiled (hsource ▸ hsome) hemitted
      rw [List.append_cons]
      exact ih hnext (by simpa using hall) hrun
    · cases hrun

structure Compiled (options : Markup.Options) (layout : Layout) (t : Tree) (report : CompileReport)
    (u : Tree) : Prop where
  counted : report.compiled.length + report.skipped + report.failed = (discover t layout).length
  compiled_eq : report.compiled =
    (sourcesOf t layout (discover t layout)).map (·.1.destination)
  written : ∀ p ∈ report.compiled, ∃ markup,
    lastMarkup t.here (sourcesOf t layout (discover t layout)) (p.placeFrom t.here) = some markup ∧
      u.read p = .ok (Markup.render options markup)
  here : u.here = t.here
  /-- All other places are as before, except that directories on the way may be new. -/
  kept : ∀ q, q ∉ report.compiled.map (·.placeFrom t.here) → u.get? q = t.get? q ∨
    t.get? q = none ∧ u.get? q = some .directory ∧ ∃ p ∈ report.compiled, p.PassesThrough t.here q

theorem Progress.compiled_of_done (h : Progress options layout t (discover t layout) report u) :
    Compiled options layout t report u := by
  refine ⟨h.counted, h.compiled_eq, fun p hp => ?_, h.here, h.kept⟩
  have hsource := hp
  rw [h.compiled_eq] at hsource
  obtain ⟨s, hs, rfl⟩ := List.mem_map.1 hsource
  obtain ⟨markup, hlast⟩ := exists_lastMarkup t.here hs
  have hfile := h.written _ _ hlast
  rw [← h.here] at hfile
  exact ⟨markup, hlast, (h.reached _ hp).read h.linkFree hfile⟩

/-- Once the options are there, a run is one turn after the other over all descriptors. -/
theorem outcome_run_eq_foldlM {s m : Session} {source : Option Path}
    (h : (OptionsFile.resolve layout.rcFile).outcome s = (.ok (options, source), m)) :
    ∃ n, n.tree = s.tree ∧ (run layout).outcome s =
      ((discover s.tree layout).foldlM (compileOne options layout) {}).outcome n := by
  have htree := OptionsFile.tree_resolve layout.rcFile s
  rw [h] at htree
  have hrun (n : Session) (hn : n.tree = m.tree) : n.tree = s.tree ∧
      (Session.ask (discover · layout) >>= fun descriptors =>
        descriptors.foldlM (compileOne options layout) {}).outcome n =
      ((discover s.tree layout).foldlM (compileOne options layout) {}).outcome n := by
    rw [Task.outcome_bind, Task.outcome_ask, hn, htree]
    exact ⟨rfl, rfl⟩
  unfold run
  rw [Task.outcome_bind, Task.outcome_adapt, h]
  cases source with
  | none => exact ⟨m, hrun m rfl⟩
  | some p =>
    dsimp only [Except.mapError]
    rw [Task.outcome_bind, Task.outcome_say]
    exact ⟨_, hrun _ rfl⟩

theorem outcome_run_of_no_options {s m : Session} {g : OptionsFault}
    (h : (OptionsFile.resolve layout.rcFile).outcome s = (.error g, m)) :
    (run layout).outcome s = (.error (.options g), m) := by
  unfold run
  rw [Task.outcome_bind, Task.outcome_adapt, h]
  rfl

theorem foldlM_of_run {s s' : Session}
    (h : (run layout).outcome s = (.ok report, s')) :
    ∃ options source m n, (OptionsFile.resolve layout.rcFile).outcome s = (.ok (options, source), m) ∧
      n.tree = s.tree ∧
      ((discover s.tree layout).foldlM (compileOne options layout) {}).outcome n = (.ok report, s') := by
  rcases hresolve : (OptionsFile.resolve layout.rcFile).outcome s with ⟨f | ⟨options, source⟩, m⟩
  · rw [outcome_run_of_no_options hresolve] at h
    cases h
  · obtain ⟨n, hn, hrun⟩ := outcome_run_eq_foldlM hresolve
    exact ⟨options, source, m, n, rfl, hn, hrun ▸ h⟩

theorem compiled_of_run {s s' : Session} (hl : s.tree.LinkFree) (hw : s.tree.WellFormed)
    (hapart : Apart layout s.tree) (h : (run layout).outcome s = (.ok report, s')) :
    ∃ options source m, (OptionsFile.resolve layout.rcFile).outcome s = (.ok (options, source), m) ∧
      Compiled options layout s.tree report s'.tree := by
  obtain ⟨options, source, m, n, hresolve, hn, hfold⟩ := foldlM_of_run h
  have hstart : Progress options layout s.tree [] {} n.tree := by
    rw [hn]
    exact .start hl hw
  have hdone := hstart.foldlM hl hw hapart (fun _ hx => hx) hfold
  exact ⟨options, source, m, hresolve, hdone.compiled_of_done⟩

end Compile
end PatternBridge
