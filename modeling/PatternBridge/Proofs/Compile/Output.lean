import PatternBridge.Proofs.Compile.Sources
import PatternBridge.Proofs.Session.Saving

/-! The turn of one descriptor. It is passed over, and then the tree stays as it is, or its markup is
compiled into its destination, for which directories may be made. -/

namespace PatternBridge.Compile
open PatternBridge.Tree

variable {options : Markup.Options} {layout : Layout} {report report' : CompileReport}
  {s s' : Session} {x : Path}

structure Emitted (p : Path) (content : Text) (t u : Tree) : Prop where
  here : u.here = t.here
  linkFree : u.LinkFree
  wellFormed : u.WellFormed
  keeps : t.KeepsDirectories u
  reached : u.Reaches p
  written : u.get? (p.placeFrom t.here) = some (.file (.text content))
  frame : ∀ q, q ≠ p.placeFrom t.here → u.get? q = t.get? q ∨
    t.get? q = none ∧ u.get? q = some .directory ∧ p.PassesThrough t.here q

theorem Emitted.get?_eq {p : Path} {content : Text} {t u : Tree} (h : Emitted p content t u)
    {q : Place} {f : Entry} (hq : t.get? q = some f) :
    u.get? q = some f ∨ q = p.placeFrom t.here := by
  by_cases hplace : q = p.placeFrom t.here
  · exact .inr hplace
  · obtain hu | ⟨hnone, -⟩ := h.frame q hplace
    · exact .inl (hu.trans hq)
    · rw [hq] at hnone
      cases hnone

theorem emitted_of_write {p : Path} {content : Text} {t m u : Tree} (hl : m.LinkFree)
    (hw : m.WellFormed) (hmade : t.GrownBy m (p.PassesThrough t.here))
    (h : m.write p (.text content) = .ok u) : Emitted p content t u := by
  have hwrote := wrote_of_write hl h
  have hhere : m.here = t.here := hmade.1
  refine ⟨hwrote.here.trans hhere, hwrote.linkFree, hw.write hl h,
    hmade.keepsDirectories.trans hwrote.keeps, hwrote.reached, ?_, fun q hq => ?_⟩
  · rw [← hhere]
    exact hwrote.written
  · rw [hwrote.frame q (by rwa [hhere])]
    exact hmade.2 q

theorem saving_of_writeOutput {p : Path} {content : Text} {r : Except CompileFault Unit}
    (h : (writeOutput p content).outcome s = (r, s')) :
    Task.Saving .directory (.output p) p content s r s' := Task.saving_of_outcome h

theorem emitted_of_writeOutput {p : Path} {content : Text} (hl : s.tree.LinkFree)
    (hw : s.tree.WellFormed) (h : (writeOutput p content).outcome s = (.ok (), s')) :
    Emitted p content s.tree s'.tree := by
  have hmade := grownBy_parentsMade hl p
  cases saving_of_writeOutput h with
  | saved hwrite => exact emitted_of_write (hmade.linkFree hl) (hw.parentsMade hl p) hmade hwrite

inductive Turned (options : Markup.Options) (layout : Layout) (report : CompileReport) (x : Path)
    (t : Tree) : CompileReport → Tree → Prop
  | passed {report' : CompileReport} (hsource : sourcesOf t layout [x] = [])
      (hcompiled : report'.compiled = report.compiled)
      (hcount : report'.skipped + report'.failed = report.skipped + report.failed + 1) :
      Turned options layout report x t report' t
  | compiled {u : Tree} {r : Route} {markup : Text} (hsource : sourcesOf t layout [x] = [(r, markup)])
      (hemitted : Emitted r.destination (Markup.render options markup) t u) :
      Turned options layout report x t
        { report with compiled := report.compiled ++ [r.destination] } u

theorem job_cases (t : Tree) (options : Markup.Options) (layout : Layout) (x : Path) :
    (∃ f, job t options layout x = .error f ∧ sourcesOf t layout [x] = []) ∨
    (job t options layout x = .ok none ∧ sourcesOf t layout [x] = []) ∨
    ∃ r markup, job t options layout x = .ok (some (r, Markup.render options markup)) ∧
      sourcesOf t layout [x] = [(r, markup)] := by
  rw [sourcesOf_singleton]
  unfold job output
  cases route t layout x with
  | error f => exact .inl ⟨f, rfl, rfl⟩
  | ok r? =>
    cases r? with
    | none => exact .inr (.inl ⟨rfl, rfl⟩)
    | some r =>
      cases hread : t.read r.markup with
      | error f =>
        refine .inl ⟨.markup r.markup f, ?_, ?_⟩
        · simp only [hread, bind, Except.bind]
        · simp only [Except.toOption, Option.join_some, Option.bind_some, hread]
          rfl
      | ok markup =>
        refine .inr (.inr ⟨r, markup, ?_, ?_⟩)
        · simp only [hread, bind, Except.bind]
          rfl
        · simp only [Except.toOption, Option.join_some, Option.bind_some, hread]
          rfl

theorem compileOne_cases {result : Except CompileFault CompileReport}
    (h : (compileOne options layout report x).outcome s = (result, s')) :
    (sourcesOf s.tree layout [x] = [] ∧ s'.tree = s.tree ∧ ∃ report', result = .ok report' ∧
      report'.compiled = report.compiled ∧
      report'.skipped + report'.failed = report.skipped + report.failed + 1) ∨
    ∃ r markup, sourcesOf s.tree layout [x] = [(r, markup)] ∧
      ((∃ m, (writeOutput r.destination (Markup.render options markup)).outcome s = (.ok (), m) ∧
        result = .ok { report with compiled := report.compiled ++ [r.destination] } ∧
        s'.tree = m.tree) ∨
      ∃ f, (writeOutput r.destination (Markup.render options markup)).outcome s = (.error f, s') ∧
        result = .error f) := by
  unfold compileOne at h
  rw [Task.outcome_bind, Task.outcome_ask] at h
  dsimp only at h
  obtain ⟨f, hjob, hsource⟩ | ⟨hjob, hsource⟩ | ⟨r, markup, hjob, hsource⟩ :=
    job_cases s.tree options layout x
  · rw [hjob] at h
    obtain ⟨rfl, rfl⟩ := Prod.mk.inj h
    exact .inl ⟨hsource, rfl, _, rfl, rfl, rfl⟩
  · rw [hjob] at h
    obtain ⟨rfl, rfl⟩ := Prod.mk.inj h
    exact .inl ⟨hsource, rfl, _, rfl, rfl, Nat.add_right_comm _ _ _⟩
  · refine .inr ⟨r, markup, hsource, ?_⟩
    rw [hjob] at h
    dsimp only at h
    rw [Task.outcome_bind] at h
    split at h
    · next made m hwrite =>
      rw [Task.outcome_bind, Task.outcome_say] at h
      obtain ⟨rfl, rfl⟩ := Prod.mk.inj h
      exact .inl ⟨m, hwrite, rfl, rfl⟩
    · next f m hwrite =>
      obtain ⟨rfl, rfl⟩ := Prod.mk.inj h
      exact .inr ⟨f, hwrite, rfl⟩

theorem turned_of_compileOne (hl : s.tree.LinkFree) (hw : s.tree.WellFormed)
    (h : (compileOne options layout report x).outcome s = (.ok report', s')) :
    Turned options layout report x s.tree report' s'.tree := by
  obtain ⟨hsource, htree, made, hmade, hcompiled, hcount⟩ |
      ⟨r, markup, hsource, ⟨m, hwrite, hmade, htree⟩ | ⟨f, -, hfault⟩⟩ := compileOne_cases h
  · obtain rfl := Except.ok.inj hmade
    rw [htree]
    exact .passed hsource hcompiled hcount
  · obtain rfl := Except.ok.inj hmade
    rw [htree]
    exact .compiled hsource (emitted_of_writeOutput hl hw hwrite)
  · cases hfault

end PatternBridge.Compile
