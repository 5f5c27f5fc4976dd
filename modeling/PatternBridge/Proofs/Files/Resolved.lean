import PatternBridge.Proofs.Files.Components

/-! Paths with their `..` components resolved, without a look at any tree. What a path puts behind a
base keeps the base exactly where it does not climb when it is resolved on its own. -/

namespace PatternBridge.Path
open Text

/-- Resolved components with one more behind them: `..` takes away the last name, has no effect at
the root, and stays where no name is left. -/
def Component.resolveInto (cs : List Component) : Component → List Component
  | root => [root]
  | stay => cs
  | name n => cs ++ [name n]
  | up =>
    match cs.getLast? with
    | some (name _) => cs.dropLast
    | some root => cs
    | _ => cs ++ [up]

def resolved (p : Path) : List Component := p.components.foldl Component.resolveInto []

/-- The path leads to `base` and from there down by one name or more. -/
def LiesInside (p base : Path) : Prop :=
  ∃ names : List Text, names ≠ [] ∧ p.resolved = base.resolved ++ names.map .name

theorem LiesInside.resolved_prefix {p base : Path} (h : p.LiesInside base) :
    base.resolved <+: p.resolved ∧ base.resolved ≠ p.resolved := by
  obtain ⟨names, hne, hnames⟩ := h
  refine ⟨⟨_, hnames.symm⟩, fun heq => hne ?_⟩
  rw [heq] at hnames
  simpa using hnames

theorem trail_cases {p : Path} {c : Component} (h : c ∈ p.trail) : c = .up ∨ ∃ n, c = .name n := by
  obtain ⟨s, -, hs⟩ := List.mem_filterMap.1 h
  exact Component.ofSegment?_cases hs

theorem trail_of_notMem {p : Path} (h : ['.', '.'] ∉ p.segments) :
    p.trail = (p.segments.filter fun s => !isIdle s).map .name := by
  unfold trail
  generalize p.segments = segments at h ⊢
  induction segments with
  | nil => rfl
  | cons s ss ih =>
    have hs : s ≠ ['.', '.'] := fun hs => h (by simp [hs])
    have hss := ih fun hmem => h (List.mem_cons_of_mem _ hmem)
    by_cases hidle : isIdle s
    · simp [Component.ofSegment?, hidle, hss]
    · simp [Component.ofSegment?, hidle, hs, hss]

theorem resolved_eq (p : Path) :
    p.resolved =
      p.trail.foldl Component.resolveInto (if p.isAbsolute then [.root] else []) := by
  have hanchor : p.anchor.components.foldl Component.resolveInto [] =
      if p.isAbsolute then [.root] else [] := by
    unfold anchor
    split
    · rfl
    · split <;> rfl
  rw [resolved, components_eq_trail, List.foldl_append, hanchor]

section
variable (p : Path) {q : Path} (hq : q.isAbsolute = false)
include hq

theorem trail_div : (p / q).trail = p.trail ++ q.trail := by
  obtain ⟨init, hinit, hsegments⟩ := segments_join p hq
  have htrail : p.trail = init.filterMap Component.ofSegment? := filterMap_of_seam rfl hinit
  rw [trail, hsegments, List.filterMap_append, htrail]
  rfl

theorem resolved_div :
    (p / q).resolved = q.trail.foldl Component.resolveInto p.resolved := by
  rw [resolved_eq, resolved_eq p, isAbsolute_div p hq, trail_div p hq, List.foldl_append]

end

theorem foldl_resolveInto_up {ts : List Component} (hts : ∀ c ∈ ts, c = .up ∨ ∃ n, c = .name n)
    (cs : List Component) :
    ∃ ds, ts.foldl Component.resolveInto (.up :: cs) = .up :: ds := by
  induction ts generalizing cs with
  | nil => exact ⟨cs, rfl⟩
  | cons t ts ih =>
    obtain ⟨ds, hds⟩ : ∃ ds, Component.resolveInto (.up :: cs) t = .up :: ds := by
      rcases hts t List.mem_cons_self with rfl | ⟨n, rfl⟩
      · rcases List.eq_nil_or_concat cs with rfl | ⟨init, c, rfl⟩
        · exact ⟨[.up], rfl⟩
        · rw [List.concat_eq_append, Component.resolveInto, ← List.cons_append,
            List.getLast?_concat, List.dropLast_concat]
          cases c with
          | root => exact ⟨_, rfl⟩
          | stay => exact ⟨_, rfl⟩
          | up => exact ⟨_, rfl⟩
          | name n => exact ⟨_, rfl⟩
      · exact ⟨cs ++ [.name n], rfl⟩
    rw [List.foldl_cons, hds]
    exact ih (fun c hc => hts c (List.mem_cons_of_mem _ hc)) ds

theorem foldl_resolveInto_names {ts : List Component} {ns ms : List Text}
    (hts : ∀ c ∈ ts, c = .up ∨ ∃ n, c = .name n)
    (h : ts.foldl Component.resolveInto (ns.map .name) = ms.map .name) (base : List Component) :
    ts.foldl Component.resolveInto (base ++ ns.map .name) = base ++ ms.map .name := by
  induction ts generalizing ns with
  | nil => exact congrArg (base ++ ·) h
  | cons t ts ih =>
    have hrest : ∀ c ∈ ts, c = .up ∨ ∃ n, c = .name n :=
      fun c hc => hts c (List.mem_cons_of_mem _ hc)
    rw [List.foldl_cons] at h ⊢
    rcases hts t List.mem_cons_self with rfl | ⟨n, rfl⟩
    · rcases List.eq_nil_or_concat ns with rfl | ⟨init, n, rfl⟩
      · -- nothing to take away, so that a `..` would be left
        obtain ⟨ds, hds⟩ := foldl_resolveInto_up hrest []
        have hup : Component.up :: ds = ms.map .name := hds.symm.trans h
        cases ms <;> cases hup
      · have htaken (cs : List Component) :
            Component.resolveInto (cs ++ (init.concat n).map .name) .up =
              cs ++ init.map .name := by
          rw [List.concat_eq_append, List.map_append, List.map_singleton, ← List.append_assoc,
            Component.resolveInto, List.getLast?_concat, List.dropLast_concat]
        rw [htaken base]
        exact ih hrest ((congrArg (ts.foldl _) (htaken []).symm).trans h)
    · have hput (cs : List Component) :
          Component.resolveInto (cs ++ ns.map .name) (.name n) = cs ++ (ns ++ [n]).map .name := by
        rw [Component.resolveInto, List.append_assoc, List.map_append, List.map_singleton]
      rw [hput base]
      exact ih hrest ((congrArg (ts.foldl _) (hput []).symm).trans h)

theorem foldl_resolveInto_map_name (cs : List Component) (names : List Text) :
    (names.map .name).foldl Component.resolveInto cs = cs ++ names.map .name := by
  induction names generalizing cs with
  | nil => simp
  | cons n names ih =>
    rw [List.map_cons, List.foldl_cons, ih, Component.resolveInto, List.append_assoc]
    rfl

/-- A path stays inside every base that it is put behind if it does so behind the working
directory. -/
theorem forall_liesInside_div_iff {q : Path} (hq : q.isAbsolute = false) :
    (∀ base : Path, (base / q).LiesInside base) ↔ q.LiesInside ⟨"."⟩ := by
  have hhere : (⟨"."⟩ : Path).resolved = [] := by decide
  have halone : q.resolved = q.trail.foldl Component.resolveInto [] := by
    rw [resolved_eq, hq]
    rfl
  constructor
  · intro h
    obtain ⟨names, hne, hnames⟩ := h ⟨"."⟩
    rw [resolved_div _ hq, hhere, ← halone] at hnames
    exact ⟨names, hne, by rw [hnames, hhere]⟩
  · rintro ⟨names, hne, hnames⟩ base
    rw [hhere, List.nil_append, halone] at hnames
    refine ⟨names, hne, ?_⟩
    have hstart : q.trail.foldl Component.resolveInto (([] : List Text).map .name) =
        names.map .name := hnames
    have h := foldl_resolveInto_names (fun c hc => trail_cases hc) hstart base.resolved
    rwa [List.map_nil, List.append_nil, ← resolved_div base hq] at h

end PatternBridge.Path
