import PatternBridge.Compile
import PatternBridge.Proofs.Files.Later
import PatternBridge.Proofs.Text.Suffix

/-! What a run compiles. The routes of a tree and the markup that they name can be told before the
run, since nothing that the run writes changes a descriptor or makes its markup come or go. -/

namespace PatternBridge

namespace Route

theorem ne_of_mem_idOf {descriptor patterns : Path} {c : Char} (h : c ∈ idOf descriptor patterns) :
    c ≠ '/' ∧ c ≠ '\\' ∧ c ≠ '~' := by
  have hsep : isIdSeparator c = false := by
    obtain ⟨d, -, hd⟩ := List.mem_map.1 h
    split at hd
    · rw [← hd]
      rfl
    · next hsep => exact hd ▸ Bool.eq_false_iff.2 hsep
  simpa [isIdSeparator, and_assoc] using hsep

theorem noSlash_idOf (descriptor patterns : Path) : '/' ∉ idOf descriptor patterns :=
  fun h => (ne_of_mem_idOf h).1 rfl

theorem goesOn_markupOf (published : Path) {id : Text} (hid : '/' ∉ id) :
    ∃ idle names, (markupOf published id).GoesOn published idle names := by
  have hname : Path.IsName (id ++ markupSuffix) :=
    Path.isName_append hid (by decide) (by decide)
  have hstart (here : Place) : Tree.start here (markupOf published id) = Tree.start here published := by
    rw [markupOf, Path.start_div here _ hname.noSlash, Path.start_div here _ hid]
  have hsteps : (markupOf published id).steps =
      published.track ++ ((Step.ofSegment? id).toList ++ [.name (id ++ markupSuffix)]) := by
    rw [markupOf, Path.steps_div_name _ hname, Path.track_div _ hid, List.append_assoc]
  by_cases hstep : ∃ n, Step.ofSegment? id = some (.name n)
  · obtain ⟨n, hn⟩ := hstep
    refine ⟨[], [n, id ++ markupSuffix], ?_, hstart, by simp, by simp⟩
    rw [hsteps, hn]
    rfl
  · refine ⟨(Step.ofSegment? id).toList, [id ++ markupSuffix], hsteps, hstart, ?_, by simp⟩
    rintro step hmem n rfl
    exact hstep ⟨n, Option.mem_toList.1 hmem⟩

end Route

namespace Compile
open PatternBridge.Tree

variable {t u : Tree} {layout : Layout} {x : Path} {r : Route}

def routesOf (t : Tree) (layout : Layout) (descriptors : List Path) : List Route :=
  descriptors.filterMap fun x => (route t layout x).toOption.join

/-- The routes whose markup can be read, each with its markup. -/
def sourcesOf (t : Tree) (layout : Layout) (descriptors : List Path) : List (Route × Text) :=
  (routesOf t layout descriptors).filterMap fun r =>
    (t.read r.markup).toOption.map fun markup => (r, markup)

/-- No destination of a route is where a descriptor or the markup of a route is or would be. -/
def Apart (layout : Layout) (t : Tree) : Prop :=
  ∀ r ∈ routesOf t layout (discover t layout),
    (∀ x ∈ discover t layout, r.destination.placeFrom t.here ≠ x.placeFrom t.here) ∧
    ∀ r' ∈ routesOf t layout (discover t layout),
      r.destination.placeFrom t.here ≠ r'.markup.placeFrom t.here

instance (layout : Layout) (t : Tree) : Decidable (Apart layout t) := by
  unfold Apart
  infer_instance

theorem join_toOption_eq_some {y : Except DescriptorFault (Option Route)} :
    y.toOption.join = some r ↔ y = .ok (some r) := by
  rcases y with _ | _ | _ <;> simp [Except.toOption]

theorem mem_routesOf {descriptors : List Path} :
    r ∈ routesOf t layout descriptors ↔ ∃ x ∈ descriptors, route t layout x = .ok (some r) := by
  unfold routesOf
  rw [List.mem_filterMap]
  simp only [join_toOption_eq_some]

theorem mem_sourcesOf {descriptors : List Path} {markup : Text} :
    (r, markup) ∈ sourcesOf t layout descriptors ↔
      r ∈ routesOf t layout descriptors ∧ t.read r.markup = .ok markup := by
  unfold sourcesOf
  rw [List.mem_filterMap]
  constructor
  · rintro ⟨r', hr', h⟩
    obtain ⟨s, hs, heq⟩ := Option.map_eq_some_iff.1 h
    obtain ⟨rfl, rfl⟩ := Prod.mk.inj heq
    refine ⟨hr', ?_⟩
    cases hread : t.read r'.markup with
    | error f => rw [hread] at hs; cases hs
    | ok s' => rw [hread] at hs; rw [Option.some.inj hs]
  · rintro ⟨hr, hread⟩
    exact ⟨r, hr, by rw [hread]; rfl⟩

theorem toOption_route (t : Tree) (layout : Layout) (x : Path) :
    (route t layout x).toOption = (t.status x).toOption.bind fun r =>
      if !r.2.isFile then some none
      else (t.read x).toOption.bind fun s => (Descriptor.parse? s).map fun d =>
        d.routing?.map fun (dir, ext) => route.routeOf layout x dir ext := by
  unfold route
  cases t.status x with
  | error f => rfl
  | ok r =>
    obtain ⟨q, e⟩ := r
    by_cases hfile : e.isFile
    · cases t.read x with
      | error f => simp [hfile, Except.toOption]
      | ok s => cases hparse : Descriptor.parse? s <;> simp [hfile, hparse, Except.toOption]
    · simp [hfile, Except.toOption]

theorem rel_route {layout' : Layout} {y : Path} {related : Route → Route → Prop}
    (hentry : t.entry? x = u.entry? y)
    (h : ∀ (d : Descriptor) dir ext, d.routing? = some (dir, ext) →
      related (route.routeOf layout x dir ext) (route.routeOf layout' y dir ext)) :
    Option.Rel (Option.Rel related) (route t layout x).toOption (route u layout' y).toOption := by
  rw [toOption_route, toOption_route, toOption_read_of_entry hentry]
  unfold entry? at hentry
  cases hx : (t.status x).toOption with
  | none =>
    rw [hx, Option.map_none, eq_comm, Option.map_eq_none_iff] at hentry
    rw [hentry]
    exact .none
  | some r =>
    rw [hx, Option.map_some, eq_comm, Option.map_eq_some_iff] at hentry
    obtain ⟨r', hy, hr⟩ := hentry
    rw [hy, Option.bind_some, Option.bind_some, hr]
    split
    · exact .some .none
    · cases (u.read y).toOption with
      | none => exact .none
      | some s =>
        rw [Option.bind_some, Option.bind_some]
        cases Descriptor.parse? s with
        | none => exact .none
        | some d =>
          rw [Option.map_some, Option.map_some]
          cases hd : d.routing? with
          | none => exact .some .none
          | some routing => exact .some (.some (h d routing.1 routing.2 hd))

theorem markup_eq (h : route t layout x = .ok (some r)) :
    ∃ id, '/' ∉ id ∧ r.markup = Route.markupOf layout.published id := by
  refine ⟨Route.idOf x layout.patterns, Route.noSlash_idOf x layout.patterns, ?_⟩
  unfold route at h
  split at h
  · cases h
  split at h
  · cases h
  split at h
  · cases h
  split at h
  · cases h
  · obtain ⟨y, -, hy⟩ := Option.map_eq_some_iff.1 (Except.ok.inj h)
    rw [← hy]
    rfl

theorem goesOn_markup (h : route t layout x = .ok (some r)) :
    ∃ idle names, r.markup.GoesOn layout.published idle names := by
  obtain ⟨id, hid, hmarkup⟩ := markup_eq h
  rw [hmarkup]
  exact Route.goesOn_markupOf layout.published hid

theorem sourcesOf_append (t : Tree) (layout : Layout) (xs ys : List Path) :
    sourcesOf t layout (xs ++ ys) = sourcesOf t layout xs ++ sourcesOf t layout ys := by
  unfold sourcesOf routesOf
  rw [List.filterMap_append, List.filterMap_append]

theorem sourcesOf_singleton (t : Tree) (layout : Layout) (x : Path) :
    sourcesOf t layout [x] =
      ((route t layout x).toOption.join.bind fun r =>
        (t.read r.markup).toOption.map fun markup => (r, markup)).toList := by
  unfold sourcesOf routesOf
  cases h : (route t layout x).toOption.join with
  | none => simp [h]
  | some r =>
    cases hread : (t.read r.markup).toOption with
    | none => simp [h, hread]
    | some markup => simp [h, hread]

theorem sourcesOf_singleton_congr
    (hroute : (route u layout x).toOption = (route t layout x).toOption)
    (hread : ∀ r, route u layout x = .ok (some r) →
      (u.read r.markup).toOption = (t.read r.markup).toOption) :
    sourcesOf u layout [x] = sourcesOf t layout [x] := by
  rw [sourcesOf_singleton, sourcesOf_singleton, ← hroute]
  cases hr : (route u layout x).toOption.join with
  | none => rw [Option.bind_none, Option.bind_none]
  | some r => rw [Option.bind_some, Option.bind_some, hread r (join_toOption_eq_some.1 hr)]

theorem sourcesOf_congr {descriptors : List Path}
    (h : ∀ x ∈ descriptors, sourcesOf u layout [x] = sourcesOf t layout [x]) :
    sourcesOf u layout descriptors = sourcesOf t layout descriptors := by
  have hnil (v : Tree) : sourcesOf v layout [] = [] := rfl
  induction descriptors with
  | nil => rw [hnil, hnil]
  | cons x xs ih =>
    rw [← List.singleton_append, sourcesOf_append, sourcesOf_append, h x List.mem_cons_self,
      ih fun y hy => h y (List.mem_cons_of_mem _ hy)]

/-- A path that may be a descriptor leads down from the templates directory to an entry. -/
structure Candidate (t : Tree) (layout : Layout) (x : Path) (names : List Text) : Prop where
  named : ∃ init stem suffix, suffix ∈ Descriptor.suffixes ∧ names = init ++ [stem ++ suffix]
  goesOn : x.GoesOn layout.templates [] names
  place : x.placeFrom t.here = layout.templates.placeFrom t.here ++ names
  entry : ∃ e, t.get? (x.placeFrom t.here) = some e
  opens : t.Opens layout.templates

theorem candidate_of_mem (hl : t.LinkFree) (hw : t.WellFormed) (hx : x ∈ discover t layout) :
    ∃ names, Candidate t layout x names := by
  unfold discover entriesEndingIn foundBelow at hx
  obtain ⟨f, hf, rfl⟩ := List.mem_map.1 hx
  obtain ⟨hfound, hsuffix⟩ := List.mem_filter.1 hf
  split at hfound
  · next q hstatus =>
    obtain ⟨⟨names, e⟩, hbelow, rfl⟩ := List.mem_map.1 hfound
    obtain ⟨⟨hne, hget⟩, -⟩ := mem_listedBelow.1 hbelow
    obtain rfl := (status_eq_ok hl hstatus).1
    have hnames : ∀ n ∈ names, Path.IsName n :=
      fun n hn => hw.named hget n (List.mem_append_right _ hn)
    have hplace := Path.placeFrom_pathTo t.here layout.templates hnames
    refine ⟨names, ?_, Path.goesOn_pathTo _ hne hnames, hplace, ⟨e, ?_⟩,
      opens_of_status hl hstatus⟩
    · obtain ⟨init, n, rfl⟩ := (List.eq_nil_or_concat names).resolve_left hne
      obtain ⟨suffix, hmem, hend⟩ := List.any_eq_true.1 hsuffix
      have hend : suffix <:+ n := by
        rw [← List.isSuffixOf_iff_suffix]
        simpa [Text.endsWith] using hend
      obtain ⟨stem, rfl⟩ := hend
      exact ⟨init, stem, suffix, hmem, by rw [List.concat_eq_append]⟩
    · rw [hplace]
      exact hget
  · simp at hfound

theorem toOption_route_congr (h : (u.status x).toOption = (t.status x).toOption) :
    (route u layout x).toOption = (route t layout x).toOption := by
  rw [toOption_route, toOption_route, h, toOption_read_congr h]

theorem Candidate.route_eq {names : List Text} (hx : Candidate t layout x names) (hl : t.LinkFree)
    (hw : t.WellFormed) {isOutput : Place → Prop} (h : Later isOutput t u)
    (hq : ¬ isOutput (x.placeFrom t.here)) :
    (route u layout x).toOption = (route t layout x).toOption := by
  obtain ⟨e, he⟩ := hx.entry
  exact toOption_route_congr (h.status_eq hl hw hx.opens hx.goesOn hq he)

end Compile
end PatternBridge
