import Mathlib.Data.List.Forall2
import PatternBridge.Proofs.Compile.Sources
import PatternBridge.Proofs.Files.Spelling

/-! Compiling below a directory of the patterns only. Where the setting spells the patterns directory
and goes on by names, the run finds just the descriptors that the whole run finds below the directory,
and routes each as the whole run does; the ids tell other spellings from each other. -/

namespace PatternBridge

namespace Config

def whole (c : Config) : Config := { c with templates := none }

end Config

namespace Compile
open PatternBridge.Tree

def liesBelow (t : Tree) (dir p : Path) : Bool :=
  (dir.placeFrom t.here).isPrefixOf (p.placeFrom t.here) &&
    p.placeFrom t.here != dir.placeFrom t.here

/-- A path of a narrow run stands for one of the whole run. -/
structure Stands (t : Tree) (narrow whole : Layout) (x y : Path) : Prop where
  components : x.components = y.components
  route : ∀ dir ext, { route.routeOf whole y dir ext with descriptor := x } =
    route.routeOf narrow x dir ext
  /-- Too long a spelling can still keep a descriptor from being found. -/
  loaded : pathFault? x = none → pathFault? y = none → (Compile.route t narrow x).toOption =
    (Compile.route t whole y).toOption.map (Option.map fun r => { r with descriptor := x })

theorem toOption_route_of_status {t : Tree} {narrow whole : Layout} {x y : Path}
    (hroute : ∀ dir ext, { route.routeOf whole y dir ext with descriptor := x } =
      route.routeOf narrow x dir ext)
    (hstatus : (t.status x).toOption = (t.status y).toOption) :
    (Compile.route t narrow x).toOption =
      (Compile.route t whole y).toOption.map (Option.map fun r => { r with descriptor := x }) := by
  have hentry : t.entry? x = t.entry? y := congrArg (Option.map Prod.snd) hstatus
  have hrel : Option.Rel (Option.Rel fun r r' : Route => r = { r' with descriptor := x })
      (Compile.route t narrow x).toOption (Compile.route t whole y).toOption :=
    rel_route hentry fun _ dir ext _ => (hroute dir ext).symm
  generalize (Compile.route t narrow x).toOption = o, (Compile.route t whole y).toOption = o' at hrel
  cases hrel with
  | none => rfl
  | some hrel =>
    cases hrel with
    | none => rfl
    | some h => rw [h]; rfl

section
variable {t : Tree} {layout : Layout}

def isWanted (x : List Text × Entry) : Bool :=
  Descriptor.suffixes.any (Text.endsWith (x.1.getLast?.getD []))

theorem discover_of_opens (hl : t.LinkFree) (hfault : pathFault? layout.templates = none)
    (h : t.Opens layout.templates) :
    discover t layout =
      ((t.listedBelow layout.templates (layout.templates.placeFrom t.here)).filter isWanted).map
        fun x => pathTo layout.templates x.1 := by
  rw [discover, entriesEndingIn, foundBelow_of_opens hl hfault h, List.filter_map, List.map_map]
  rfl

theorem discover_eq_nil (hl : t.LinkFree) (h : ¬ t.Opens layout.templates) :
    discover t layout = [] := by
  rw [discover, entriesEndingIn, foundBelow_eq_nil hl h]
  rfl

end

theorem filter_listed {t : Tree} {p base : Path} {names : List Text} (hw : t.WellFormed)
    (halike : t.RefusedAlike p (pathTo base names)) :
    (t.listedBelow p (p.placeFrom t.here)).filter isWanted =
      (t.below (p.placeFrom t.here)).filter fun x =>
        isWanted (names ++ x.1, x.2) && isListed base (names ++ x.1) := by
  rw [listedBelow, List.filter_filter]
  apply List.filter_congr
  intro x hx
  obtain ⟨init, n, hn⟩ := (List.eq_nil_or_concat x.1).resolve_left (mem_below.1 hx).1
  rw [List.concat_eq_append] at hn
  rw [halike.isListed_eq hw hx]
  simp only [isWanted, isListed, hn, ← List.append_assoc, List.getLast?_concat, List.dropLast_concat,
    pathTo, List.foldl_append]

section
variable {t : Tree} {p base q : Path} {names : List Text} (hw : t.WellFormed)
  (hp : p.DescendsBy base q names)
include hw hp

theorem filter_liesBelow (wanted : List Text × Entry → Bool) :
    (((t.below (base.placeFrom t.here)).filter wanted).map fun x => pathTo base x.1).filter
        (liesBelow t p) =
      ((t.below (p.placeFrom t.here)).filter fun x => wanted (names ++ x.1, x.2)).map
        fun x => pathTo base (names ++ x.1) := by
  have hbelow : ∀ x ∈ t.below (base.placeFrom t.here), liesBelow t p (pathTo base x.1) =
      (names.isPrefixOf x.1 && x.1 != names) := by
    intro x hx
    have hnames : ∀ n ∈ x.1, Path.IsName n := fun n hn =>
      hw.named (mem_below.1 hx).2 n (List.mem_append_right _ hn)
    rw [liesBelow, Path.placeFrom_pathTo t.here base hnames, hp.placeFrom_eq]
    apply Bool.eq_iff_iff.2
    simp [List.isPrefixOf_iff_prefix, List.prefix_append_right_inj]
  have hcomm : ((t.below (base.placeFrom t.here)).filter wanted).filter
        (liesBelow t p ∘ fun x => pathTo base x.1) =
      ((t.below (base.placeFrom t.here)).filter fun x =>
        names.isPrefixOf x.1 && x.1 != names).filter wanted := by
    rw [List.filter_filter, List.filter_filter]
    apply List.filter_congr
    intro x hx
    rw [Function.comp, hbelow x hx, Bool.and_comm]
  rw [List.filter_map, hcomm, ← below_append, List.filter_map, List.map_map, ← hp.placeFrom_eq]
  rfl

theorem stands_pathTo (hl : t.LinkFree) (hbase : base.components ≠ []) {layout : Layout}
    (hpatterns : layout.patterns = base) (templates : Path) {ns : List Text} {e : Entry}
    (hns : (ns, e) ∈ t.below (p.placeFrom t.here)) :
    Stands t layout { layout with templates } (pathTo p ns) (pathTo base (names ++ ns)) := by
  obtain ⟨hne, hget⟩ := mem_below.1 hns
  have hrest : ∀ n ∈ ns, Path.IsName n :=
    fun n hn => hw.named hget n (List.mem_append_right _ hn)
  have hall : ∀ n ∈ names ++ ns, Path.IsName n :=
    fun n hn => (List.mem_append.1 hn).elim (hp.named n) (hrest n)
  have hnil : names ++ ns ≠ [] := List.append_ne_nil_of_right_ne_nil names hne
  have hcomponents :
      (pathTo q (names ++ ns)).components = (pathTo base (names ++ ns)).components := by
    rw [Path.components_pathTo q hall, Path.components_pathTo base hall, hp.spelled]
  rw [hp.pathTo_eq hne hrest]
  have hroute (dir ext : Text) :
      { route.routeOf { layout with templates } (pathTo base (names ++ ns)) dir ext with
        descriptor := pathTo q (names ++ ns) } =
      route.routeOf layout (pathTo q (names ++ ns)) dir ext := by
    have hid : Route.idOf (pathTo q (names ++ ns)) base =
        Route.idOf (pathTo base (names ++ ns)) base := by
      rw [Route.idOf, Route.idOf, Path.below?_pathTo hp.spelled hbase hall,
        Path.below?_pathTo rfl hbase hall]
      rfl
    have hname : (pathTo q (names ++ ns)).fileName? = (pathTo base (names ++ ns)).fileName? := by
      rw [Path.fileName?, Path.fileName?, hcomponents]
    simp only [route.routeOf, Route.destinationOf, hpatterns, hid, hname]
  refine ⟨hcomponents, hroute, fun hx hy => toOption_route_of_status hroute ?_⟩
  apply toOption_eq_of_iff
  intro r
  rw [status_pathTo_iff hl hw hnil hall, status_pathTo_iff hl hw hnil hall, hx, hy,
    opens_congr hp.spelled, Path.placeFrom_congr hp.spelled]

end

/-- Setting a directory for descriptors that is spelled by names keeps of the run what is below the
directory, where no directory there has a path that is refused in one of the runs only. -/
theorem forall₂_stands_discover {t : Tree} (hl : t.LinkFree) (hw : t.WellFormed) {c : Config}
    {templates : Path} (hset : c.templates = some templates) {q : Path} {names : List Text}
    (hplain : (c.rootPath / templates).DescendsBy (c.rootPath / c.patterns) q names)
    (hnarrow : (c.rootPath / templates).Usable) (hwhole : (c.rootPath / c.patterns).Usable)
    (halike : t.RefusedAlike (c.rootPath / templates) (pathTo (c.rootPath / c.patterns) names)) :
    List.Forall₂ (Stands t c.layout c.whole.layout) (discover t c.layout)
      ((discover t c.whole.layout).filter (liesBelow t (c.rootPath / templates))) := by
  have htemplates : c.layout.templates = c.rootPath / templates := by
    rw [Config.layout, hset]
    rfl
  by_cases hopen : t.Opens (c.rootPath / c.patterns)
  · have hrun : discover t c.whole.layout =
        ((t.listedBelow (c.rootPath / c.patterns)
          ((c.rootPath / c.patterns).placeFrom t.here)).filter isWanted).map
            fun x => pathTo (c.rootPath / c.patterns) x.1 := discover_of_opens hl hwhole.fault hopen
    rw [hrun, listedBelow, List.filter_filter, filter_liesBelow hw hplain]
    by_cases hinner : t.Opens (c.rootPath / templates)
    · rw [discover_of_opens hl (htemplates ▸ hnarrow.fault) (htemplates ▸ hinner), htemplates,
        filter_listed hw halike, List.forall₂_map_left_iff, List.forall₂_map_right_iff,
        List.forall₂_same]
      intro x hx
      have hpatterns : c.layout.patterns = c.rootPath / c.patterns := rfl
      exact stands_pathTo hw hplain hl hwhole.components_ne_nil hpatterns _ (List.mem_filter.1 hx).1
    · have hnone : t.get? ((c.rootPath / templates).placeFrom t.here) ≠ some .directory :=
        fun hdir => hinner ((hplain.opens_iff hw hnarrow).2 ⟨hopen, hdir⟩)
      rw [discover_eq_nil hl (htemplates ▸ hinner), below_eq_nil hw hnone]
      exact .nil
  · have hinner : ¬ t.Opens c.layout.templates := fun h =>
      hopen ((hplain.opens_iff hw hnarrow).1 (htemplates ▸ h)).1
    have hrun : discover t c.whole.layout = [] := discover_eq_nil hl hopen
    rw [discover_eq_nil hl hinner, hrun]
    exact .nil

def nestedPatterns : Tree where
  entries := [(["elsewhere"], .directory),
    (["elsewhere", "y.yml"], .file (.text "tpl_compile_dir: v\ntpl_compile_ext: hbs\n")),
    (["source"], .directory), (["source", "_patterns"], .directory),
    (["source", "_patterns", "a"], .directory), (["source", "_patterns", "a", "b"], .directory),
    (["source", "_patterns", "a", "b", "x.yml"],
      .file (.text "tpl_compile_dir: v\ntpl_compile_ext: hbs\n")),
    (["source", "_patterns", "z.yml"], .file (.text "tpl_compile_dir: v\ntpl_compile_ext: hbs\n"))]
  sorted := by decide
  here := []

def searching (templates : Text) : Config := { templates := some ⟨templates⟩ }

theorem forall₂_stands_nested :
    let c := searching "source/_patterns/a/b/"
    discover nestedPatterns c.layout = [⟨"./source/_patterns/a/b/x.yml"⟩] ∧
    List.Forall₂ (Stands nestedPatterns c.layout c.whole.layout) (discover nestedPatterns c.layout)
      ((discover nestedPatterns c.whole.layout).filter
        (liesBelow nestedPatterns (c.rootPath / ⟨"source/_patterns/a/b/"⟩))) := by
  intro c
  have hl : nestedPatterns.LinkFree := by decide
  have hw : nestedPatterns.WellFormed := by decide +kernel
  have hplain : (c.rootPath / ⟨"source/_patterns/a/b/"⟩).DescendsBy (c.rootPath / c.patterns)
      ⟨"./source/_patterns"⟩ ["a".toList, "b".toList] := ⟨rfl, by decide, .inr ⟨by decide, rfl⟩⟩
  have hnarrow : (c.rootPath / ⟨"source/_patterns/a/b/"⟩).Usable := ⟨by decide, by decide⟩
  have hwhole : (c.rootPath / c.patterns).Usable := ⟨by decide, by decide⟩
  have halike : nestedPatterns.RefusedAlike (c.rootPath / ⟨"source/_patterns/a/b/"⟩)
      (pathTo (c.rootPath / c.patterns) ["a".toList, "b".toList]) :=
    forall_directory_of_below (by decide +kernel) (by decide +kernel)
  exact ⟨by decide +kernel, forall₂_stands_discover hl hw rfl hplain hnarrow hwhole halike⟩

/-- A doubled slash ends up in the id, and steps up lead out of the patterns. -/
theorem spelling_changes_run :
    let doubled := searching "source/_patterns/a//b"
    let outside := searching "source/_patterns/../../elsewhere"
    doubled.defect? = none ∧ outside.defect? = none ∧
    nestedPatterns.LinkFree ∧ nestedPatterns.WellFormed ∧
    discover nestedPatterns doubled.layout = [⟨"./source/_patterns/a//b/x.yml"⟩] ∧
    (discover nestedPatterns doubled.whole.layout).filter
      (liesBelow nestedPatterns doubled.layout.templates) = [⟨"./source/_patterns/a/b/x.yml"⟩] ∧
    (route nestedPatterns doubled.layout ⟨"./source/_patterns/a//b/x.yml"⟩).toOption =
      some (some {
        descriptor := ⟨"./source/_patterns/a//b/x.yml"⟩
        patternId := "a--b-x"
        markup := ⟨"./public/patterns/a--b-x/a--b-x.markup-only.html"⟩
        destination := ⟨"./backend/v/x.hbs"⟩ }) ∧
    (route nestedPatterns doubled.whole.layout ⟨"./source/_patterns/a/b/x.yml"⟩).toOption =
      some (some {
        descriptor := ⟨"./source/_patterns/a/b/x.yml"⟩
        patternId := "a-b-x"
        markup := ⟨"./public/patterns/a-b-x/a-b-x.markup-only.html"⟩
        destination := ⟨"./backend/v/x.hbs"⟩ }) ∧
    discover nestedPatterns outside.layout = [⟨"./source/_patterns/../../elsewhere/y.yml"⟩] ∧
    (discover nestedPatterns outside.whole.layout).filter
      (liesBelow nestedPatterns outside.layout.templates) = [] := by
  decide +kernel

end Compile
end PatternBridge
