import Mathlib.Data.List.Forall2
import PatternBridge.Proofs.Compile.Destination
import PatternBridge.Proofs.Compile.Narrowing
import PatternBridge.Proofs.Files.Relocated

/-! The part that the project root has in a run. Every descriptor lies below the patterns, so that
its id is told by the path from there; and two roots with the same in them have the same descriptors
with the same ids, and all their paths differ in the root alone. -/

namespace PatternBridge

namespace Config
variable {c : Config}

structure IsLocal (c : Config) : Prop where
  patterns : c.patterns.IsLocal
  templates : ∀ p ∈ c.templates, p.IsLocal
  published : c.published.IsLocal
  backend : c.backend.IsLocal

def rootedAt (c : Config) (root : Option Path) : Config := { c with root }

def searched (c : Config) : Path := c.templates.getD c.patterns

theorem IsLocal.searched (h : c.IsLocal) : c.searched.IsLocal := by
  unfold Config.searched
  cases ht : c.templates with
  | none => exact h.patterns
  | some p => exact h.templates p ht

theorem IsLocal.rootedAt (h : c.IsLocal) (root : Option Path) : (c.rootedAt root).IsLocal :=
  ⟨h.patterns, h.templates, h.published, h.backend⟩

theorem isLocal_default : ({} : Config).IsLocal :=
  ⟨⟨by decide, by decide⟩, nofun, ⟨by decide, by decide⟩, ⟨by decide, by decide⟩⟩

theorem patterns_ne_nil (h : c.defect? = none) : c.patterns.text ≠ [] := by
  unfold defect? at h
  split at h
  · cases h
  · next hnone =>
    have hpatterns := List.find?_eq_none.1 hnone ("paths.patterns", c.patterns) (by simp [required])
    simpa using hpatterns

theorem startsWith_searched (h : c.defect? = none) :
    (c.rootPath / c.searched).startsWith (c.rootPath / c.patterns) := by
  unfold defect? at h
  split at h
  · cases h
  split at h
  · cases h
  · next hinside =>
    unfold searched
    cases ht : c.templates with
    | none => exact List.isPrefixOf_iff_prefix.2 List.prefix_rfl
    | some p =>
      rw [ht] at hinside
      simpa [Option.filter, templatesInside] using hinside

end Config

def Path.BehindBoth (root root' x y : Path) : Prop :=
  ∃ p : Path, p.isAbsolute = false ∧ x = root / p ∧ y = root' / p

structure Route.DifferInRoot (root root' : Path) (r r' : Route) : Prop where
  descriptor : Path.BehindBoth root root' r.descriptor r'.descriptor
  patternId : r.patternId = r'.patternId
  markup : Path.BehindBoth root root' r.markup r'.markup
  destination : Path.BehindBoth root root' r.destination r'.destination

namespace Compile
open PatternBridge.Tree

/-- Descriptors whose routes differ in the root alone. -/
structure DifferInRoot (t u : Tree) (layout layout' : Layout) (x y : Path) : Prop where
  spelled : Path.BehindBoth layout.root layout'.root x y
  id : Route.idOf x layout.patterns = Route.idOf y layout'.patterns
  routes : ∀ (d : Descriptor) dir ext, d.routing? = some (dir, ext) →
    Route.DifferInRoot layout.root layout'.root (route.routeOf layout x dir ext)
      (route.routeOf layout' y dir ext)
  /-- Too long a root can still keep a descriptor from being read. -/
  loaded : (pathFault? x = none ↔ pathFault? y = none) →
    Option.Rel (Option.Rel (Route.DifferInRoot layout.root layout'.root))
      (route t layout x).toOption (route u layout' y).toOption

section
variable {t : Tree} {c : Config}

theorem startsWith_of_mem_discover (hw : t.WellFormed) (hc : c.defect? = none) {x : Path}
    (hx : x ∈ discover t c.layout) : x.startsWith c.layout.patterns := by
  obtain ⟨f, hf, rfl⟩ := List.mem_map.1 hx
  obtain ⟨cs, hcs⟩ := components_of_mem_foundBelow hw (List.mem_of_mem_filter hf)
  rw [List.append_assoc] at hcs
  exact Path.startsWith_of_components (Config.startsWith_searched hc) hcs

end

theorem discover_of_fault {t : Tree} {layout : Layout} (h : pathFault? layout.templates ≠ none) :
    discover t layout = [] := by
  obtain ⟨f, hf⟩ := Option.ne_none_iff_exists'.1 h
  have hstatus : t.status layout.templates = .error f := by
    rw [status, locate, hf]
    rfl
  rw [discover, entriesEndingIn, foundBelow, hstatus]
  rfl

theorem listedBelow_eq {t u : Tree} {p q : Path} (hw : t.WellFormed) (halike : t.RefusedAlike p q)
    (hbelow : t.below (p.placeFrom t.here) = u.below (q.placeFrom u.here)) :
    t.listedBelow p (p.placeFrom t.here) = u.listedBelow q (q.placeFrom u.here) := by
  rw [listedBelow, listedBelow, ← hbelow]
  exact List.filter_congr fun x hx => halike.isListed_eq hw hx

theorem idOf_join {root root' p base : Path} (hp : p.isAbsolute = false)
    (hbase : base.isAbsolute = false) (hne : base.text ≠ [])
    (h : (root / p).startsWith (root / base)) (h' : (root' / p).startsWith (root' / base)) :
    Route.idOf (root / p) (root / base) = Route.idOf (root' / p) (root' / base) := by
  rw [Route.idOf, Route.idOf, Path.below?_join root hp hbase hne h,
    Path.below?_join root' hp hbase hne h']
  rfl

section
variable {c : Config} {root : Option Path} (hlocal : c.IsLocal)
include hlocal

theorem differInRoot_routeOf {x y : Path}
    (hspelled : Path.BehindBoth c.rootPath (c.rootedAt root).rootPath x y)
    (hid : Route.idOf x c.layout.patterns = Route.idOf y (c.rootedAt root).layout.patterns)
    (hname : x.fileName? = y.fileName?) {d : Descriptor} {dir ext : Text}
    (hd : d.routing? = some (dir, ext)) :
    Route.DifferInRoot c.rootPath (c.rootedAt root).rootPath (route.routeOf c.layout x dir ext)
      (route.routeOf (c.rootedAt root).layout y dir ext) := by
  have hmarkup : (Route.markupOf c.published (Route.idOf x c.layout.patterns)).isAbsolute = false := by
    have hslash := Route.noSlash_idOf x c.layout.patterns
    have hsuffix : '/' ∉ Route.idOf x c.layout.patterns ++ Route.markupSuffix := by
      rw [List.mem_append, not_or]
      exact ⟨hslash, by decide⟩
    rw [Route.markupOf, Path.isAbsolute_div _ (Path.isAbsolute_of_noSlash hsuffix),
      Path.isAbsolute_div _ (Path.isAbsolute_of_noSlash hslash), hlocal.published.relative]
  have hdestination : (c.backend / Route.belowBackend dir x ext).isAbsolute = false := by
    rw [Path.isAbsolute_div _ (Route.isAbsolute_belowBackend hd x), hlocal.backend.relative]
  refine ⟨hspelled, hid, ⟨_, hmarkup, ?_, ?_⟩, ⟨_, hdestination, ?_, ?_⟩⟩
  · simp only [route.routeOf, Route.markupOf, Config.layout, Path.join_assoc]
  · simp only [route.routeOf, Route.markupOf, hid]
    simp only [Config.layout, Config.rootedAt, Path.join_assoc]
  · simp only [route.routeOf, Route.destinationOf, Route.belowBackend, Route.compiledName,
      Config.layout, Path.join_assoc]
  · simp only [route.routeOf, Route.destinationOf, Route.belowBackend, Route.compiledName,
      Config.layout, Config.rootedAt, hname, Path.join_assoc]

variable {t u : Tree} (hl : t.LinkFree) (hlu : u.LinkFree) (hw : t.WellFormed)
  (hwu : u.WellFormed) (hc : c.defect? = none) (hc' : (c.rootedAt root).defect? = none)
  (hsame : HoldSame t u c.rootPath (c.rootedAt root).rootPath)
include hl hlu hw hwu hc hc' hsame

theorem differInRoot_pathTo (hopens : t.Opens c.layout.templates) {names : List Text}
    (hne : names ≠ []) (hnames : ∀ n ∈ names, Path.IsName n) :
    DifferInRoot t u c.layout (c.rootedAt root).layout (pathTo c.layout.templates names)
      (pathTo (c.rootedAt root).layout.templates names) := by
  have hsearched := hlocal.searched
  have hrelative : (pathTo c.searched names).isAbsolute = false := by
    rw [Path.isAbsolute_pathTo _ hnames, hsearched.relative]
  have hx : pathTo c.layout.templates names = c.rootPath / pathTo c.searched names :=
    Path.pathTo_join c.rootPath c.searched names
  have hy : pathTo (c.rootedAt root).layout.templates names =
      (c.rootedAt root).rootPath / pathTo c.searched names :=
    Path.pathTo_join (c.rootedAt root).rootPath c.searched names
  have hstarts {c : Config} (hc : c.defect? = none) :
      (pathTo (c.rootPath / c.searched) names).startsWith (c.rootPath / c.patterns) :=
    Path.startsWith_of_components (Config.startsWith_searched hc) (Path.components_pathTo _ hnames)
  have hspelled : Path.BehindBoth c.rootPath (c.rootedAt root).rootPath
      (pathTo c.layout.templates names) (pathTo (c.rootedAt root).layout.templates names) :=
    ⟨_, hrelative, hx, hy⟩
  have hid : Route.idOf (pathTo c.layout.templates names) c.layout.patterns =
      Route.idOf (pathTo (c.rootedAt root).layout.templates names)
        (c.rootedAt root).layout.patterns := by
    have hstart := hstarts hc
    have hstart' := hstarts hc'
    rw [Path.pathTo_join] at hstart hstart'
    rw [hx, hy]
    exact idOf_join hrelative hlocal.patterns.relative (Config.patterns_ne_nil hc) hstart hstart'
  have hname : (pathTo c.layout.templates names).fileName? =
      (pathTo (c.rootedAt root).layout.templates names).fileName? := by
    rw [Path.fileName?_pathTo _ hne hnames, Path.fileName?_pathTo _ hne hnames]
  have hroutes (d : Descriptor) (dir ext : Text) (hd : d.routing? = some (dir, ext)) :=
    differInRoot_routeOf hlocal hspelled hid hname hd
  refine ⟨hspelled, hid, hroutes, fun hfault => rel_route ?_ hroutes⟩
  exact (hsame.join hw hwu hsearched hopens).entry?_eq hl hlu hw hwu hne hnames hfault

theorem forall₂_differInRoot
    (halike : t.RefusedAlike c.layout.templates (c.rootedAt root).layout.templates) :
    List.Forall₂ (DifferInRoot t u c.layout (c.rootedAt root).layout) (discover t c.layout)
      (discover u (c.rootedAt root).layout) := by
  by_cases hopens : t.Opens c.layout.templates
  · have hinner := hsame.join hw hwu hlocal.searched hopens
    have hfault : pathFault? c.layout.templates = none ↔
        pathFault? (c.rootedAt root).layout.templates = none := by
      apply halike []
      rw [List.append_nil]
      exact (Leads.get?_eq hw hopens (hw.start _)).symm
    by_cases htaken : pathFault? c.layout.templates = none
    · rw [discover_of_opens hl htaken hopens, discover_of_opens hlu (hfault.1 htaken) hinner.opens',
        listedBelow_eq hw halike hinner.below, List.forall₂_map_left_iff,
        List.forall₂_map_right_iff, List.forall₂_same]
      intro x hx
      rw [← listedBelow_eq hw halike hinner.below] at hx
      obtain ⟨⟨hne, hget⟩, -⟩ := mem_listedBelow.1 (List.mem_of_mem_filter hx)
      exact differInRoot_pathTo hlocal hl hlu hw hwu hc hc' hsame hopens hne fun n hn =>
        hw.named hget n (List.mem_append_right _ hn)
    · rw [discover_of_fault htaken, discover_of_fault (mt hfault.2 htaken)]
      exact .nil
  · have hinner : ¬ u.Opens (c.rootedAt root).layout.templates :=
      mt (hsame.opens_join hw hwu hlocal.searched).2 hopens
    rw [discover_eq_nil hl hopens, discover_eq_nil hlu hinner]
    exact .nil

end

/-- Whatever the root, each descriptor that is found lies below the patterns, and its id is in one
piece. Two roots with the same in them have the same descriptors with the same ids, and the paths of
their routes differ in the root alone, where no directory has a path that is refused behind one root
only: a root may be too long for what is behind it. -/
theorem discover_differs_in_root {t : Tree} (hl : t.LinkFree) (hw : t.WellFormed) {c : Config}
    (hlocal : c.IsLocal) (hc : c.defect? = none) :
    (∀ x ∈ discover t c.layout, x.startsWith c.layout.patterns ∧
      (∃ rest, x.below? c.layout.patterns = some rest) ∧
      ∀ ch ∈ Route.idOf x c.layout.patterns, ch ≠ '/' ∧ ch ≠ '\\' ∧ ch ≠ '~') ∧
    ∀ (u : Tree) (root : Option Path), u.LinkFree → u.WellFormed →
      (c.rootedAt root).defect? = none →
      HoldSame t u c.rootPath (c.rootedAt root).rootPath →
      t.RefusedAlike c.layout.templates (c.rootedAt root).layout.templates →
      List.Forall₂ (DifferInRoot t u c.layout (c.rootedAt root).layout) (discover t c.layout)
        (discover u (c.rootedAt root).layout) := by
  refine ⟨fun x hx => ?_, fun u root hlu hwu hc' hsame halike =>
    forall₂_differInRoot hlocal hl hlu hw hwu hc hc' hsame halike⟩
  have hstarts := startsWith_of_mem_discover hw hc hx
  refine ⟨hstarts, ?_, fun _ => Route.ne_of_mem_idOf⟩
  unfold Path.below?
  rw [if_pos hstarts]
  dsimp only
  split <;> exact ⟨_, rfl⟩

def twoProjects : Tree where
  entries := [(["one"], .directory), (["one", "source"], .directory),
    (["one", "source", "_patterns"], .directory), (["one", "source", "_patterns", "a"], .directory),
    (["one", "source", "_patterns", "a", "x~y.yml"],
      .file (.text "tpl_compile_dir: v\ntpl_compile_ext: hbs\n")),
    (["two"], .directory), (["two", "deep"], .directory), (["two", "deep", "source"], .directory),
    (["two", "deep", "source", "_patterns"], .directory),
    (["two", "deep", "source", "_patterns", "a"], .directory),
    (["two", "deep", "source", "_patterns", "a", "x~y.yml"],
      .file (.text "tpl_compile_dir: v\ntpl_compile_ext: hbs\n"))]
  sorted := by decide
  here := []

theorem discover_differs_in_root_spelled :
    let c := Config.rootedAt {} (some ⟨"one"⟩)
    let other := c.rootedAt (some ⟨"./two//deep/"⟩)
    twoProjects.LinkFree ∧ twoProjects.WellFormed ∧ c.IsLocal ∧ c.defect? = none ∧
    discover twoProjects c.layout = [⟨"one/source/_patterns/a/x~y.yml"⟩] ∧
    discover twoProjects other.layout = [⟨"./two//deep/source/_patterns/a/x~y.yml"⟩] ∧
    Route.idOf ⟨"./two//deep/source/_patterns/a/x~y.yml"⟩ other.layout.patterns = "a-x-y" ∧
    List.Forall₂ (DifferInRoot twoProjects twoProjects c.layout other.layout)
      (discover twoProjects c.layout) (discover twoProjects other.layout) := by
  intro c other
  have hl : twoProjects.LinkFree := by decide
  have hw : twoProjects.WellFormed := by decide +kernel
  have hlocal : c.IsLocal := Config.isLocal_default.rootedAt _
  have hc : c.defect? = none := by decide +kernel
  have hone : twoProjects.status ⟨"one"⟩ = .ok (["one".toList], .directory) := by decide +kernel
  have htwo : twoProjects.status ⟨"./two//deep/"⟩ = .ok (["two".toList, "deep".toList], .directory) := by
    decide +kernel
  have hsame : HoldSame twoProjects twoProjects c.rootPath other.rootPath :=
    ⟨opens_of_status hl hone, opens_of_status hl htwo, by decide +kernel⟩
  have halike : twoProjects.RefusedAlike c.layout.templates other.layout.templates :=
    forall_directory_of_below (by decide +kernel) (by decide +kernel)
  obtain ⟨-, hroots⟩ := discover_differs_in_root hl hw hlocal hc
  exact ⟨hl, hw, hlocal, hc, by decide +kernel, by decide +kernel, by decide +kernel,
    hroots twoProjects _ hl hw (by decide +kernel) hsame halike⟩

def longRoot : Path := ⟨(List.replicate 2045 "./".toList).flatten⟩

theorem long_root_hides_descriptors :
    let c : Config := {}
    let other := c.rootedAt (some longRoot)
    nestedPatterns.LinkFree ∧ nestedPatterns.WellFormed ∧ c.IsLocal ∧ c.defect? = none ∧
    other.defect? = none ∧
    HoldSame nestedPatterns nestedPatterns c.rootPath other.rootPath ∧
    pathFault? longRoot = none ∧
    discover nestedPatterns c.layout =
      [⟨"./source/_patterns/a/b/x.yml"⟩, ⟨"./source/_patterns/z.yml"⟩] ∧
    discover nestedPatterns other.layout = [] := by
  intro c other
  have hl : nestedPatterns.LinkFree := by decide
  have hroot : nestedPatterns.status ⟨"./"⟩ = .ok ([], .directory) := by decide +kernel
  have hcomponents : longRoot.components = (⟨"./"⟩ : Path).components := by decide +kernel
  have hopens : nestedPatterns.Opens ⟨"./"⟩ := opens_of_status hl hroot
  have hsame : HoldSame nestedPatterns nestedPatterns c.rootPath other.rootPath :=
    ⟨hopens, (opens_congr hcomponents).2 hopens,
      congrArg nestedPatterns.below (Path.placeFrom_congr hcomponents.symm)⟩
  exact ⟨hl, by decide +kernel, Config.isLocal_default, by decide +kernel, by decide +kernel, hsame,
    by decide +kernel, by decide +kernel, by decide +kernel⟩

end Compile
end PatternBridge
