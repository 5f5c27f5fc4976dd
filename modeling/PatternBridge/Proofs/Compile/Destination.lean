import Mathlib.Data.List.Basic
import PatternBridge.Proofs.Files.Resolved
import PatternBridge.Route

/-! Where compiled files go. The directory and the extension of a descriptor are put behind the
backend root as they are written, so a destination stays inside every root exactly if what a route
puts behind it does not climb. -/

namespace PatternBridge

theorem Text.append_of_dropSuffix? {b a s : Text} (h : dropSuffix? b a = some s) : a = s ++ b := by
  obtain ⟨r, hr, rfl⟩ := Option.map_eq_some_iff.1 h
  have hrev := congrArg List.reverse (List.append_eq_of_isPrefixOf?_eq_some hr).symm
  rwa [List.reverse_reverse, List.reverse_append, List.reverse_reverse] at hrev

namespace Descriptor

theorem stem_prefix (name : Text) : stem name <+: name := by
  unfold stem
  cases hs : suffixes.findSome? fun s => Text.dropSuffix? s name with
  | none => exact List.prefix_rfl
  | some stem =>
    obtain ⟨suffix, -, hdrop⟩ := List.exists_of_findSome?_eq_some hs
    exact ⟨suffix, (Text.append_of_dropSuffix? hdrop).symm⟩

theorem routing?_eq_some {d : Descriptor} {dir ext : Text} (h : d.routing? = some (dir, ext)) :
    (Path.mk dir).isAbsolute = false ∧ ∃ c s, ext = '.' :: c :: s := by
  obtain ⟨_ | written, ext'⟩ := d
  · cases h
  unfold routing? at h
  change (if ((Text.trim written).dropWhile isSeparator).isEmpty then none else _) = _ at h
  split at h
  · cases h
  obtain ⟨given, -, h⟩ := Option.bind_eq_some_iff.1 h
  obtain ⟨e, he, heq⟩ := Option.bind_eq_some_iff.1 h
  obtain ⟨rfl, rfl⟩ := Prod.mk.inj (Option.some.inj heq)
  refine ⟨?_, Extension.exists_of_normalize? he⟩
  have hhead := List.head?_dropWhile_not isSeparator (Text.trim written)
  unfold Path.isAbsolute
  cases hdir : (Text.trim written).dropWhile isSeparator with
  | nil => rfl
  | cons c s =>
    rw [hdir] at hhead
    have hsep : isSeparator c = false := hhead
    have hc : c ≠ '/' := by
      rintro rfl
      exact absurd hsep (by decide)
    simpa using hc

end Descriptor

namespace Route

def compiledName (descriptor : Path) (ext : Text) : Text :=
  Descriptor.stem (descriptor.fileName?.getD []) ++ ext

def belowBackend (dir : Text) (descriptor : Path) (ext : Text) : Path :=
  ⟨dir⟩ / ⟨compiledName descriptor ext⟩

theorem noSlash_stem (descriptor : Path) :
    '/' ∉ Descriptor.stem (descriptor.fileName?.getD []) := by
  have hname : '/' ∉ descriptor.fileName?.getD [] := by
    cases hn : descriptor.fileName? with
    | none => simp
    | some n =>
      obtain ⟨q, -, hq⟩ := Path.parent?_of_fileName? hn
      exact (Path.isName_of_mem_components (p := descriptor) (by simp [hq])).noSlash
  exact fun h => hname ((Descriptor.stem_prefix _).subset h)

theorem isAbsolute_compiledName {ext : Text} (hext : ext.head? = some '.') (descriptor : Path) :
    (Path.mk (compiledName descriptor ext)).isAbsolute = false := by
  have hstem := noSlash_stem descriptor
  unfold Path.isAbsolute compiledName
  cases hs : Descriptor.stem (descriptor.fileName?.getD []) with
  | nil => simp [hext]
  | cons c s =>
    have hc : c ≠ '/' := fun hc => hstem (by simp [hs, hc])
    simpa using hc

section
variable {d : Descriptor} {dir ext : Text} (h : d.routing? = some (dir, ext)) (descriptor : Path)
include h

theorem isAbsolute_belowBackend : (belowBackend dir descriptor ext).isAbsolute = false := by
  obtain ⟨hdir, c, s, rfl⟩ := Descriptor.routing?_eq_some h
  rw [belowBackend, Path.isAbsolute_div _ (isAbsolute_compiledName rfl descriptor), hdir]

theorem resolved_destinationOf (backend : Path) :
    (destinationOf backend dir descriptor ext).resolved =
      (backend / belowBackend dir descriptor ext).resolved := by
  have hbelow := isAbsolute_belowBackend h descriptor
  obtain ⟨hdir, c, s, rfl⟩ := Descriptor.routing?_eq_some h
  have hdot : ('.' :: c :: s).head? = some '.' := rfl
  have hname := isAbsolute_compiledName hdot descriptor
  have hdest : destinationOf backend dir descriptor ('.' :: c :: s) =
      backend / ⟨dir⟩ / ⟨compiledName descriptor ('.' :: c :: s)⟩ := rfl
  rw [hdest, Path.resolved_div _ hname, Path.resolved_div _ hdir, Path.resolved_div _ hbelow,
    belowBackend, Path.trail_div _ hname, List.foldl_append]

end

section
variable {dir ext : Text} (hslash : '/' ∉ ext) (hext : ∃ c s, ext = '.' :: c :: s)
  (hne : ext ≠ ['.', '.']) (descriptor : Path)
include hslash hext hne

theorem isName_compiledName : Path.IsName (compiledName descriptor ext) := by
  have hstem := noSlash_stem descriptor
  unfold compiledName
  obtain ⟨c, s, rfl⟩ := hext
  cases hs : Descriptor.stem (descriptor.fileName?.getD []) with
  | nil => exact ⟨by simp, by simp, hne, hslash⟩
  | cons d stem =>
    rw [hs] at hstem
    refine ⟨by simp, by simp, fun hup => ?_, ?_⟩
    · have hlength := congrArg List.length hup
      simp at hlength
      omega
    · exact fun h => (List.mem_append.1 h).elim hstem hslash

theorem trail_belowBackend (hup : ['.', '.'] ∉ (Path.mk dir).segments) :
    ∃ names : List Text, names ≠ [] ∧
      (belowBackend dir descriptor ext).trail = names.map .name := by
  have hname := isName_compiledName hslash hext hne descriptor
  have htrail : (Path.mk (compiledName descriptor ext)).trail =
      [.name (compiledName descriptor ext)] := by
    rw [Path.trail, hname.segments, List.filterMap_cons, hname.ofSegment?]
    rfl
  refine ⟨((Path.mk dir).segments.filter fun s => !Path.isIdle s) ++ [compiledName descriptor ext],
    by simp, ?_⟩
  rw [belowBackend, Path.trail_div _ hname.isAbsolute, Path.trail_of_notMem hup, htrail,
    List.map_append]
  rfl

end

theorem destination_inside_backend {d : Descriptor} {dir ext : Text}
    (h : d.routing? = some (dir, ext)) (descriptor : Path) :
    ((∀ backend, (destinationOf backend dir descriptor ext).LiesInside backend) ↔
      (belowBackend dir descriptor ext).LiesInside ⟨"."⟩) ∧
    (['.', '.'] ∉ (Path.mk dir).segments → '/' ∉ ext → ext ≠ ['.', '.'] →
      ∀ backend, (destinationOf backend dir descriptor ext).LiesInside backend) := by
  have hrel := isAbsolute_belowBackend h descriptor
  have hiff : (∀ backend, (destinationOf backend dir descriptor ext).LiesInside backend) ↔
      (belowBackend dir descriptor ext).LiesInside ⟨"."⟩ := by
    rw [← Path.forall_liesInside_div_iff hrel]
    unfold Path.LiesInside
    simp only [resolved_destinationOf h]
  refine ⟨hiff, fun hup hslash hne => hiff.2 ?_⟩
  obtain ⟨names, hnames, htrail⟩ :=
    trail_belowBackend hslash (Descriptor.routing?_eq_some h).2 hne descriptor hup
  refine ⟨names, hnames, ?_⟩
  rw [Path.resolved_eq, hrel, htrail, Path.foldl_resolveInto_map_name]
  rfl

/-- White space and leading separators of both kinds, and an extension without its dot. -/
theorem homepage_inside_backend :
    Descriptor.routing? { dir := some " /\\views/home/ ".toList, ext := some "tpl.php".toList } =
        some ("views/home/".toList, ".tpl.php".toList) ∧
      ['.', '.'] ∉ (Path.mk "views/home/".toList).segments ∧
      (destinationOf ⟨"./backend"⟩ "views/home/" ⟨"./source/_patterns/home.yml"⟩
        ".tpl.php").LiesInside ⟨"./backend"⟩ :=
  have h : Descriptor.routing?
      { dir := some " /\\views/home/ ".toList, ext := some "tpl.php".toList } =
        some ("views/home/".toList, ".tpl.php".toList) := by decide
  have hup : ['.', '.'] ∉ (Path.mk "views/home/".toList).segments := by decide
  ⟨h, hup, (destination_inside_backend h _).2 hup (by decide) (by decide) _⟩

/-- A directory with `..` and an extension with a slash and `..` lead out of the backend root; an
extension that is a slash alone leads to the root itself. -/
theorem destination_leaves_backend :
    (Descriptor.routing? { dir := some "../out".toList, ext := some "hbs".toList } =
        some ("../out".toList, ".hbs".toList) ∧
      ¬ (destinationOf ⟨"./backend"⟩ "../out" ⟨"./source/_patterns/card.yml"⟩ ".hbs").LiesInside
        ⟨"./backend"⟩) ∧
    (Descriptor.routing? { dir := some "views".toList, ext := some "/../../../out".toList } =
        some ("views".toList, "./../../../out".toList) ∧
      ¬ (destinationOf ⟨"./backend"⟩ "views" ⟨"./source/_patterns/card.yml"⟩
        "./../../../out").LiesInside ⟨"./backend"⟩) ∧
    (Descriptor.routing? { dir := some ".".toList, ext := some "/".toList } =
        some (".".toList, "./".toList) ∧
      ¬ (destinationOf ⟨"./backend"⟩ "." ⟨"./source/_patterns/.yml"⟩ "./").LiesInside
        ⟨"./backend"⟩) := by
  refine ⟨⟨by decide, fun h => ?_⟩, ⟨by decide, fun h => ?_⟩, by decide, fun h => ?_⟩
  · exact absurd h.resolved_prefix.1 (by decide)
  · exact absurd h.resolved_prefix.1 (by decide)
  · exact absurd h.resolved_prefix.2 (by decide)

end Route

end PatternBridge
