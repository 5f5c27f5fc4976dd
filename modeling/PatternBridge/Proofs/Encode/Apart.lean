import PatternBridge.Proofs.Encode.Run
import PatternBridge.Proofs.Files.Collected

/-! The paths that a run writes, in any tree. No two of them are the same; and one of them is a
template of the same run exactly if the extension itself ends in that of an output and the name of
its template has what comes before that ending twice. -/

namespace PatternBridge.Encode
open PatternBridge.Path

structure Stemmed (ext : Text) (x : Path) (cs : List Component) (stem : Text) : Prop where
  source : x.components = cs ++ [.name (stem ++ ext)]
  noSlash : '/' ∉ stem

theorem exists_stemmed {t : Tree} (hw : t.WellFormed) {ext : Text} (hdot : ext.head? = some '.')
    {p x : Path} (hx : x ∈ t.filesEndingIn p ext) : ∃ cs stem, Stemmed ext x cs stem := by
  obtain ⟨cs, stem, hcs, -⟩ := Tree.components_of_mem_collected hw hdot hx
  have hname : IsName (stem ++ ext) := isName_of_mem_components (p := x) (by simp [hcs])
  exact ⟨cs, stem, hcs, fun h => hname.noSlash (List.mem_append_left _ h)⟩

namespace Stemmed
variable {ext : Text} {x : Path} {cs : List Component} {stem : Text}

theorem encoded (h : Stemmed ext x cs stem) :
    (outputs ext x).encoded.components = cs ++ [.name (stem ++ encodedExt)] :=
  components_replaceSuffix h.source (Path.isName_append h.noSlash (by decide) (by decide))

theorem sidecar (h : Stemmed ext x cs stem) :
    (outputs ext x).sidecar.components = cs ++ [.name (stem ++ sidecarExt)] :=
  components_replaceSuffix h.source (Path.isName_append h.noSlash (by decide) (by decide))

end Stemmed

theorem append_name_inj {cs ds : List Component} {a b : Text} :
    cs ++ [.name a] = ds ++ [.name b] ↔ cs = ds ∧ a = b := by
  constructor
  · intro h
    obtain ⟨hcs, hlast⟩ := List.append_inj' h rfl
    exact ⟨hcs, Component.name.inj (List.singleton_inj.1 hlast)⟩
  · rintro ⟨rfl, rfl⟩
    rfl

/-- The extension ends in that of an output, and `x` has the name of `y` with what comes before
that ending put in once more. -/
def Repeats (ending ext : Text) (x y : Path) : Prop :=
  ∃ cs stem front, ext = front ++ ending ∧ x.components = cs ++ [.name (stem ++ front ++ ext)] ∧
    y.components = cs ++ [.name (stem ++ ext)]

theorem ne_of_sourceExt {given : Option Text} {ext : Text} (h : sourceExt given = .ok ext) :
    ext ≠ encodedExt ∧ ext ≠ sidecarExt := by
  unfold sourceExt at h
  split at h
  · cases h
  · split at h
    · cases h
    · next hfree =>
      rw [← Except.ok.inj h]
      simpa using hfree

theorem exists_front {ext m stem stem' : Text} (hdot : ext.head? = some '.') (hm : '.' ∉ m)
    (hne : ext ≠ '.' :: m) (h : stem ++ '.' :: m = stem' ++ ext) :
    ∃ front, ext = front ++ '.' :: m ∧ stem = stem' ++ front := by
  have hsuffix : ext <:+ stem ++ '.' :: m := ⟨stem', h.symm⟩
  rcases List.suffix_or_suffix_of_suffix hsuffix (List.suffix_append stem _) with hshort | hlong
  · obtain ⟨r, rfl⟩ := List.head?_eq_some_iff.1 hdot
    have hr : r = m := Text.eq_of_dot_suffix (a := []) (by simp) hm hshort
    exact absurd (by rw [hr]) hne
  · obtain ⟨front, rfl⟩ := hlong
    rw [← List.append_assoc] at h
    exact ⟨front, rfl, List.append_cancel_right h⟩

theorem output_eq_source_iff {ending m ext : Text} {o x y : Path} {cs ds : List Component}
    {stem stem' : Text} (hdot : ext.head? = some '.') (hending : ending = '.' :: m) (hm : '.' ∉ m)
    (hne : ext ≠ ending) (ho : o.components = cs ++ [.name (stem ++ ending)])
    (hx : Stemmed ext x cs stem) (hy : Stemmed ext y ds stem') :
    o.components = y.components ↔ Repeats ending ext x y := by
  rw [ho, hy.source, append_name_inj]
  constructor
  · rintro ⟨rfl, heq⟩
    rw [hending] at heq hne
    obtain ⟨front, hext, rfl⟩ := exists_front hdot hm hne heq
    exact ⟨cs, stem', front, by rw [hending, hext], hx.source, hy.source⟩
  · rintro ⟨es, s, front, hext, hx', hy'⟩
    obtain ⟨rfl, hstem⟩ := append_name_inj.1 (hx.source.symm.trans hx')
    obtain ⟨rfl, hstem'⟩ := append_name_inj.1 (hy.source.symm.trans hy')
    have hstem : stem = s ++ front := List.append_cancel_right hstem
    refine ⟨rfl, ?_⟩
    rw [hstem', hstem, List.append_assoc, ← hext]

/-- The paths that a run over templates writes are distinct, and which of them are templates of the
same run. -/
structure OutputsApart (ext : Text) (sources : List Path) : Prop where
  distinct : (sources.flatMap fun x => [(outputs ext x).encoded, (outputs ext x).sidecar]).Pairwise
    fun a b => a.components ≠ b.components
  encoded_eq_source_iff : ∀ x ∈ sources, ∀ y ∈ sources,
    (outputs ext x).encoded.components = y.components ↔ Repeats encodedExt ext x y
  sidecar_eq_source_iff : ∀ x ∈ sources, ∀ y ∈ sources,
    (outputs ext x).sidecar.components = y.components ↔ Repeats sidecarExt ext x y

theorem outputs_distinct {ext : Text} {sources : List Path}
    (hstemmed : ∀ x ∈ sources, ∃ cs stem, Stemmed ext x cs stem)
    (hsources : sources.Pairwise fun x y => x.components ≠ y.components) :
    (sources.flatMap fun x => [(outputs ext x).encoded, (outputs ext x).sidecar]).Pairwise
      fun a b => a.components ≠ b.components := by
  rw [List.pairwise_flatMap]
  refine ⟨fun x hx => ?_, hsources.imp_of_mem ?_⟩
  · obtain ⟨cs, stem, hx⟩ := hstemmed x hx
    have hends : (outputs ext x).encoded.components ≠ (outputs ext x).sidecar.components := by
      rw [hx.encoded, hx.sidecar, Ne, append_name_inj]
      exact fun h => encoded_ne_sidecar stem stem h.2
    simpa using hends
  · intro x y hx hy hxy a ha b hb
    obtain ⟨cs, stem, hx⟩ := hstemmed x hx
    obtain ⟨ds, stem', hy⟩ := hstemmed y hy
    -- the same ending on both sides would make the templates the same
    have hstem {m : Text} : ¬ (cs = ds ∧ stem ++ m = stem' ++ m) := by
      rintro ⟨rfl, heq⟩
      rw [List.append_cancel_right heq] at hx
      exact hxy (hx.source.trans hy.source.symm)
    simp only [List.mem_cons, List.not_mem_nil, or_false] at ha hb
    rcases ha with rfl | rfl <;> rcases hb with rfl | rfl
    · rw [hx.encoded, hy.encoded, Ne, append_name_inj]
      exact hstem
    · rw [hx.encoded, hy.sidecar, Ne, append_name_inj]
      exact fun h => encoded_ne_sidecar stem stem' h.2
    · rw [hx.sidecar, hy.encoded, Ne, append_name_inj]
      exact fun h => encoded_ne_sidecar stem' stem h.2.symm
    · rw [hx.sidecar, hy.sidecar, Ne, append_name_inj]
      exact hstem

theorem outputs_apart {t : Tree} {given : Option Text} {ext : Text} (hw : t.WellFormed)
    (hext : sourceExt given = .ok ext) (p : Path) :
    OutputsApart ext (t.filesEndingIn p ext) := by
  have hdot := head?_of_sourceExt hext
  have hne := ne_of_sourceExt hext
  have hstemmed (x : Path) (hx : x ∈ t.filesEndingIn p ext) := exists_stemmed hw hdot hx
  refine ⟨outputs_distinct hstemmed (Tree.filesEndingIn_pairwise hw p ext), ?_, ?_⟩
  · intro x hx y hy
    obtain ⟨cs, stem, hx⟩ := hstemmed x hx
    obtain ⟨ds, stem', hy⟩ := hstemmed y hy
    exact output_eq_source_iff hdot rfl (m := "mustache") (by decide) hne.1 hx.encoded hx hy
  · intro x hx y hy
    obtain ⟨cs, stem, hx⟩ := hstemmed x hx
    obtain ⟨ds, stem', hy⟩ := hstemmed y hy
    exact output_eq_source_iff hdot rfl (m := "json") (by decide) hne.2 hx.sidecar hx hy

/-- A project of two templates, in which the sidecar of the first has the path of the second. -/
def repeated : Session where
  tree := {
    entries := [(["source"], .directory), (["source", "_patterns"], .directory),
      (["source", "_patterns", "b.a.a.json"], .file (.text "\x7b\x7bx\x7d\x7d")),
      (["source", "_patterns", "b.a.json"], .file (.text "\x7b\x7by\x7d\x7d"))]
    sorted := by decide
    here := [] }

theorem repeated_outputs_apart :
    OutputsApart ".a.json" (repeated.tree.filesEndingIn ({} : Config).layout.patterns ".a.json") :=
  outputs_apart (by decide) (show sourceExt (some "a.json".toList) = .ok ".a.json" by decide) _

/-- The extension is accepted, the second template is overwritten before it is read, and nothing of
its text is left. -/
theorem repeated_ending_overwrites :
    sourceExt (some "a.json".toList) = .ok ".a.json" ∧
    repeated.tree.filesEndingIn ({} : Config).layout.patterns ".a.json" =
      [⟨"./source/_patterns/b.a.a.json"⟩, ⟨"./source/_patterns/b.a.json"⟩] ∧
    (outputs ".a.json" ⟨"./source/_patterns/b.a.a.json"⟩).sidecar =
      ⟨"./source/_patterns/b.a.json"⟩ ∧
    let after := (run "hbs" (some "a.json".toList) ({} : Config).layout).outcome repeated
    after.1.toOption.isSome = true ∧
    after.2.tree.read ⟨"./source/_patterns/b.mustache"⟩ =
      .ok (Braces.encode Dialect.handlebars.sidecarText) ∧
    ∀ x ∈ after.2.tree.entries, x.2 ≠ .file (.text "\x7b\x7by\x7d\x7d") ∧
      x.2 ≠ .file (.text (Braces.encode "\x7b\x7by\x7d\x7d")) := by
  refine ⟨by decide, by decide +kernel, by decide +kernel, ?_⟩
  exact ⟨by decide +kernel, by decide +kernel, by decide +kernel⟩

end PatternBridge.Encode
