import PatternBridge.Encode
import PatternBridge.Proofs.Files.Found

/-! Where a template and the files that take its place lie: beside each other, under one stem. The
extension of templates decides that no two of these files are the same. -/

namespace PatternBridge

namespace Encode

structure Site (here : Place) (ext : Text) (f : EncodedFile) (dir : Place) (stem : Text) :
    Prop where
  source : f.source.placeFrom here = dir ++ [stem ++ ext]
  encoded : f.encoded.placeFrom here = dir ++ [stem ++ encodedExt]
  sidecar : f.sidecar.placeFrom here = dir ++ [stem ++ sidecarExt]

theorem components_replaceSuffix {p : Path} {cs : List Path.Component} {stem ext replacement : Text}
    (hp : p.components = cs ++ [.name (stem ++ ext)]) (hname : Path.IsName (stem ++ replacement)) :
    (p.replaceSuffix ext replacement).components = cs ++ [.name (stem ++ replacement)] := by
  rw [Path.replaceSuffix, Path.fileName?_of_components hp, Option.getD_some,
    Text.dropSuffix?_append, Option.getD_some]
  exact Path.components_withFileName hp hname

theorem placeFrom_replaceSuffix (here : Place) {p : Path} {cs : List Path.Component}
    {stem ext replacement : Text} (hp : p.components = cs ++ [.name (stem ++ ext)])
    (hname : Path.IsName (stem ++ replacement)) :
    (p.replaceSuffix ext replacement).placeFrom here =
      cs.foldl Path.Component.move here ++ [stem ++ replacement] :=
  Path.placeFrom_of_components here (components_replaceSuffix hp hname)

theorem site_of_components (here : Place) {x : Path} {cs : List Path.Component} {stem ext : Text}
    (h : x.components = cs ++ [.name (stem ++ ext)]) (hstem : '/' ∉ stem) :
    Site here ext (outputs ext x) (cs.foldl Path.Component.move here) stem where
  source := Path.placeFrom_of_components here h
  encoded := placeFrom_replaceSuffix here h (Path.isName_append hstem (by decide) (by decide))
  sidecar := placeFrom_replaceSuffix here h (Path.isName_append hstem (by decide) (by decide))

/-- An extension by which templates are told from all that a run writes. -/
structure TemplateExt (ext : Text) : Prop where
  dot : ext.head? = some '.'
  notEncoded : Text.endsWith ext encodedExt = false
  notSidecar : Text.endsWith ext sidecarExt = false

theorem head?_of_sourceExt {given : Option Text} {ext : Text} (h : sourceExt given = .ok ext) :
    ext.head? = some '.' := by
  unfold sourceExt at h
  split at h
  · cases h
  · next e he =>
    split at h
    · cases h
    · obtain ⟨s, -, hs⟩ := Option.bind_eq_some_iff.1 he
      obtain ⟨c, e', heq⟩ := Extension.exists_of_normalize? hs
      rw [← Except.ok.inj h, heq]
      rfl

namespace TemplateExt
variable {ext : Text}

theorem ne_encoded (h : TemplateExt ext) (stem stem' : Text) :
    stem ++ ext ≠ stem' ++ encodedExt :=
  Text.append_ne_of_endsWith h.dot (by decide) h.notEncoded stem stem'

theorem ne_sidecar (h : TemplateExt ext) (stem stem' : Text) :
    stem ++ ext ≠ stem' ++ sidecarExt :=
  Text.append_ne_of_endsWith h.dot (by decide) h.notSidecar stem stem'

theorem ne_dataFileName (h : TemplateExt ext) (stem : Text) : stem ++ ext ≠ Config.dataFileName :=
  h.ne_sidecar stem "_data"

end TemplateExt

theorem encoded_ne_sidecar (stem stem' : Text) : stem ++ encodedExt ≠ stem' ++ sidecarExt := by
  intro h
  have hlast := congrArg List.getLast? h
  rw [List.getLast?_append, List.getLast?_append] at hlast
  have hchar : some 'e' = some 'n' := hlast
  exact absurd hchar (by decide)

end Encode
end PatternBridge
