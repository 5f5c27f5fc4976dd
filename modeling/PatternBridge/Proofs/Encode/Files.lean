import PatternBridge.Proofs.Encode.File
import PatternBridge.Proofs.Encode.Site

/-! Encoding one template after the other. What one template's run changes is nothing that another
one's run reads or writes, so what each has done is still there after the last. -/

namespace PatternBridge.Encode
open PatternBridge.Tree

/-- How a run over templates goes on: it ends, fails at a template, or encodes one and goes on. -/
inductive FilesRun (d : Dialect) (ext : Text) (root : Path) :
    Session → List Path → List EncodedFile × Option EncodeFault → Session → Prop where
  | ended (s : Session) : FilesRun d ext root s [] ([], none) s
  | failed {s s' : Session} {x : Path} {f : EncodeFault} (xs : List Path)
      (hfile : FileRun d ext root x s (.error f) s') :
      FilesRun d ext root s (x :: xs) ([], some f) s'
  | encoded {s m s' : Session} {x : Path} {xs : List Path} {file : EncodedFile}
      {r : List EncodedFile × Option EncodeFault} (hfile : FileRun d ext root x s (.ok file) m)
      (hrest : FilesRun d ext root m xs r s') :
      FilesRun d ext root s (x :: xs) (file :: r.1, r.2) s'

theorem filesRun_encodeFiles {d : Dialect} (hd : ∀ c, d.decode (d.encode c) = c) (ext : Text)
    (root : Path) (sources : List Path) (s : Session) :
    FilesRun d ext root s sources ((encodeFiles d ext root sources).run s).1
      ((encodeFiles d ext root sources).run s).2 := by
  induction sources generalizing s with
  | nil => exact .ended s
  | cons x xs ih =>
    have hfile := fileRun_encodeFile hd ext root x s
    rcases hx : (encodeFile d ext root x).outcome s with ⟨f | file, m⟩
    · rw [hx] at hfile
      have hrun : (encodeFiles d ext root (x :: xs)).run s = (([], some f), m) := by
        rw [encodeFiles, StateT.run_bind]
        unfold Task.outcome at hx
        rw [hx]
        rfl
      rw [hrun]
      exact .failed xs hfile
    · rw [hx] at hfile
      have hrun : (encodeFiles d ext root (x :: xs)).run s =
          ((file :: ((encodeFiles d ext root xs).run m).1.1,
            ((encodeFiles d ext root xs).run m).1.2), ((encodeFiles d ext root xs).run m).2) := by
        rw [encodeFiles, StateT.run_bind]
        unfold Task.outcome at hx
        rw [hx]
        rfl
      rw [hrun]
      exact .encoded hfile (ih m)

/-- Where a template's run writes or removes something. -/
def Touches (here : Place) (f : EncodedFile) (q : Place) : Prop :=
  q = f.source.placeFrom here ∨ q = f.encoded.placeFrom here ∨ q = f.sidecar.placeFrom here

/-- A template of the first tree is gone in the second, where its escaped form and the values of the
markers are in its place. -/
structure Replaced (d : Dialect) (t u : Tree) (f : EncodedFile) : Prop where
  escaped : ∃ s, t.get? (f.source.placeFrom t.here) = some (.file (.text s)) ∧
    u.get? (f.encoded.placeFrom t.here) = some (.file (.text (d.encode s)))
  paired : u.get? (f.sidecar.placeFrom t.here) = some (.file (.text d.sidecarText))
  gone : u.get? (f.source.placeFrom t.here) = none
  reached : u.Reaches f.encoded ∧ u.Reaches f.sidecar

/-- What the runs of some templates change. -/
structure Replaces (d : Dialect) (t u : Tree) (files : List EncodedFile) : Prop where
  here : u.here = t.here
  linkFree : u.LinkFree
  keeps : t.KeepsDirectories u
  replaced : ∀ f ∈ files, Replaced d t u f
  frame : ∀ q, (∀ f ∈ files, ¬ Touches t.here f q) → u.get? q = t.get? q

theorem Replaces.nil (d : Dialect) {t : Tree} (hl : t.LinkFree) : Replaces d t t [] :=
  ⟨rfl, hl, .refl t, by simp, fun _ _ => rfl⟩

theorem Replaces.cons {d : Dialect} {t u v : Tree} {f : EncodedFile} {files : List EncodedFile}
    (h : Replaces d t u [f]) (k : Replaces d u v files)
    (hapart : ∀ g ∈ files, ∀ q, Touches t.here f q → ¬ Touches t.here g q) :
    Replaces d t v (f :: files) := by
  -- no later run touches the files of the first one, nor does the first touch those of the others
  have hlater (q : Place) (hq : Touches t.here f q) : v.get? q = u.get? q := by
    apply k.frame
    intro g hg
    rw [h.here]
    exact hapart g hg q hq
  have hearlier (g : EncodedFile) (hg : g ∈ files) (q : Place) (hq : Touches t.here g q) :
      u.get? q = t.get? q := by
    apply h.frame
    intro f' hf' hq'
    rw [List.mem_singleton.1 hf'] at hq'
    exact hapart g hg q hq' hq
  refine ⟨k.here.trans h.here, k.linkFree, h.keeps.trans k.keeps, ?_, ?_⟩
  · intro g hg
    rcases List.mem_cons.1 hg with rfl | hg
    · obtain ⟨⟨s, hs, hescaped⟩, hpaired, hgone, hencoded, hsidecar⟩ :=
        h.replaced g List.mem_cons_self
      rw [← hlater _ (.inr (.inl rfl))] at hescaped
      rw [← hlater _ (.inr (.inr rfl))] at hpaired
      rw [← hlater _ (.inl rfl)] at hgone
      refine ⟨⟨s, hs, hescaped⟩, hpaired, hgone, ?_, ?_⟩
      · exact hencoded.keep k.here k.keeps (by simp [h.here, hescaped])
      · exact hsidecar.keep k.here k.keeps (by simp [h.here, hpaired])
    · obtain ⟨⟨s, hs, hescaped⟩, hpaired, hgone, hreached⟩ := k.replaced g hg
      rw [h.here] at hs hescaped hpaired hgone
      rw [hearlier g hg _ (.inl rfl)] at hs
      exact ⟨⟨s, hs, hescaped⟩, hpaired, hgone, hreached⟩
  · intro q hq
    have hu : u.get? q = t.get? q :=
      h.frame q fun f' hf' => hq f' (List.mem_singleton.1 hf' ▸ List.mem_cons_self)
    have hv : v.get? q = u.get? q := by
      apply k.frame
      intro g hg
      rw [h.here]
      exact hq g (List.mem_cons_of_mem _ hg)
    rw [hv, hu]

theorem Site.apart {here : Place} {ext : Text} {f g : EncodedFile} {dir dir' : Place}
    {stem stem' : Text} (he : TemplateExt ext) (hf : Site here ext f dir stem)
    (hg : Site here ext g dir' stem') (hne : f.source.placeFrom here ≠ g.source.placeFrom here)
    {q : Place} (hq : Touches here f q) : ¬ Touches here g q := by
  have hname {a b : Text} (h : dir ++ [a] = dir' ++ [b]) : a = b :=
    List.singleton_inj.1 (List.append_inj' h rfl).2
  have hstem {m : Text} (h : dir ++ [stem ++ m] = dir' ++ [stem' ++ m]) : False := by
    rw [hf.source, hg.source, (List.append_inj' h rfl).1, List.append_cancel_right (hname h)] at hne
    exact hne rfl
  intro hq'
  unfold Touches at hq hq'
  rw [hf.source, hf.encoded, hf.sidecar] at hq
  rw [hg.source, hg.encoded, hg.sidecar] at hq'
  rcases hq with rfl | rfl | rfl <;> rcases hq' with h | h | h
  · exact hstem h
  · exact he.ne_encoded stem stem' (hname h)
  · exact he.ne_sidecar stem stem' (hname h)
  · exact he.ne_encoded stem' stem (hname h).symm
  · exact hstem h
  · exact encoded_ne_sidecar stem stem' (hname h)
  · exact he.ne_sidecar stem' stem (hname h).symm
  · exact encoded_ne_sidecar stem' stem (hname h).symm
  · exact hstem h

theorem Site.distinct {here : Place} {ext : Text} {f : EncodedFile} {dir : Place} {stem : Text}
    (he : TemplateExt ext) (hf : Site here ext f dir stem) :
    f.encoded.placeFrom here ≠ f.source.placeFrom here ∧
    f.sidecar.placeFrom here ≠ f.source.placeFrom here ∧
    f.encoded.placeFrom here ≠ f.sidecar.placeFrom here := by
  have hname {a b : Text} (h : a ≠ b) : dir ++ [a] ≠ dir ++ [b] :=
    fun hab => h (List.singleton_inj.1 (List.append_cancel_left hab))
  rw [hf.source, hf.encoded, hf.sidecar]
  exact ⟨hname (he.ne_encoded stem stem).symm, hname (he.ne_sidecar stem stem).symm,
    hname (encoded_ne_sidecar stem stem)⟩

theorem replaces_of_changes {d : Dialect} {ext content : Text} {t u v w : Tree} {f : EncodedFile}
    {dir : Place} {stem : Text} (he : TemplateExt ext) (hf : Site t.here ext f dir stem)
    (hcontent : t.get? (f.source.placeFrom t.here) = some (.file (.text content)))
    (hencoded : Wrote f.encoded (.text (d.encode content)) t u)
    (hsidecar : Wrote f.sidecar (.text d.sidecarText) u v) (hsource : Removed f.source v w) :
    Replaces d t w [f] := by
  obtain ⟨hes, hss, hess⟩ := hf.distinct he
  have hu : u.here = t.here := hencoded.here
  have hv : v.here = t.here := hsidecar.here.trans hu
  have hescaped := hencoded.written
  have hpaired := hsidecar.written
  have hgone := hsource.gone
  rw [hu] at hpaired
  rw [hv] at hgone
  -- the later changes are at other places, so what the earlier ones left is still there
  rw [← hsidecar.frame _ (by rwa [hu]), ← hsource.frame _ (by rwa [hv])] at hescaped
  rw [← hsource.frame _ (by rwa [hv])] at hpaired
  have hkeep := hsidecar.keeps.trans hsource.keeps
  refine ⟨hsource.here.trans hv, hsource.linkFree, hencoded.keeps.trans hkeep, ?_, ?_⟩
  · intro g hg
    rw [List.mem_singleton.1 hg]
    refine ⟨⟨content, hcontent, hescaped⟩, hpaired, hgone, ?_, ?_⟩
    · exact hencoded.reached.keep (hsource.here.trans hsidecar.here) hkeep (by simp [hu, hescaped])
    · exact hsidecar.reached.keep hsource.here hsource.keeps (by simp [hv, hpaired])
  · intro q hq
    have hq : ¬ Touches t.here f q := hq f List.mem_cons_self
    rw [hsource.frame q, hsidecar.frame q, hencoded.frame q]
    · exact fun h => hq (.inr (.inl h))
    · rw [hu]
      exact fun h => hq (.inr (.inr h))
    · rw [hv]
      exact fun h => hq (.inl h)

theorem replaces_of_fileRun {d : Dialect} {ext : Text} {root x : Path} {s m : Session}
    {file : EncodedFile} {dir : Place} {stem : Text} (he : TemplateExt ext)
    (hl : s.tree.LinkFree) (hx : Site s.tree.here ext (outputs ext x) dir stem)
    (h : FileRun d ext root x s (.ok file) m) :
    file = outputs ext x ∧ Replaces d s.tree m.tree [file] := by
  cases h with
  | replaced hread hwrite hpair hremove =>
  have hcontent := (read_eq_ok hl hread).2
  have hencoded := wrote_of_write hl hwrite
  have hsidecar := wrote_of_write hencoded.linkFree hpair
  have hsource := removed_of_remove hsidecar.linkFree hremove
  exact ⟨rfl, replaces_of_changes he hx hcontent hencoded hsidecar hsource⟩

/-- The templates up to the first failure are replaced, and all else is as it was before that. -/
theorem FilesRun.replaces {d : Dialect} {ext : Text} {root : Path} {s s' : Session}
    {sources : List Path} {r : List EncodedFile × Option EncodeFault} (he : TemplateExt ext)
    (hl : s.tree.LinkFree)
    (hsites : ∀ x ∈ sources, ∃ dir stem, Site s.tree.here ext (outputs ext x) dir stem)
    (hnodup : sources.Pairwise fun x y => x.placeFrom s.tree.here ≠ y.placeFrom s.tree.here)
    (h : FilesRun d ext root s sources r s') :
    ∃ before after m, sources = before ++ after ∧ r.1 = before.map (outputs ext) ∧
      Replaces d s.tree m.tree r.1 ∧ FilesRun d ext root m after ([], r.2) s' := by
  induction h with
  | ended s => exact ⟨[], [], s, rfl, rfl, .nil d hl, .ended s⟩
  | @failed s s' x f xs hfile => exact ⟨[], x :: xs, s, rfl, rfl, .nil d hl, .failed xs hfile⟩
  | @encoded s m s' x xs file r hfile hrest ih =>
    obtain ⟨dir, stem, hx⟩ := hsites x List.mem_cons_self
    obtain ⟨rfl, hstep⟩ := replaces_of_fileRun he hl hx hfile
    obtain ⟨hfirst, hothers⟩ := List.pairwise_cons.1 hnodup
    obtain ⟨before, after, m', rfl, hfiles, hreplaces, hrun⟩ := ih hstep.linkFree
      (by rw [hstep.here]; exact fun y hy => hsites y (List.mem_cons_of_mem _ hy))
      (by rw [hstep.here]; exact hothers)
    refine ⟨x :: before, after, m', rfl, congrArg _ hfiles, hstep.cons hreplaces ?_, hrun⟩
    intro g hg q hq
    rw [hfiles] at hg
    obtain ⟨y, hy, rfl⟩ := List.mem_map.1 hg
    have hy := List.mem_append_left after hy
    obtain ⟨dir', stem', hsite⟩ := hsites y (List.mem_cons_of_mem _ hy)
    exact hx.apart he hsite (hfirst y hy) hq

end PatternBridge.Encode
