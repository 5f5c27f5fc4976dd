import PatternBridge.Proofs.Files.Below

/-! Two trees that differ at a few places only. Paths to the other places lead to the same in both. -/

namespace PatternBridge

namespace Tree

/-- A tree in which files were written at the places of outputs, and directories made elsewhere. -/
structure Later (isOutput : Place → Prop) (t u : Tree) : Prop where
  here : u.here = t.here
  linkFree : u.LinkFree
  wellFormed : u.WellFormed
  keeps : t.KeepsDirectories u
  frame : ∀ q, ¬ isOutput q → u.get? q = t.get? q ∨ t.get? q = none ∧ u.get? q = some .directory

variable {t u : Tree} {isOutput : Place → Prop} {p base : Path} {idle : List Step}
  {names : List Text}

theorem Later.get?_eq (h : Later isOutput t u) {q : Place} {e : Entry} (hq : ¬ isOutput q)
    (ht : t.get? q = some e) : u.get? q = some e := by
  obtain hu | ⟨hnone, -⟩ := h.frame q hq
  · rw [hu, ht]
  · rw [ht] at hnone
    cases hnone

theorem toOption_eq_of_iff {α ε : Type} {x y : Except ε α} (h : ∀ a, x = .ok a ↔ y = .ok a) :
    x.toOption = y.toOption := by
  cases x with
  | ok a => rw [(h a).1 rfl]
  | error e =>
    cases y with
    | error f => rfl
    | ok b => cases (h b).2 rfl

theorem Later.status_eq (h : Later isOutput t u) (hl : t.LinkFree) (hw : t.WellFormed)
    (hopens : t.Opens base) (hp : p.GoesOn base idle names) {e : Entry}
    (hq : ¬ isOutput (p.placeFrom t.here)) (ht : t.get? (p.placeFrom t.here) = some e) :
    (u.status p).toOption = (t.status p).toOption := by
  have hu := h.get?_eq hq ht
  apply toOption_eq_of_iff
  rintro ⟨q, f⟩
  constructor
  · intro hstatus
    obtain ⟨hplace, hf⟩ := get?_of_status h.linkFree h.wellFormed hstatus
    rw [h.here] at hplace
    rw [hplace, hu] at hf
    obtain rfl := Option.some.inj hf
    rw [hplace] at hstatus ⊢
    exact status_of_goesOn hl h.linkFree hw h.here hopens hp hstatus ht
  · intro hstatus
    obtain ⟨rfl, hf⟩ := get?_of_status hl hw hstatus
    rw [ht] at hf
    obtain rfl := Option.some.inj hf
    exact status_of_keeps hl h.linkFree h.here h.keeps hstatus hu

theorem toOption_read_of_entry {q : Path} (h : u.entry? p = t.entry? q) :
    (u.read p).toOption = (t.read q).toOption := by
  unfold entry? at h
  unfold read
  cases hu : u.status p <;> cases ht : t.status q <;> rw [hu, ht] at h
  · rfl
  · cases h
  · cases h
  · next x y =>
    obtain ⟨place, e⟩ := x
    obtain ⟨place', e'⟩ := y
    obtain rfl : e = e' := Option.some.inj h
    cases e with
    | file c => cases c <;> rfl
    | _ => rfl

theorem toOption_read_congr {q : Path} (h : (u.status p).toOption = (t.status q).toOption) :
    (u.read p).toOption = (t.read q).toOption :=
  toOption_read_of_entry (congrArg (Option.map Prod.snd) h)

theorem Later.read_eq (h : Later isOutput t u) (hl : t.LinkFree) (hw : t.WellFormed)
    (hopens : t.Opens base) (hp : p.GoesOn base idle names)
    (hq : ¬ isOutput (p.placeFrom t.here)) : (u.read p).toOption = (t.read p).toOption := by
  cases ht : t.get? (p.placeFrom t.here) with
  | some e => exact toOption_read_congr (h.status_eq hl hw hopens hp hq ht)
  | none =>
    -- a directory may be new here, but no directory is read
    apply toOption_eq_of_iff
    intro s
    constructor
    · intro hread
      have hfile := (read_eq_ok h.linkFree hread).2
      rw [h.here] at hfile
      obtain hu | ⟨-, hu⟩ := h.frame _ hq
      · rw [hu, ht] at hfile
        cases hfile
      · rw [hu] at hfile
        cases hfile
    · intro hread
      rw [(read_eq_ok hl hread).2] at ht
      cases ht

theorem toOption_status_eq (hl : t.LinkFree) (hw : t.WellFormed) (hlu : u.LinkFree)
    (hwu : u.WellFormed) (hhere : u.here = t.here) (hk : t.KeepsDirectories u)
    (hk' : u.KeepsDirectories t) {p : Path}
    (hsame : u.get? (p.placeFrom t.here) = t.get? (p.placeFrom t.here)) :
    (u.status p).toOption = (t.status p).toOption := by
  apply toOption_eq_of_iff
  rintro ⟨q, e⟩
  constructor
  · intro h
    obtain ⟨rfl, he⟩ := get?_of_status hlu hwu h
    apply status_of_keeps hlu hl hhere.symm hk' h
    rw [hhere] at he ⊢
    exact hsame.symm.trans he
  · intro h
    obtain ⟨rfl, he⟩ := get?_of_status hl hw h
    exact status_of_keeps hl hlu hhere hk h (hsame.trans he)

end Tree
end PatternBridge
