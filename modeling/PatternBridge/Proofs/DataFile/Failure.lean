import PatternBridge.Proofs.DataFile.Growth

/-! What is left of a data file in memory when keys cannot be written. Its members count the keys of
the set as added while its text is the old one, so that the file is taken to have them from then on,
and adding them again writes nothing. -/

namespace PatternBridge.DataFile

structure HalfAdded (d : DataFile) (k : KeySet) (d' : DataFile) : Prop where
  /-- All but the members is as before. -/
  same : d' = { d with members := d'.members }
  contains : ∀ key, d'.contains key = (d.contains key || k.has key)
  missing : ∀ pairs, (d'.missingKeys pairs).pairs =
    (d.missingKeys pairs).pairs.filter fun p => !k.has p.1
  later : ∀ s, (d'.add k).run s = ((.ok [], d'), s)

theorem halfAdded_grown {d : DataFile} {source : Option Text} (hs : d.source = .ok source)
    (k : KeySet) : HalfAdded d k (d.grown k) where
  same := rfl
  contains := contains_grown d k
  missing := missingKeys_grown d k
  later := by
    have hnone : (d.grown k).lacking k.pairs = [] := by
      rw [lacking_grown, List.filter_eq_nil_iff]
      intro p hp
      have hhas : k.has p.1 := KeySet.has_iff.2 ⟨p, (List.mem_filter.1 hp).1, rfl⟩
      rw [hhas]
      exact Bool.false_ne_true
    exact run_add_of_complete hs hnone

theorem exists_of_add_eq_error {d d' : DataFile} {k : KeySet} {s s' : Session} {f : DataFault}
    (h : (d.add k).run s = ((.error f, d'), s')) :
    ∃ source, d.source = .ok source ∧ d.lacking k.pairs ≠ [] ∧ d' = d.grown k := by
  cases adding_of_run h with
  | unclosed hs hlacking | unsaved hs hlacking => exact ⟨_, hs, hlacking, rfl⟩

/-- A file to which keys could not be added takes them for its own. Wherever the attempt had succeeded
it would have written the keys that were lacking; the next one leaves all as it is. -/
theorem halfAdded_of_add_eq_error {d d' : DataFile} {k : KeySet} {s s' : Session} {f : DataFault}
    (h : (d.add k).run s = ((.error f, d'), s')) :
    HalfAdded d k d' ∧ (∃ key, k.has key ∧ d.contains key = false) ∧
      ∀ m m' added e, (d.add k).run m = ((.ok added, e), m') →
        added = (d.lacking k.pairs).map Prod.fst ∧ added ≠ [] ∧
          ∃ source text, d.source = .ok source ∧
            splice? (source.getD emptyText) (d.lacking k.pairs) (!d.members.isEmpty) = some text ∧
            m'.tree.read d.path = .ok text := by
  obtain ⟨source, hs, hne, rfl⟩ := exists_of_add_eq_error h
  refine ⟨halfAdded_grown hs k, ?_, ?_⟩
  · obtain ⟨p, hp⟩ := List.exists_mem_of_ne_nil _ hne
    obtain ⟨hmem, hnone⟩ := List.mem_filter.1 hp
    exact ⟨p.1, KeySet.has_iff.2 ⟨p, hmem, rfl⟩, by simpa using hnone⟩
  · intro m m' added e hm
    cases adding_of_run hm with
    | idle hidle => exact absurd (hidle source hs) hne
    | saved hs' _ htext hsave =>
      obtain rfl := Except.ok.inj (hs.symm.trans hs')
      exact ⟨rfl, by simpa using hne, source, _, hs, htext, read_of_save hsave⟩

/-- Other keys added later go behind a comma into the old text, which has no line for the keys that
could not be added. -/
theorem read_after_failed_add {d d' e : DataFile} {k others : KeySet} {s s' m m' : Session}
    {f : DataFault} {added : List Text} (h : (d.add k).run s = ((.error f, d'), s'))
    (hm : (d'.add others).run m = ((.ok added, e), m')) (hne : added ≠ []) :
    ∃ source text, d.source = .ok source ∧
      splice? (source.getD emptyText) ((d.lacking others.pairs).filter fun p => !k.has p.1) true =
        some text ∧
      m'.tree.read d.path = .ok text := by
  obtain ⟨source, hs, hlacking, rfl⟩ := exists_of_add_eq_error h
  cases adding_of_run hm with
  | idle => exact absurd rfl hne
  | @saved source' text _ hs' _ htext hsave =>
    obtain rfl : source = source' := Except.ok.inj (hs.symm.trans hs')
    have hmembers : (!(d.grown k).members.isEmpty) = true := by
      simpa [grown] using fun _ => hlacking
    rw [lacking_grown, hmembers] at htext
    exact ⟨source, text, hs, htext, read_of_save hsave⟩

def dataPath : Path := ⟨"_data.json"⟩

def blocked : Session where
  tree := (Tree.empty []).put ["_data.json".toList] .directory

def hidden : KeySet := .ofPairs [("<%", "<!--")]

theorem halfAdded_blocked :
    let d := load (Tree.empty []) dataPath
    let run := (d.add hidden).run blocked
    run.1.1 = .error (.file dataPath .isDirectory) ∧ HalfAdded d hidden run.1.2 := by
  intro d run
  have hfailed : run.1.1 = .error (.file dataPath .isDirectory) := by decide +kernel
  have hrun : run = ((.error (.file dataPath .isDirectory), run.1.2), run.2) :=
    Prod.ext (Prod.ext hfailed rfl) rfl
  exact ⟨hfailed, (halfAdded_of_add_eq_error hrun).1⟩

/-- With the directory gone, the keys that could not be added are not added any more. -/
theorem failed_add_is_lost :
    let d := load (Tree.empty []) dataPath
    let run := (d.add hidden).run blocked
    let free : Session := { tree := Tree.empty [] }
    run.1.1 = .error (.file dataPath .isDirectory) ∧
    d.contains "<%" = false ∧ run.1.2.contains "<%" = true ∧
    (d.missingKeys hidden.pairs).pairs = hidden.pairs ∧
    (run.1.2.missingKeys hidden.pairs).pairs = [] ∧
    ((d.add hidden).run free).1.1 = .ok ["<%"] ∧ ((run.1.2.add hidden).run free).1.1 = .ok [] ∧
    ((d.add hidden).run free).2.tree.read dataPath = .ok "\x7b\n  \"<%\": \"<!--\"\n\x7d\n" ∧
    ((run.1.2.add hidden).run free).2.tree.read dataPath = .error .notFound := by
  decide +kernel

end PatternBridge.DataFile
