import PatternBridge.Proofs.DataFile.Save
import PatternBridge.Proofs.Files.ReadBack
import PatternBridge.Proofs.Json.Closing

/-! What adding keys makes of a data file's text. The lines for the new pairs come before the
closing brace, all else stays as it is written, and the text is an object of the old members with
the new ones behind them. -/

namespace PatternBridge.DataFile

theorem load_of_object {t : Tree} {path : Path} {text : Text} {ms : Json.Members}
    (hread : t.read path = .ok text) (hobject : Json.parse? text = some (.object ms)) :
    load t path = { path, members := ms, source := .ok (some text) } := by
  have hmembers : membersOf path text = .ok ms := by simp only [membersOf, hobject]
  have hcontents : contents t path = .ok (ms, text) := by
    simp only [contents, hread, hmembers]
    rfl
  simp only [load, hcontents]

theorem read_of_save {path : Path} {content : Text} {s s' : Session}
    (h : (save path content).outcome s = (.ok (), s')) : s'.tree.read path = .ok content := by
  cases saving_of_save h with
  | saved hwrite => exact Tree.read_of_write hwrite

/-- The second text is the first with lines for the pairs before its closing brace. -/
structure Extends (ms : Json.Members) (pairs : List (Text × Text)) (old new : Text) : Prop where
  members : Json.parse? new = some (.object (ms ++ pairs.map fun p => (p.1, .string p.2)))
  /-- Only white space follows the closing brace. -/
  layout : ∃ before onward, old = before ++ '}' :: onward ∧ (∀ c ∈ onward, Json.isSpace c = true) ∧
    new = Text.trimEnd before ++ (if ms.isEmpty then [] else [',']) ++
      [','].intercalate (pairs.map fun p => "\n  " ++ Json.memberText p) ++ '\n' :: '}' :: onward

theorem extends_of_splice? {ms : Json.Members} {pairs : List (Text × Text)} {old new : Text}
    (hobject : Json.parse? old = some (.object ms)) (hne : pairs ≠ [])
    (hnew : ∀ p ∈ pairs, ms.hasKey p.1 = false) (hnodup : (pairs.map Prod.fst).Nodup)
    (h : splice? old pairs (!ms.isEmpty) = some new) : Extends ms pairs old new := by
  obtain ⟨before, onward, hcloses⟩ := Json.closes_of_parse? hobject
  have htext : new = Text.trimEnd before ++ (if ms.isEmpty then [] else [',']) ++
      [','].intercalate (pairs.map fun p => "\n  " ++ Json.memberText p) ++ '\n' :: '}' :: onward := by
    rw [splice?, hcloses.cutLast?] at h
    cases hempty : ms.isEmpty <;> simpa [hempty] using (Option.some.inj h).symm
  have hmembers := hcloses.parse?_lines hne
  rw [← htext, Json.Members.overlay_of_not_hasKey] at hmembers
  · exact ⟨hmembers, before, onward, hcloses.split, hcloses.spaces, htext⟩
  · intro m hm
    obtain ⟨p, hp, rfl⟩ := List.mem_map.1 hm
    exact hnew p hp
  · rwa [List.map_map]

/-- Adding keys to a file that holds an object writes an object of its members and behind them the
pairs that it lacked, and leaves the text around the new lines as it was. -/
theorem add_extends_object {t : Tree} {path : Path} {text : Text} {ms : Json.Members} {k : KeySet}
    {s s' : Session} {added : List Text} {d : DataFile} (hread : t.read path = .ok text)
    (hobject : Json.parse? text = some (.object ms))
    (hadd : ((load t path).add k).run s = ((.ok added, d), s')) (hne : added ≠ []) :
    added = (k.pairs.filter fun p => !ms.hasKey p.1).map Prod.fst ∧
      ∃ new, Extends ms (k.pairs.filter fun p => !ms.hasKey p.1) text new ∧
        s'.tree.read path = .ok new ∧ d.source = .ok (some new) := by
  rw [load_of_object hread hobject] at hadd
  cases adding_of_run hadd with
  | idle => exact absurd rfl hne
  | @saved source new _ hs hlacking hsplice hsave =>
    obtain rfl : some text = source := Except.ok.inj hs
    have hnew : ∀ p ∈ k.pairs.filter (fun p => !ms.hasKey p.1), ms.hasKey p.1 = false := by
      intro p hp
      simpa using (List.mem_filter.1 hp).2
    have hnodup : ((k.pairs.filter fun p => !ms.hasKey p.1).map Prod.fst).Nodup :=
      k.nodup.sublist (List.filter_sublist.map Prod.fst)
    exact ⟨rfl, new, extends_of_splice? hobject hlacking hnew hnodup hsplice, read_of_save hsave, rfl⟩

def sampleText : Text := "\x7b\"a\": \"\x7d\"\n\n\x7d\n"

def sampleSession : Session where
  tree := (Tree.empty []).put ["d.json".toList] (.file (.text sampleText))

def sampleKeys : KeySet := .ofPairs [("a", "b"), ("\"", "c")]

theorem brace_in_value_stays :
    let pairs : List (Text × Text) := [("\"", "c")]
    let run := ((load sampleSession.tree ⟨"d.json"⟩).add sampleKeys).run sampleSession
    run.1.1 = .ok (pairs.map Prod.fst) ∧ ∃ new,
      Extends [("a".toList, .string "\x7d")] pairs sampleText new ∧
        run.2.tree.read ⟨"d.json"⟩ = .ok new := by
  intro pairs run
  have hread : sampleSession.tree.read ⟨"d.json"⟩ = .ok sampleText := by decide +kernel
  have hobject : Json.parse? sampleText = some (.object [("a".toList, .string "\x7d")]) := rfl
  have hadded : run.1.1 = .ok (pairs.map Prod.fst) := by decide +kernel
  have hrun : run = ((.ok (pairs.map Prod.fst), run.1.2), run.2) := Prod.ext (Prod.ext hadded rfl) rfl
  obtain ⟨-, new, hnew, hwritten, -⟩ := add_extends_object hread hobject hrun (by decide)
  exact ⟨hadded, new, hnew, hwritten⟩

end PatternBridge.DataFile
