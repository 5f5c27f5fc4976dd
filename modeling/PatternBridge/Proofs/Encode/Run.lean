import PatternBridge.Proofs.DataFile.Save
import PatternBridge.Proofs.Encode.Files

/-! A whole run. `Run` lists the ways in which it can end once its arguments are accepted. -/

namespace PatternBridge.Encode
open PatternBridge.Tree

/-- Templates that were encoded, and the failure that came after them. -/
abbrev Progress := List EncodedFile × Option EncodeFault

def addLacking (d : Dialect) (data : DataFile) (r : Progress) : Task EncodeFault (List Text) :=
  if r.1.isEmpty then pure []
  else addKeys data (data.missingKeys d.hiddenPairs) r.2.isSome

def announced (layout : Layout) (keys : List Text) (s : Session) : Session :=
  if keys.isEmpty then s
  else { s with log := s.log ++ [⟨"data", "added " ++ Text.join ", " keys ++ " to " ++
    layout.dataFile.shownFrom layout.root⟩] }

@[simp] theorem announced_tree (layout : Layout) (keys : List Text) (s : Session) :
    (announced layout keys s).tree = s.tree := by
  unfold announced
  split <;> rfl

theorem savedTo_addLacking (d : Dialect) (t : Tree) (path : Path) (r : Progress) {s : Session}
    (hl : s.tree.LinkFree) :
    SavedTo path s.tree ((addLacking d (.load t path) r).outcome s).2.tree := by
  have hadd := DataFile.savedTo_add hl (.load t path)
    ((DataFile.load t path).missingKeys d.hiddenPairs)
  rw [DataFile.load_path] at hadd
  unfold addLacking
  split
  · exact .refl hl path
  · unfold addKeys
    rw [Task.outcome_bind, Task.outcome_liftM]
    dsimp only
    split
    · exact hadd
    · split
      · exact hadd
      · exact hadd

inductive Run (d : Dialect) (ext : Text) (layout : Layout) (s : Session) :
    Except EncodeFault EncodeReport → Session → Prop where
  | unadded {m u : Session} {r : Progress} {f : EncodeFault}
      (hfiles : FilesRun d ext layout.root s (s.tree.filesEndingIn layout.patterns ext) r m)
      (hadd : (addLacking d (.load s.tree layout.dataFile) r).outcome m = (.error f, u)) :
      Run d ext layout s (.error f) u
  | failed {m u : Session} {files : List EncodedFile} {f : EncodeFault} {keys : List Text}
      (hfiles : FilesRun d ext layout.root s (s.tree.filesEndingIn layout.patterns ext)
        (files, some f) m)
      (hadd : (addLacking d (.load s.tree layout.dataFile) (files, some f)).outcome m =
        (.ok keys, u)) :
      Run d ext layout s (.error f) (announced layout keys u)
  | done {m u : Session} {files : List EncodedFile} {keys : List Text}
      (hfiles : FilesRun d ext layout.root s (s.tree.filesEndingIn layout.patterns ext)
        (files, none) m)
      (hadd : (addLacking d (.load s.tree layout.dataFile) (files, none)).outcome m =
        (.ok keys, u)) :
      Run d ext layout s (.ok ⟨files, keys⟩) (announced layout keys u)

def conclude (layout : Layout) (r : Progress) (keys : List Text) :
    Task EncodeFault EncodeReport := do
  if !keys.isEmpty then
    Session.say "data" ("added " ++ Text.join ", " keys ++ " to " ++
      layout.dataFile.shownFrom layout.root)
  match r.2 with
  | some f => throw f
  | none => return { files := r.1, keysAdded := keys }

theorem outcome_conclude (layout : Layout) (r : Progress) (keys : List Text) (s : Session) :
    (conclude layout r keys).outcome s =
      ((r.2.map Except.error).getD (.ok ⟨r.1, keys⟩), announced layout keys s) := by
  unfold conclude announced
  obtain ⟨files, failure⟩ := r
  cases keys <;> cases failure <;> rfl

theorem outcome_run {tag : Text} {d : Dialect} (hd : Dialect.find? tag = some d)
    {given : Option Text} {ext : Text} (hext : sourceExt given = .ok ext) (layout : Layout)
    {s m : Session} {r : Progress}
    (hfiles : (encodeFiles d ext layout.root (s.tree.filesEndingIn layout.patterns ext)).run s =
      (r, m)) :
    (run tag given layout).outcome s =
      (addLacking d (.load s.tree layout.dataFile) r >>= conclude layout r).outcome m := by
  unfold run
  rw [hd]
  dsimp only
  rw [hext, Task.outcome_bind]
  show Task.outcome _ s = _
  rw [Task.outcome_bind, Task.outcome_ask]
  dsimp only
  rw [Task.outcome_bind, Task.outcome_ask]
  dsimp only
  rw [Task.outcome_bind, Task.outcome_liftM, hfiles]
  dsimp only
  unfold addLacking
  split <;> rfl

theorem run_run {tag : Text} {d : Dialect} (hd : Dialect.find? tag = some d) {given : Option Text}
    {ext : Text} (hext : sourceExt given = .ok ext) (layout : Layout) (s : Session) :
    Run d ext layout s ((run tag given layout).outcome s).1
      ((run tag given layout).outcome s).2 := by
  have hrun := filesRun_encodeFiles (Dialect.decode_encode_of_find? hd) ext layout.root
    (s.tree.filesEndingIn layout.patterns ext) s
  obtain ⟨⟨r, m⟩, hfiles⟩ : ∃ p : Progress × Session, (encodeFiles d ext layout.root
      (s.tree.filesEndingIn layout.patterns ext)).run s = p := ⟨_, rfl⟩
  rw [hfiles] at hrun
  rw [outcome_run hd hext layout hfiles, Task.outcome_bind]
  rcases hadd : (addLacking d (.load s.tree layout.dataFile) r).outcome m with ⟨f | keys, u⟩
  · exact .unadded hrun hadd
  · dsimp only
    rw [outcome_conclude]
    obtain ⟨files, _ | f⟩ := r
    · exact .done hrun hadd
    · exact .failed hrun hadd

theorem outcome_run_of_no_sources {tag : Text} {d : Dialect} (hd : Dialect.find? tag = some d)
    {given : Option Text} {ext : Text} (hext : sourceExt given = .ok ext) (layout : Layout)
    {s : Session} (hnone : s.tree.filesEndingIn layout.patterns ext = []) :
    (run tag given layout).outcome s = (.ok ⟨[], []⟩, s) := by
  have hfiles : (encodeFiles d ext layout.root (s.tree.filesEndingIn layout.patterns ext)).run s =
      (([], none), s) := by
    rw [hnone]
    rfl
  rw [outcome_run hd hext layout hfiles]
  rfl

end PatternBridge.Encode
