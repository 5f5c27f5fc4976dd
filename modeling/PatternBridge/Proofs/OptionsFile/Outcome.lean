import PatternBridge.OptionsFile
import PatternBridge.Proofs.Session.Outcome

/-! What reading formatter options gives and leaves. Options that were read before are given again,
others are kept once they are read, and the files stay as they are. -/

namespace PatternBridge.OptionsFile

def keyOf (t : Tree) (p : Path) : List Path.Component := (keyPath t p).components

theorem outcome_load (p : Path) (s : Session) :
    (load p).outcome s = match s.options.lookup (keyOf s.tree p) with
      | some o => (.ok o, s)
      | none =>
        match optionsIn s.tree p with
        | .ok o => (.ok o, { s with options := (keyOf s.tree p, o) :: s.options })
        | .error f => (.error f, s) := by
  unfold load
  rw [Task.outcome_bind, Task.outcome_ask]
  dsimp only
  rw [Task.outcome_bind, Task.outcome_get]
  dsimp only
  rw [keyOf]
  cases s.options.lookup (keyPath s.tree p).components with
  | some o => rfl
  | none =>
    dsimp only
    rw [Task.outcome_bind, Task.outcome_mk_ask]
    cases optionsIn s.tree p <;> rfl

theorem outcome_resolve (p : Path) (s : Session) :
    (resolve p).outcome s =
      if s.tree.isFile p then
        (((load p).outcome s).1.map fun o => (o, some p), ((load p).outcome s).2)
      else (.ok (.bundled, none), s) := by
  unfold resolve
  rw [Task.outcome_bind, Task.outcome_ask]
  dsimp only
  split
  · rw [Task.outcome_bind]
    rcases (load p).outcome s with ⟨_ | _, m⟩ <;> rfl
  · rfl

theorem outcome_load_of_kept {p : Path} {s : Session} {o : Markup.Options}
    (h : s.options.lookup (keyOf s.tree p) = some o) : (load p).outcome s = (.ok o, s) := by
  rw [outcome_load, h]

theorem load_of_new {p : Path} {s : Session} (h : s.options.lookup (keyOf s.tree p) = none) :
    ((load p).outcome s).1 = optionsIn s.tree p := by
  rw [outcome_load, h]
  cases optionsIn s.tree p <;> rfl

theorem session_of_load_error {p : Path} {s : Session} {f : OptionsFault}
    (h : ((load p).outcome s).1 = .error f) : ((load p).outcome s).2 = s := by
  rw [outcome_load] at h ⊢
  split at h
  · cases h
  · cases hin : optionsIn s.tree p with
    | error f => rfl
    | ok o => rw [hin] at h; cases h

/-- A project's own options fail only as the load of its file does. -/
theorem session_of_resolve_error {p : Path} {s : Session} {f : OptionsFault}
    (h : ((resolve p).outcome s).1 = .error f) : ((resolve p).outcome s).2 = s := by
  rw [outcome_resolve] at h ⊢
  split at h
  · next hfile =>
    rw [if_pos hfile]
    cases hload : ((load p).outcome s).1 with
    | error f => exact session_of_load_error hload
    | ok o => rw [hload] at h; cases h
  · cases h

theorem tree_load (p : Path) (s : Session) : ((load p).outcome s).2.tree = s.tree := by
  rw [outcome_load]
  split
  · rfl
  · split <;> rfl

theorem tree_resolve (p : Path) (s : Session) : ((resolve p).outcome s).2.tree = s.tree := by
  rw [outcome_resolve]
  split
  · exact tree_load p s
  · rfl

theorem resolve_of_not_isFile {p : Path} {s : Session} (h : s.tree.isFile p = false) :
    (resolve p).outcome s = (.ok (.bundled, none), s) := by
  rw [outcome_resolve, if_neg (Bool.eq_false_iff.1 h)]

end PatternBridge.OptionsFile
