import PatternBridge.Proofs.DataFile.Keys
import PatternBridge.Proofs.Session.Saving

/-! What adding keys to a data file changes in the tree: the file, and the directories above it that
were missing. -/

namespace PatternBridge

namespace Tree
variable {t u v : Tree} {p : Path}

structure SavedTo (p : Path) (t u : Tree) : Prop where
  here : u.here = t.here
  linkFree : u.LinkFree
  keeps : t.KeepsDirectories u
  frame : ∀ q, q ≠ p.placeFrom t.here → u.get? q = t.get? q ∨
    t.get? q = none ∧ u.get? q = some .directory ∧ p.PassesThrough t.here q

theorem SavedTo.refl (hl : t.LinkFree) (p : Path) : SavedTo p t t :=
  ⟨rfl, hl, .refl t, fun _ _ => .inl rfl⟩

theorem savedTo_of_grownBy (hl : t.LinkFree) (h : t.GrownBy u (p.PassesThrough t.here)) :
    SavedTo p t u :=
  ⟨h.1, h.linkFree hl, h.keepsDirectories, fun q _ => h.2 q⟩

theorem SavedTo.write (h : SavedTo p t u) {c : Content} (hw : u.write p c = .ok v) :
    SavedTo p t v := by
  have hwrote := wrote_of_write h.linkFree hw
  refine ⟨hwrote.here.trans h.here, hwrote.linkFree, h.keeps.trans hwrote.keeps, ?_⟩
  intro q hq
  rw [hwrote.frame q (by rwa [h.here])]
  exact h.frame q hq

theorem SavedTo.writeFails (h : SavedTo p t u) {text : Text} {f : Fault}
    (hw : u.WriteFails p text f v) : SavedTo p t v := by
  cases hw with
  | unopened => exact h
  | stopped cut hwrite => exact h.write hwrite

end Tree

namespace DataFile
open PatternBridge.Tree

theorem saving_of_save {path : Path} {content : Text} {s s' : Session} {r : Except DataFault Unit}
    (h : (save path content).outcome s = (r, s')) :
    Task.Saving (fun parent => .file parent) (.file path) path content s r s' :=
  Task.saving_of_outcome h

theorem savedTo_save {s : Session} (hl : s.tree.LinkFree) (path : Path) (content : Text) :
    SavedTo path s.tree ((save path content).outcome s).2.tree := by
  have hmade := savedTo_of_grownBy hl (grownBy_parentsMade hl path)
  rcases h : (save path content).outcome s with ⟨r, s'⟩
  cases saving_of_save h with
  | unmade => exact hmade
  | unwritten hwrite => exact hmade.writeFails hwrite
  | saved hwrite => exact hmade.write hwrite

theorem savedTo_add {s : Session} (hl : s.tree.LinkFree) (d : DataFile) (k : KeySet) :
    SavedTo d.path s.tree ((d.add k).run s).2.tree := by
  rcases h : (d.add k).run s with ⟨⟨r, d'⟩, s'⟩
  cases adding_of_run h with
  | idle | unclosed => exact .refl hl d.path
  | @unsaved _ text _ _ _ _ _ hsave | @saved _ text _ _ _ _ hsave =>
    have hsaved := savedTo_save hl d.path text
    rw [hsave] at hsaved
    exact hsaved

@[simp] theorem load_path (t : Tree) (path : Path) : (load t path).path = path := by
  unfold load
  split <;> rfl

end DataFile
end PatternBridge
