import PatternBridge.Proofs.Files.WellFormed
import PatternBridge.Proofs.Session.Outcome

/-! Writing a file after the directories above it are made. Compiled files and the data file are
both written so, and each says with its own faults what went wrong. -/

namespace PatternBridge

namespace Tree
variable {t : Tree}

/-- The tree after the attempt to make the directories above a file. -/
def parentsMade (t : Tree) (p : Path) : Tree :=
  match p.parent? with
  | none => t
  | some parent => (t.makeDirectories parent).2

theorem grownBy_parentsMade (hl : t.LinkFree) (p : Path) :
    t.GrownBy (t.parentsMade p) (p.PassesThrough t.here) := by
  unfold parentsMade
  split
  · exact .refl t _
  · next parent hparent =>
    apply grownBy_makeDirectories hl
    intro q hq
    exact Path.passesThrough_of_mem_ancestors hparent hq

theorem WellFormed.parentsMade (hw : t.WellFormed) (hl : t.LinkFree) (p : Path) :
    (t.parentsMade p).WellFormed := by
  unfold Tree.parentsMade
  split
  · exact hw
  · exact hw.makeDirectories hl _

end Tree

/-- A write that fails: the file is not opened, or only a part of the text gets into it. -/
inductive Tree.WriteFails (t : Tree) (p : Path) (text : Text) : Fault → Tree → Prop
  | unopened {c : Content} {f : Fault} (hwrite : t.write p c = .error f) : WriteFails t p text f t
  | stopped {u : Tree} (cut : Cut) (hwrite : t.write p (cut.content text) = .ok u) :
      WriteFails t p text cut.fault u

namespace Session

inductive Writing (p : Path) (text : Text) (s : Session) : Except Fault Unit → Session → Prop
  | failed {f : Fault} {u : Tree} (hwrite : s.tree.WriteFails p text f u) :
      Writing p text s (.error f) { s with tree := u, cuts := s.cuts.tail }
  | written {u : Tree} (hwrite : s.tree.write p (.text text) = .ok u) :
      Writing p text s (.ok ()) { s with tree := u, cuts := s.cuts.tail }

theorem run_write (p : Path) (text : Text) (s : Session) :
    (write p text).run s =
      match s.cuts.head?.join with
      | none => (change (·.write p (.text text))).run { s with cuts := s.cuts.tail }
      | some cut =>
        match (change (·.write p (cut.content text))).run { s with cuts := s.cuts.tail } with
        | (.error f, m) => (.error f, m)
        | (.ok (), m) => (.error cut.fault, m) := by
  have hnext : nextCut.run s = (s.cuts.head?.join, { s with cuts := s.cuts.tail }) := rfl
  rw [write, StateT.run_bind, hnext]
  cases s.cuts.head?.join with
  | none => rfl
  | some cut =>
    show (change (·.write p (cut.content text)) >>= _).run { s with cuts := s.cuts.tail } = _
    rw [StateT.run_bind]
    dsimp only
    rcases (change (·.write p (cut.content text))).run { s with cuts := s.cuts.tail } with ⟨_ | _, m⟩
      <;> rfl

theorem writing_of_run {p : Path} {text : Text} {s s' : Session} {r : Except Fault Unit}
    (h : (write p text).run s = (r, s')) : Writing p text s r s' := by
  rw [run_write] at h
  split at h
  · rw [Task.run_change] at h
    split at h
    · next u hu =>
      obtain ⟨rfl, rfl⟩ := Prod.mk.inj h
      exact .written hu
    · next f hf =>
      obtain ⟨rfl, rfl⟩ := Prod.mk.inj h
      exact .failed (.unopened hf)
  · next cut _ =>
    rw [Task.run_change] at h
    dsimp only at h
    cases hwrite : s.tree.write p (cut.content text) with
    | error f =>
      rw [hwrite] at h
      obtain ⟨rfl, rfl⟩ := Prod.mk.inj h
      exact .failed (.unopened hwrite)
    | ok u =>
      rw [hwrite] at h
      obtain ⟨rfl, rfl⟩ := Prod.mk.inj h
      exact .failed (.stopped cut hwrite)

end Session

namespace Task
variable {ε : Type} {unmade : Path → Fault → ε} {unwritten : Fault → ε} {p : Path} {content : Text}
  {s s' : Session} {r : Except ε Unit}

@[simp] theorem outcome_need_makeDirectories (failure : Fault → ε) (p : Path) (s : Session) :
    (need failure (Session.makeDirectories p)).outcome s =
      ((s.tree.makeDirectories p).1.mapError failure,
        { s with tree := (s.tree.makeDirectories p).2 }) := by
  rw [outcome_need]
  rfl

/-- How the write of a file ends after the directories above it are made. -/
inductive Saving (unmade : Path → Fault → ε) (unwritten : Fault → ε) (p : Path) (content : Text)
    (s : Session) : Except ε Unit → Session → Prop
  | unmade {parent : Path} {f : Fault} (hparent : p.parent? = some parent)
      (hmake : (s.tree.makeDirectories parent).1 = .error f) :
      Saving unmade unwritten p content s (.error (unmade parent f))
        { s with tree := s.tree.parentsMade p }
  | unwritten {f : Fault} {u : Tree} (hwrite : (s.tree.parentsMade p).WriteFails p content f u) :
      Saving unmade unwritten p content s (.error (unwritten f))
        { s with tree := u, cuts := s.cuts.tail }
  | saved {u : Tree} (hwrite : (s.tree.parentsMade p).write p (.text content) = .ok u) :
      Saving unmade unwritten p content s (.ok ()) { s with tree := u, cuts := s.cuts.tail }

theorem saving_of_outcome
    (h : outcome (do
      if let some parent := p.parent? then
        need (unmade parent) (Session.makeDirectories parent)
      need unwritten (Session.write p content)) s = (r, s')) :
    Saving unmade unwritten p content s r s' := by
  have hwrite {m : Session} (hm : m = { s with tree := s.tree.parentsMade p })
      (h : (need unwritten (Session.write p content)).outcome m = (r, s')) :
      Saving unmade unwritten p content s r s' := by
    rw [outcome_need] at h
    rcases hrun : (Session.write p content).run m with ⟨result, n⟩
    have hwriting := Session.writing_of_run hrun
    rw [hrun] at h
    subst hm
    cases hwriting with
    | failed hfails =>
      obtain ⟨rfl, rfl⟩ := Prod.mk.inj h
      exact .unwritten hfails
    | written hwritten =>
      obtain ⟨rfl, rfl⟩ := Prod.mk.inj h
      exact .saved hwritten
  cases hparent : p.parent? with
  | none =>
    rw [hparent] at h
    exact hwrite (by rw [Tree.parentsMade, hparent]) h
  | some parent =>
    have htree : (s.tree.makeDirectories parent).2 = s.tree.parentsMade p := by
      rw [Tree.parentsMade, hparent]
    rw [hparent] at h
    dsimp only at h
    rw [outcome_bind, outcome_need_makeDirectories, htree] at h
    cases hmake : (s.tree.makeDirectories parent).1 with
    | error f =>
      rw [hmake] at h
      obtain ⟨rfl, rfl⟩ := Prod.mk.inj h
      exact .unmade hparent hmake
    | ok made =>
      rw [hmake] at h
      exact hwrite rfl h

end Task
end PatternBridge
