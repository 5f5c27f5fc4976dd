import PatternBridge.Encode
import PatternBridge.Proofs.Braces.Recovery
import PatternBridge.Proofs.Session.Saving

/-! Encoding one template. `FileRun` lists the ways in which it can end, each with the tree it
leaves; a dialect that gives back what it escapes never logs a warning on the way. -/

namespace PatternBridge

theorem Dialect.eq_handlebars_of_find? {tag : Text} {d : Dialect} (h : Dialect.find? tag = some d) :
    d = handlebars := by
  have hd : d ∈ Dialect.all := List.mem_of_find?_eq_some h
  simpa [Dialect.all] using hd

theorem Dialect.decode_encode_of_find? {tag : Text} {d : Dialect} (h : Dialect.find? tag = some d)
    (s : Text) : d.decode (d.encode s) = s := by
  rw [Dialect.eq_handlebars_of_find? h]
  exact Braces.decode_encode s

namespace Encode

def encodedLine (ext : Text) (root source : Path) : LogLine :=
  ⟨"encode", source.shownFrom root ++ " encoded to " ++
    (outputs ext source).encoded.shownFrom root ++ "."⟩

/-- How encoding one template ends: at the first of its four steps that fails, or well. -/
inductive FileRun (d : Dialect) (ext : Text) (root source : Path) (s : Session) :
    Except EncodeFault EncodedFile → Session → Prop where
  | unread {f : Fault} (hread : s.tree.read source = .error f) :
      FileRun d ext root source s (.error (.file source f)) s
  | unescaped {content : Text} {f : Fault} {t : Tree} (hread : s.tree.read source = .ok content)
      (hwrite : s.tree.WriteFails (outputs ext source).encoded (d.encode content) f t) :
      FileRun d ext root source s (.error (.file (outputs ext source).encoded f))
        { s with tree := t, cuts := s.cuts.tail }
  | unpaired {content : Text} {t u : Tree} {f : Fault} (hread : s.tree.read source = .ok content)
      (hwrite : s.tree.write (outputs ext source).encoded (.text (d.encode content)) = .ok t)
      (hpair : t.WriteFails (outputs ext source).sidecar d.sidecarText f u) :
      FileRun d ext root source s (.error (.file (outputs ext source).sidecar f))
        { s with tree := u, cuts := s.cuts.tail.tail }
  | unremoved {content : Text} {t u : Tree} {f : Fault} (hread : s.tree.read source = .ok content)
      (hwrite : s.tree.write (outputs ext source).encoded (.text (d.encode content)) = .ok t)
      (hpair : t.write (outputs ext source).sidecar (.text d.sidecarText) = .ok u)
      (hremove : u.remove source = .error f) :
      FileRun d ext root source s (.error (.file source f))
        { s with tree := u, log := s.log ++ [encodedLine ext root source], cuts := s.cuts.tail.tail }
  | replaced {content : Text} {t u v : Tree} (hread : s.tree.read source = .ok content)
      (hwrite : s.tree.write (outputs ext source).encoded (.text (d.encode content)) = .ok t)
      (hpair : t.write (outputs ext source).sidecar (.text d.sidecarText) = .ok u)
      (hremove : u.remove source = .ok v) :
      FileRun d ext root source s (.ok (outputs ext source))
        { s with tree := v, log := s.log ++ [encodedLine ext root source], cuts := s.cuts.tail.tail }

theorem writing_of_writeText {p : Path} {text : Text} {s s' : Session}
    {r : Except EncodeFault Unit} (h : (writeText p text).outcome s = (r, s')) :
    ∃ result, r = result.mapError (.file p) ∧ Session.Writing p text s result s' := by
  rw [writeText, Task.outcome_need] at h
  obtain ⟨rfl, rfl⟩ := Prod.mk.inj h
  exact ⟨_, rfl, Session.writing_of_run rfl⟩

theorem fileRun_encodeFile {d : Dialect} (hd : ∀ c, d.decode (d.encode c) = c) (ext : Text)
    (root source : Path) (s : Session) :
    FileRun d ext root source s ((encodeFile d ext root source).outcome s).1
      ((encodeFile d ext root source).outcome s).2 := by
  have hsilent (c : Text) : (d.decode (d.encode c) != c) = false := by simp [hd]
  simp only [encodeFile, Task.outcome_bind, Task.outcome_need_ask]
  cases hread : s.tree.read source with
  | error f => exact .unread hread
  | ok content =>
    simp only [hsilent, Bool.false_eq_true, if_false, Task.outcome_bind, Task.outcome_pure]
    rcases hescape : (writeText (outputs ext source).encoded (d.encode content)).outcome s with ⟨r, m⟩
    obtain ⟨result, rfl, hescaped⟩ := writing_of_writeText hescape
    cases hescaped with
    | failed hwrite => exact .unescaped hread hwrite
    | @written t hwrite =>
      dsimp only [Except.mapError]
      rcases hpair : (writeText (outputs ext source).sidecar d.sidecarText).outcome
        { s with tree := t, cuts := s.cuts.tail } with ⟨r, m⟩
      obtain ⟨result, rfl, hpaired⟩ := writing_of_writeText hpair
      cases hpaired with
      | failed hwrite' => exact .unpaired hread hwrite hwrite'
      | @written u hwrite' =>
        simp only [Except.mapError, Task.outcome_say, Task.outcome_need_change]
        cases hremove : u.remove source with
        | error f => exact .unremoved hread hwrite hwrite' hremove
        | ok v => exact .replaced hread hwrite hwrite' hremove

theorem FileRun.log_eq {d : Dialect} {ext : Text} {root source : Path} {s s' : Session}
    {r : Except EncodeFault EncodedFile} (h : FileRun d ext root source s r s') :
    s'.log = s.log ∨ s'.log = s.log ++ [encodedLine ext root source] := by
  cases h with
  | unread | unescaped | unpaired => exact .inl rfl
  | unremoved | replaced => exact .inr rfl

theorem escaping_recovers_without_warning :
    (∀ s, Braces.decode (Braces.encode s) = s) ∧ Function.Injective Braces.encode ∧
    ∀ (ext : Text) (root source : Path) (s : Session),
      ∃ lines, ((encodeFile .handlebars ext root source).outcome s).2.log = s.log ++ lines ∧
        ∀ line ∈ lines, line.source ≠ "warn".toList := by
  refine ⟨Braces.decode_encode, Braces.encode_injective, fun ext root source s => ?_⟩
  have hrun := fileRun_encodeFile (d := .handlebars) Braces.decode_encode ext root source s
  obtain h | h := hrun.log_eq
  · exact ⟨[], by simp [h], by simp⟩
  · refine ⟨_, h, ?_⟩
    intro line hline
    have hsource : line.source = "encode".toList := by
      rw [List.mem_singleton.1 hline]
      rfl
    rw [hsource]
    decide

end Encode

end PatternBridge
