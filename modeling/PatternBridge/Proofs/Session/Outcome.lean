import PatternBridge.Session

/-! What a task gives for a session, and the session it leaves. Each way to build a task has one
equation, so that a program over sessions opens by rewriting. -/

namespace PatternBridge.Task
variable {ε α β : Type}

def outcome (task : Task ε α) (s : Session) : Except ε α × Session := task.run.run s

@[simp] theorem outcome_pure (a : α) (s : Session) :
    (pure a : Task ε α).outcome s = (.ok a, s) := rfl

@[simp] theorem outcome_throw (e : ε) (s : Session) :
    (throw e : Task ε α).outcome s = (.error e, s) := rfl

theorem outcome_bind (task : Task ε α) (next : α → Task ε β) (s : Session) :
    (task >>= next).outcome s =
      match task.outcome s with
      | (.ok a, s') => (next a).outcome s'
      | (.error e, s') => (.error e, s') := by
  simp only [outcome, ExceptT.run_bind, StateT.run_bind]
  rcases StateT.run (ExceptT.run task) s with ⟨_ | _, _⟩ <;> rfl

@[simp] theorem outcome_liftM (run : StateM Session α) (s : Session) :
    (liftM run : Task ε α).outcome s = (.ok (run.run s).1, (run.run s).2) := rfl

@[simp] theorem outcome_say (source : String) (message : Text) (s : Session) :
    (Session.say source message : Task ε Unit).outcome s =
      (.ok (), { s with log := s.log ++ [⟨source, message⟩] }) := rfl

@[simp] theorem outcome_ask (f : Tree → α) (s : Session) :
    (Session.ask f : Task ε α).outcome s = (.ok (f s.tree), s) := rfl

@[simp] theorem outcome_get (s : Session) : (get : Task ε Session).outcome s = (.ok s, s) := rfl

@[simp] theorem outcome_mk_ask (f : Tree → Except ε α) (s : Session) :
    outcome (ExceptT.mk (Session.ask f)) s = (f s.tree, s) := rfl

@[simp] theorem outcome_adapt {ε' : Type} (f : ε → ε') (task : Task ε α) (s : Session) :
    outcome (ExceptT.adapt f task) s = ((task.outcome s).1.mapError f, (task.outcome s).2) := rfl

theorem outcome_eq_ok {task : Task ε α} {s : Session} {a : α}
    (h : (task.outcome s).1.toOption = some a) : task.outcome s = (.ok a, (task.outcome s).2) := by
  rcases hrun : task.outcome s with ⟨e | b, s'⟩
  · rw [hrun] at h
    cases h
  · rw [hrun] at h
    rw [Option.some.inj h]

theorem outcome_need (failure : Fault → ε) (run : StateM Session (Except Fault α)) (s : Session) :
    (need failure run).outcome s = ((run.run s).1.mapError failure, (run.run s).2) := by
  have h : (need failure run).outcome s =
      match run.run s with
      | (.ok a, s') => (.ok a, s')
      | (.error f, s') => (.error (failure f), s') := by
    simp only [need, outcome, ExceptT.run_mk, StateT.run_bind]
    rcases run.run s with ⟨_ | _, _⟩ <;> rfl
  rw [h]
  rcases run.run s with ⟨_ | _, _⟩ <;> rfl

@[simp] theorem outcome_need_ask (failure : Fault → ε) (f : Tree → Except Fault α) (s : Session) :
    (need failure (Session.ask f)).outcome s =
      match f s.tree with
      | .ok a => (.ok a, s)
      | .error e => (.error (failure e), s) := by
  rw [outcome_need, Session.ask]
  show ((f s.tree).mapError failure, s) = _
  cases f s.tree <;> rfl

theorem run_change (f : Tree → Except Fault Tree) (s : Session) :
    (Session.change f).run s =
      match f s.tree with
      | .ok tree => (.ok (), { s with tree })
      | .error e => (.error e, s) := by
  simp only [Session.change, StateT.run_bind, StateT.run_get, pure_bind]
  cases f s.tree <;> rfl

@[simp] theorem outcome_need_change (failure : Fault → ε) (f : Tree → Except Fault Tree)
    (s : Session) :
    (need failure (Session.change f)).outcome s =
      match f s.tree with
      | .ok tree => (.ok (), { s with tree })
      | .error e => (.error (failure e), s) := by
  rw [outcome_need, run_change]
  cases f s.tree <;> rfl

theorem exists_of_foldlM_eq_error {step : β → α → Task ε β} {b : β} {xs : List α} {s s' : Session}
    {e : ε} (h : (xs.foldlM step b).outcome s = (.error e, s')) :
    ∃ before x after c m, xs = before ++ x :: after ∧
      (before.foldlM step b).outcome s = (.ok c, m) ∧ (step c x).outcome m = (.error e, s') := by
  induction xs generalizing b s with
  | nil => cases h
  | cons x xs ih =>
    rw [List.foldlM_cons, outcome_bind] at h
    split at h
    · next c m hstep =>
      obtain ⟨before, y, after, c', m', rfl, hbefore, herror⟩ := ih h
      refine ⟨x :: before, y, after, c', m', rfl, ?_, herror⟩
      rw [List.foldlM_cons, outcome_bind, hstep]
      exact hbefore
    · next e' m hstep =>
      obtain ⟨herror, rfl⟩ := Prod.mk.inj h
      obtain rfl := Except.error.inj herror
      exact ⟨[], x, xs, b, s, rfl, rfl, hstep⟩

end PatternBridge.Task
