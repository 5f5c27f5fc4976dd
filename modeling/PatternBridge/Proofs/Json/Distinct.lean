import PatternBridge.Proofs.Json.Steps

/-! No key of an object that is read is there twice, nor in the objects among its members: a member
goes into its object by `put`, which takes the place of one under the same key, and no step of a
reader changes an object otherwise. -/

namespace PatternBridge.Json

def Members.Distinct (ms : Members) : Prop := (ms.map Prod.fst).Nodup

theorem Members.keys_put (key : Text) (v : Value) (ms : Members) :
    (ms.put key v).map Prod.fst =
      if ms.hasKey key then ms.map Prod.fst else ms.map Prod.fst ++ [key] := by
  induction ms with
  | nil => rfl
  | cons m ms ih =>
    rw [put, hasKey, List.any_cons]
    cases hm : m.1 == key with
    | true => simp [eq_of_beq hm]
    | false =>
      rw [if_neg Bool.false_ne_true, List.map_cons, ih, Bool.false_or, hasKey]
      split <;> rfl

theorem Members.Distinct.put {ms : Members} (h : ms.Distinct) (key : Text) (v : Value) :
    (ms.put key v).Distinct := by
  rw [Distinct, keys_put]
  split
  · exact h
  · next hkey =>
    refine List.nodup_append.2 ⟨h, by simp, ?_⟩
    rintro a ha b hb rfl
    obtain ⟨m, hm, rfl⟩ := List.mem_map.1 ha
    exact hkey (List.any_eq_true.2 ⟨m, hm, beq_iff_eq.2 (List.mem_singleton.1 hb)⟩)

theorem Members.eq_or_mem_of_mem_put {key : Text} {v : Value} {m : Text × Value} {ms : Members}
    (h : m ∈ ms.put key v) : m = (key, v) ∨ m ∈ ms := by
  induction ms with
  | nil => exact .inl (List.mem_singleton.1 h)
  | cons head ms ih =>
    rw [put] at h
    split at h
    · exact (List.mem_cons.1 h).imp_right (List.mem_cons_of_mem _)
    · obtain rfl | h := List.mem_cons.1 h
      · exact .inr List.mem_cons_self
      · exact (ih h).imp_right (List.mem_cons_of_mem _)

/-- Neither the value, if it is an object, nor an object among its members, at any depth, has two
members of one key. -/
inductive Value.Distinct : Value → Prop
  | other {v : Value} (hv : v.members? = none) : v.Distinct
  | object {ms : Members} (hkeys : ms.Distinct) (hmembers : ∀ m ∈ ms, m.2.Distinct) :
    (Value.object ms).Distinct

namespace Value.Distinct
variable {ms : Members}

theorem keys (h : (Value.object ms).Distinct) : ms.Distinct := by
  cases h with
  | other hv => cases hv
  | object hkeys => exact hkeys

theorem members (h : (Value.object ms).Distinct) : ∀ m ∈ ms, m.2.Distinct := by
  cases h with
  | other hv => cases hv
  | object _ hmembers => exact hmembers

theorem put (h : (Value.object ms).Distinct) (key : Text) {v : Value} (hv : v.Distinct) :
    (Value.object (ms.put key v)).Distinct := by
  refine .object (h.keys.put key v) fun m hm => ?_
  obtain rfl | hm := Members.eq_or_mem_of_mem_put hm
  · exact hv
  · exact h.members m hm

end Value.Distinct

namespace Reader

/-- The objects that a reader is in have distinct keys, and so has the value that it has read. -/
structure Distinct (r : Reader) : Prop where
  frames : ∀ {ms : Members} {key : Text}, Frame.object ms key ∈ r.frames → (Value.object ms).Distinct
  finished : ∀ {v : Value}, r.await = .finished v → v.Distinct

theorem distinct_place {v : Value} {r : Reader}
    (hframes : ∀ {ms : Members} {key : Text}, Frame.object ms key ∈ r.frames →
      (Value.object ms).Distinct)
    (hv : v.Distinct) : (r.place v).Distinct := by
  unfold place
  split
  · exact ⟨hframes, fun hawait => Await.finished.inj hawait ▸ hv⟩
  · next items fs h =>
    refine ⟨fun hmem => ?_, nofun⟩
    cases hmem with
    | tail _ hmem => exact hframes (h ▸ List.mem_cons_of_mem _ hmem)
  · next ms key fs h =>
    refine ⟨fun hmem => ?_, nofun⟩
    cases hmem with
    | head => exact (hframes (h ▸ List.mem_cons_self)).put key hv
    | tail _ hmem => exact hframes (h ▸ List.mem_cons_of_mem _ hmem)

theorem Distinct.settle {r q : Reader} (hr : r.Distinct) (h : r.settle = some q) : q.Distinct := by
  obtain ⟨rfl, -⟩ | ⟨_, _, _, -, rfl⟩ := settle_cases h
  · exact hr
  · exact distinct_place hr.frames (.other rfl)

theorem Distinct.turn {r r' : Reader} {c : Char} (hr : r.Distinct) (h : r.Turn c r') :
    r'.Distinct := by
  cases h with
  | space => exact hr
  | openArray =>
    refine ⟨fun hmem => ?_, nofun⟩
    cases hmem with
    | tail _ hmem => exact hr.frames hmem
  | openObject =>
    refine ⟨fun hmem => ?_, nofun⟩
    cases hmem with
    | head => exact .object List.nodup_nil nofun
    | tail _ hmem => exact hr.frames hmem
  | closeArray hframes =>
    exact distinct_place (fun hmem => hr.frames (hframes ▸ List.mem_cons_of_mem _ hmem)) (.other rfl)
  | closeObject hframes _ =>
    exact distinct_place (fun hmem => hr.frames (hframes ▸ List.mem_cons_of_mem _ hmem))
      (hr.frames (hframes ▸ List.mem_cons_self))
  | comma ha => rcases ha with rfl | rfl <;> exact ⟨hr.frames, nofun⟩
  | colon => exact ⟨hr.frames, nofun⟩
  | lexeme => exact ⟨hr.frames, hr.finished⟩

theorem Distinct.step {r r' : Reader} {c : Char} (hr : r.Distinct) (h : r.Step c r') :
    r'.Distinct := by
  cases h with
  | between hsettle hturn => exact (hr.settle hsettle).turn hturn
  | inside => exact ⟨hr.frames, hr.finished⟩
  | value _ hv => exact distinct_place hr.frames (.other hv)
  | key _ hframes =>
    refine ⟨fun hmem => ?_, nofun⟩
    cases hmem with
    | head => exact hr.frames (hframes ▸ List.mem_cons_self)
    | tail _ hmem => exact hr.frames (hframes ▸ List.mem_cons_of_mem _ hmem)

theorem Distinct.foldlM {s : Text} {r r' : Reader} (hr : r.Distinct) (hs : r.Sound)
    (h : s.foldlM feed r = some r') : r'.Distinct := by
  induction s generalizing r with
  | nil => exact Option.some.inj h ▸ hr
  | cons c s ih =>
    rw [foldlM_cons] at h
    obtain ⟨q, hq, hrest⟩ := Option.bind_eq_some_iff.1 h
    have hstep := step_of_feed hs.lexeme hq
    exact ih (hr.step hstep) (hs.step hstep) hrest

end Reader

theorem Value.distinct_of_parse? {s : Text} {v : Value} (h : parse? s = some v) : v.Distinct := by
  obtain ⟨r, hr, hfinish⟩ := Option.bind_eq_some_iff.1 h
  have hstart : Reader.start.Distinct := ⟨nofun, nofun⟩
  unfold Reader.finish at hfinish
  obtain ⟨q, hsettled, hawait⟩ := Option.bind_eq_some_iff.1 hfinish
  have hq : q.Distinct := (hstart.foldlM Reader.sound_start hr).settle hsettled
  split at hawait
  · next v hv => exact hq.finished (Option.some.inj hawait ▸ hv)
  · cases hawait

theorem distinct_of_parse? {s : Text} {ms : Members} (h : parse? s = some (.object ms)) :
    ms.Distinct := (Value.distinct_of_parse? h).keys

end PatternBridge.Json
