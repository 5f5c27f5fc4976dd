import PatternBridge.DataFile
import PatternBridge.Proofs.Json.Quoting
import PatternBridge.Proofs.Session.Outcome

/-! Which pairs a set of keys holds, and which of them a data file lacks. A set keeps the first pair
under each key, and what it is filtered by its keys can be filtered from the pairs before. -/

namespace PatternBridge

namespace KeySet

theorem has_iff {k : KeySet} {key : Text} : k.has key ↔ ∃ p ∈ k.pairs, p.1 = key := by
  rw [has, keys, List.contains_iff_mem, List.mem_map]

theorem pairs_insert (k : KeySet) (p : Text × Text) :
    (k.insert p).pairs = if k.has p.1 then k.pairs else k.pairs ++ [p] := by
  unfold insert
  split <;> rfl

theorem lookup_foldl_insert (pairs : List (Text × Text)) (k : KeySet) (key : Text) :
    (pairs.foldl insert k).pairs.lookup key = (k.pairs.lookup key).or (pairs.lookup key) := by
  induction pairs generalizing k with
  | nil => exact (Option.or_none).symm
  | cons p pairs ih =>
    have hcons : ([p] ++ pairs).lookup key = ([p].lookup key).or (pairs.lookup key) :=
      List.lookup_append
    rw [List.singleton_append] at hcons
    rw [List.foldl_cons, ih, pairs_insert, hcons]
    split
    · next hp =>
      by_cases hkey : key = p.1
      · -- the value that is there already stays
        obtain ⟨q, hq, heq⟩ := has_iff.1 hp
        obtain ⟨v, hv⟩ := Option.isSome_iff_exists.1
          (List.lookup_isSome_iff.2 ⟨q, hq, beq_iff_eq.2 (hkey.trans heq.symm)⟩)
        rw [hv, Option.some_or, Option.some_or]
      · have hnone : [p].lookup key = none :=
          List.lookup_eq_none_iff.2 fun q hq => by simpa [List.mem_singleton.1 hq] using hkey
        rw [hnone, Option.none_or]
    · rw [List.lookup_append, Option.or_assoc]

theorem lookup_ofPairs (pairs : List (Text × Text)) (key : Text) :
    (ofPairs pairs).pairs.lookup key = pairs.lookup key :=
  lookup_foldl_insert pairs {} key

theorem has_ofPairs {pairs : List (Text × Text)} {key : Text} :
    (ofPairs pairs).has key ↔ ∃ p ∈ pairs, p.1 = key := by
  have hlookup := congrArg Option.isSome (lookup_ofPairs pairs key)
  rw [Bool.eq_iff_iff, List.lookup_isSome_iff, List.lookup_isSome_iff] at hlookup
  simp only [beq_iff_eq] at hlookup
  rw [has_iff]
  exact ⟨fun ⟨p, hp, heq⟩ => (hlookup.1 ⟨p, hp, heq.symm⟩).imp fun q hq => ⟨hq.1, hq.2.symm⟩,
    fun ⟨p, hp, heq⟩ => (hlookup.2 ⟨p, hp, heq.symm⟩).imp fun q hq => ⟨hq.1, hq.2.symm⟩⟩

theorem filter_foldl_insert (f : Text → Bool) (pairs : List (Text × Text)) {k k' : KeySet}
    (h : k'.pairs = k.pairs.filter fun p => f p.1) :
    ((pairs.filter fun p => f p.1).foldl insert k').pairs =
      (pairs.foldl insert k).pairs.filter fun p => f p.1 := by
  induction pairs generalizing k k' with
  | nil => exact h
  | cons p pairs ih =>
    rw [List.foldl_cons, List.filter_cons]
    split
    · next hp =>
      have hhas : k'.has p.1 ↔ k.has p.1 := by
        simp only [has_iff, h, List.mem_filter]
        exact ⟨fun ⟨q, hq, heq⟩ => ⟨q, hq.1, heq⟩, fun ⟨q, hq, heq⟩ => ⟨q, ⟨hq, heq ▸ hp⟩, heq⟩⟩
      apply ih
      rw [pairs_insert, pairs_insert, Bool.eq_iff_iff.2 hhas, h]
      split
      · rfl
      · simp [hp]
    · next hp =>
      apply ih
      rw [pairs_insert, h]
      split
      · rfl
      · simp [hp]

theorem filter_ofPairs (f : Text → Bool) (pairs : List (Text × Text)) :
    (ofPairs (pairs.filter fun p => f p.1)).pairs = (ofPairs pairs).pairs.filter fun p => f p.1 :=
  filter_foldl_insert f pairs rfl

theorem lookup_filter {f : Text → Bool} {key : Text} (h : f key = true)
    (pairs : List (Text × Text)) :
    (pairs.filter fun p => f p.1).lookup key = pairs.lookup key := by
  induction pairs with
  | nil => rfl
  | cons p pairs ih =>
    obtain ⟨k, v⟩ := p
    by_cases hk : key = k
    · subst hk
      rw [List.filter_cons, if_pos h, List.lookup_cons_self, List.lookup_cons_self]
    · have hne : (key == k) = false := beq_eq_false_iff_ne.2 hk
      rw [List.filter_cons, List.lookup_cons, hne]
      split
      · rw [List.lookup_cons, hne]
        exact ih
      · exact ih

end KeySet

namespace DataFile
variable {d : DataFile} {k : KeySet} {key : Text}

theorem overlay_lacking (d : DataFile) (k : KeySet) :
    d.members.overlay ((d.lacking k.pairs).map fun p => (p.1, .string p.2)) =
      d.members ++ (d.lacking k.pairs).map fun p => (p.1, .string p.2) := by
  apply Json.Members.overlay_of_not_hasKey
  · intro m hm
    obtain ⟨p, hp, rfl⟩ := List.mem_map.1 hm
    simpa [contains] using (List.mem_filter.1 hp).2
  · rw [List.map_map]
    exact k.nodup.sublist (List.filter_sublist.map Prod.fst)

def grown (d : DataFile) (k : KeySet) : DataFile :=
  { d with members := d.members ++ (d.lacking k.pairs).map fun p => (p.1, .string p.2) }

theorem contains_grown (d : DataFile) (k : KeySet) (key : Text) :
    (d.grown k).contains key = (d.contains key || k.has key) := by
  have hlacking : ((d.lacking k.pairs).map fun p => (p.1, Json.Value.string p.2)).any (·.1 == key) =
      (!d.contains key && k.has key) := by
    apply Bool.eq_iff_iff.2
    simp only [lacking, List.any_map, List.any_filter, Function.comp, List.any_eq_true,
      Bool.and_eq_true, Bool.not_eq_true', beq_iff_eq, KeySet.has_iff]
    constructor
    · rintro ⟨p, hp, hnone, rfl⟩
      exact ⟨hnone, p, hp, rfl⟩
    · rintro ⟨hnone, p, hp, rfl⟩
      exact ⟨p, hp, hnone, rfl⟩
  rw [contains, grown, Json.Members.hasKey, List.any_append, hlacking, contains, Json.Members.hasKey]
  cases d.members.any (·.1 == key) <;> simp

theorem lacking_grown (d : DataFile) (k : KeySet) (pairs : List (Text × Text)) :
    (d.grown k).lacking pairs = (d.lacking pairs).filter fun p => !k.has p.1 := by
  rw [lacking, lacking, List.filter_filter]
  apply List.filter_congr
  intro p _
  rw [contains_grown, Bool.not_or, Bool.and_comm]

theorem missingKeys_grown (d : DataFile) (k : KeySet) (pairs : List (Text × Text)) :
    ((d.grown k).missingKeys pairs).pairs =
      (d.missingKeys pairs).pairs.filter fun p => !k.has p.1 := by
  rw [missingKeys, lacking_grown, KeySet.filter_ofPairs (fun key => !k.has key)]
  rfl

theorem run_add_of_unusable {f : DataFault} (hs : d.source = .error f) (k : KeySet) (s : Session) :
    (d.add k).run s = ((.ok [], d), if k.pairs.isEmpty then s else { s with
      log := s.log ++ [⟨"warn", f.message ++ ", not adding " ++ Text.join ", " k.keys⟩] }) := by
  unfold add
  split
  · rfl
  · rw [hs]
    rfl

theorem run_add_of_complete {source : Option Text} (hs : d.source = .ok source)
    (h : d.lacking k.pairs = []) (s : Session) : (d.add k).run s = ((.ok [], d), s) := by
  unfold add
  split
  · rfl
  · rw [hs]
    dsimp only
    rw [h]
    rfl

theorem run_add {source : Option Text} (hs : d.source = .ok source) (h : d.lacking k.pairs ≠ [])
    (s : Session) : (d.add k).run s =
      match splice? (source.getD emptyText) (d.lacking k.pairs) (!d.members.isEmpty) with
      | none => ((.error (.notObject d.path), d.grown k), s)
      | some text =>
        match (save d.path text).outcome s with
        | (.error f, s') => ((.error f, d.grown k), s')
        | (.ok (), s') => ((.ok ((d.lacking k.pairs).map Prod.fst),
            { d.grown k with source := .ok (some text) }), s') := by
  have hpairs : k.pairs.isEmpty = false := by
    cases hk : k.pairs with
    | nil => exact absurd (by rw [hk]; rfl) h
    | cons p pairs => rfl
  have hlacking : (d.lacking k.pairs).isEmpty = false := by simpa using h
  have hgrown := overlay_lacking d k
  obtain ⟨path, members, _⟩ := d
  obtain rfl := hs
  unfold add
  rw [hpairs, if_neg Bool.false_ne_true]
  dsimp only at hgrown ⊢
  rw [hlacking, if_neg Bool.false_ne_true, hgrown]
  cases splice? (source.getD emptyText) (lacking ⟨path, members, .ok source⟩ k.pairs)
    (!members.isEmpty) with
  | none => rfl
  | some text =>
    dsimp only
    rw [StateT.run_bind, Task.outcome]
    rcases StateT.run (ExceptT.run (save path text)) s with ⟨_ | _, m⟩ <;> rfl

inductive Adding (d : DataFile) (k : KeySet) (s : Session) :
    Except DataFault (List Text) → DataFile → Session → Prop
  | idle {log : List LogLine} (hidle : ∀ source, d.source = .ok source → d.lacking k.pairs = []) :
      Adding d k s (.ok []) d { s with log }
  | unclosed {source : Option Text} (hs : d.source = .ok source) (hlacking : d.lacking k.pairs ≠ [])
      (hsplice : splice? (source.getD emptyText) (d.lacking k.pairs) (!d.members.isEmpty) = none) :
      Adding d k s (.error (.notObject d.path)) (d.grown k) s
  | unsaved {source : Option Text} {text : Text} {f : DataFault} {s' : Session}
      (hs : d.source = .ok source) (hlacking : d.lacking k.pairs ≠ [])
      (hsplice : splice? (source.getD emptyText) (d.lacking k.pairs) (!d.members.isEmpty) = some text)
      (hsave : (save d.path text).outcome s = (.error f, s')) :
      Adding d k s (.error f) (d.grown k) s'
  | saved {source : Option Text} {text : Text} {s' : Session}
      (hs : d.source = .ok source) (hlacking : d.lacking k.pairs ≠ [])
      (hsplice : splice? (source.getD emptyText) (d.lacking k.pairs) (!d.members.isEmpty) = some text)
      (hsave : (save d.path text).outcome s = (.ok (), s')) :
      Adding d k s (.ok ((d.lacking k.pairs).map Prod.fst))
        { d.grown k with source := .ok (some text) } s'

theorem adding_of_run {d' : DataFile} {s s' : Session} {r : Except DataFault (List Text)}
    (h : (d.add k).run s = ((r, d'), s')) : Adding d k s r d' s' := by
  cases hs : d.source with
  | error f =>
    have hidle (source : Option Text) (h : d.source = .ok source) : d.lacking k.pairs = [] := by
      rw [hs] at h
      cases h
    rw [run_add_of_unusable hs] at h
    split at h
    · cases h
      exact .idle hidle
    · cases h
      exact .idle hidle
  | ok source =>
    by_cases hlacking : d.lacking k.pairs = []
    · rw [run_add_of_complete hs hlacking] at h
      cases h
      exact .idle fun _ _ => hlacking
    · rw [run_add hs hlacking] at h
      split at h
      · next hsplice =>
        cases h
        exact .unclosed hs hlacking hsplice
      · next text hsplice =>
        split at h
        · next hsave =>
          cases h
          exact .unsaved hs hlacking hsplice hsave
        · next hsave =>
          cases h
          exact .saved hs hlacking hsplice hsave

end DataFile
end PatternBridge
