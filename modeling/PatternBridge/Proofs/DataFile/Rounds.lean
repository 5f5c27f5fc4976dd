import PatternBridge.Proofs.DataFile.Growth
import PatternBridge.Proofs.Json.Distinct

/-! Reading a data file and adding what it lacks, over and over. A round leaves a file alone that
cannot be used or that has all the keys; any other has them all after one round, so that no later
one changes it. -/

namespace PatternBridge.DataFile

def membersAt (t : Tree) (path : Path) : Option Json.Members :=
  match t.read path with
  | .ok text => (Json.parse? text).bind Json.Value.members?
  | .error .notFound => some []
  | .error _ => none

def textAt (t : Tree) (path : Path) : Text :=
  match t.read path with
  | .ok text => text
  | .error _ => emptyText

/-- A file that has all the keys, or that cannot be used. -/
def Settled (t : Tree) (path : Path) (pairs : List (Text × Text)) : Prop :=
  ∀ ms, membersAt t path = some ms → ∀ p ∈ pairs, ms.hasKey p.1

def round (path : Path) (pairs : List (Text × Text)) :
    StateM Session (Except DataFault (List Text)) := do
  let d ← Session.ask (load · path)
  return (← d.add (d.missingKeys pairs)).1

def rounds (path : Path) (pairs : List (Text × Text)) :
    Nat → StateM Session (List (Except DataFault (List Text)))
  | 0 => return []
  | n + 1 => do
    let report ← round path pairs
    return report :: (← rounds path pairs n)

/-- The pairs that are added to an object: the first one under each key that it lacks. -/
def additions (ms : Json.Members) (pairs : List (Text × Text)) : List (Text × Text) :=
  (KeySet.ofPairs pairs).pairs.filter fun p => !ms.hasKey p.1

structure Filled (ms : Json.Members) (pairs : List (Text × Text)) (filled : Json.Members) :
    Prop where
  kept : ∃ new, filled = ms ++ new
  once : ∀ p ∈ pairs, (filled.map Prod.fst).count p.1 = 1
  first : ∀ p ∈ pairs, ms.hasKey p.1 = false →
    filled.find? p.1 = (pairs.lookup p.1).map .string

section
variable {t : Tree} {path : Path} {ms : Json.Members} {pairs : List (Text × Text)}

theorem load_of_unusable (h : membersAt t path = none) :
    ∃ f, load t path = { path, members := [], source := .error f } := by
  unfold membersAt at h
  unfold load contents
  cases hread : t.read path with
  | error f =>
    rw [hread] at h
    cases f with
    | notFound => cases h
    | _ => exact ⟨_, rfl⟩
  | ok text =>
    have hparse : (Json.parse? text).bind Json.Value.members? = none := by
      rw [hread] at h
      exact h
    dsimp only
    rw [membersOf]
    cases hv : Json.parse? text with
    | none => exact ⟨_, rfl⟩
    | some v =>
      rw [hv] at hparse
      cases v with
      | object ms => cases hparse
      | _ => exact ⟨_, rfl⟩

theorem load_of_membersAt (h : membersAt t path = some ms) :
    Json.parse? (textAt t path) = some (.object ms) ∧ ∃ source,
      load t path = { path, members := ms, source := .ok source } ∧
      source.getD emptyText = textAt t path := by
  unfold membersAt at h
  unfold textAt
  cases hread : t.read path with
  | error f =>
    rw [hread] at h
    cases f with
    | notFound =>
      obtain rfl := Option.some.inj h
      refine ⟨rfl, none, ?_, rfl⟩
      simp only [load, contents, hread]
    | _ => cases h
  | ok text =>
    have hparse : (Json.parse? text).bind Json.Value.members? = some ms := by
      rw [hread] at h
      exact h
    obtain ⟨v, hv, hmembers⟩ := Option.bind_eq_some_iff.1 hparse
    cases v with
    | object members =>
      obtain rfl := Option.some.inj hmembers
      exact ⟨hv, some text, load_of_object hread hv, rfl⟩
    | _ => cases hmembers

theorem run_round (path : Path) (pairs : List (Text × Text)) (s : Session) :
    (round path pairs).run s =
      ((((load s.tree path).add ((load s.tree path).missingKeys pairs)).run s).1.1,
        (((load s.tree path).add ((load s.tree path).missingKeys pairs)).run s).2) := rfl

theorem run_rounds_succ (path : Path) (pairs : List (Text × Text)) (n : Nat) {s s' : Session}
    {report : Except DataFault (List Text)} (h : (round path pairs).run s = (report, s')) :
    (rounds path pairs (n + 1)).run s =
      (report :: ((rounds path pairs n).run s').1, ((rounds path pairs n).run s').2) := by
  rw [rounds, StateT.run_bind, h]
  rfl

theorem missingKeys_pairs (d : DataFile) (pairs : List (Text × Text)) :
    (d.missingKeys pairs).pairs = additions d.members pairs :=
  KeySet.filter_ofPairs (fun key => !d.members.hasKey key) pairs

theorem lacking_missingKeys (d : DataFile) (pairs : List (Text × Text)) :
    d.lacking (d.missingKeys pairs).pairs = additions d.members pairs := by
  rw [missingKeys_pairs, additions, lacking, List.filter_filter]
  exact List.filter_congr fun p _ => Bool.and_self _

theorem lookup_additions {key : Text} (h : ms.hasKey key = false) :
    (additions ms pairs).lookup key = pairs.lookup key := by
  rw [additions, ← KeySet.filter_ofPairs fun key => !ms.hasKey key, KeySet.lookup_ofPairs]
  exact KeySet.lookup_filter (f := fun key => !ms.hasKey key) (by simp [h]) pairs

theorem mem_keys_additions {key : Text} :
    key ∈ (additions ms pairs).map Prod.fst ↔ ms.hasKey key = false ∧ ∃ p ∈ pairs, p.1 = key := by
  rw [← KeySet.has_ofPairs, KeySet.has_iff]
  simp only [additions, List.mem_map, List.mem_filter, Bool.not_eq_true']
  constructor
  · rintro ⟨p, ⟨hp, hnone⟩, rfl⟩
    exact ⟨hnone, p, hp, rfl⟩
  · rintro ⟨hnone, p, hp, rfl⟩
    exact ⟨p, ⟨hp, hnone⟩, rfl⟩

theorem additions_eq_nil_iff : additions ms pairs = [] ↔ ∀ p ∈ pairs, ms.hasKey p.1 := by
  rw [← List.map_eq_nil_iff (f := Prod.fst), List.eq_nil_iff_forall_not_mem]
  simp only [mem_keys_additions]
  constructor
  · intro h p hp
    by_contra hnone
    exact h p.1 ⟨Bool.eq_false_iff.2 hnone, p, hp, rfl⟩
  · rintro h key ⟨hnone, p, hp, rfl⟩
    rw [h p hp] at hnone
    cases hnone

theorem nodup_additions (ms : Json.Members) (pairs : List (Text × Text)) :
    ((additions ms pairs).map Prod.fst).Nodup :=
  (KeySet.ofPairs pairs).nodup.sublist (List.filter_sublist.map Prod.fst)

theorem find?_strings (pairs : List (Text × Text)) (key : Text) :
    Json.Members.find? key (pairs.map fun p => (p.1, .string p.2)) =
      (pairs.lookup key).map .string := by
  induction pairs with
  | nil => rfl
  | cons p pairs ih =>
    rw [Json.Members.find?, List.map_cons, List.lookup_cons, List.lookup_cons]
    cases key == p.1
    · exact ih
    · rfl

theorem mem_keys_iff {key : Text} : key ∈ ms.map Prod.fst ↔ ms.hasKey key := by
  simp [Json.Members.hasKey]

theorem filled_additions (hms : ms.Distinct) (pairs : List (Text × Text)) :
    Filled ms pairs (ms ++ (additions ms pairs).map fun p => (p.1, .string p.2)) where
  kept := ⟨_, rfl⟩
  once := by
    intro p hp
    have hkeys : (ms ++ (additions ms pairs).map fun p => (p.1, Json.Value.string p.2)).map Prod.fst =
        ms.map Prod.fst ++ (additions ms pairs).map Prod.fst := by
      rw [List.map_append, List.map_map]
      rfl
    rw [hkeys, List.count_append, List.Nodup.count hms, (nodup_additions ms pairs).count]
    simp only [mem_keys_iff, mem_keys_additions]
    cases ms.hasKey p.1 with
    | true => rfl
    | false => rw [if_neg Bool.false_ne_true, if_pos ⟨rfl, p, hp, rfl⟩]
  first := by
    intro p _ hnone
    have hold : ms.lookup p.1 = none := by
      apply List.lookup_eq_none_iff.2
      intro m hm
      apply bne_iff_ne.2
      intro heq
      rw [← Bool.not_eq_true, ← mem_keys_iff] at hnone
      exact hnone (List.mem_map.2 ⟨m, hm, heq.symm⟩)
    rw [Json.Members.find?, List.lookup_append, hold, Option.none_or]
    rw [← lookup_additions hnone]
    exact find?_strings _ _

/-- The first round saves the text with lines for all that was missing, or fails where that fails. -/
theorem run_round_of_lacking {s : Session} (hms : membersAt s.tree path = some ms)
    (hlacking : additions ms pairs ≠ []) :
    ∃ new, Extends ms (additions ms pairs) (textAt s.tree path) new ∧
      (round path pairs).run s = (((save path new).outcome s).1.map fun _ =>
        (additions ms pairs).map Prod.fst, ((save path new).outcome s).2) := by
  obtain ⟨hobject, source, hload, hsource⟩ := load_of_membersAt hms
  obtain ⟨before, onward, hcloses⟩ := Json.closes_of_parse? hobject
  obtain ⟨new, hnew⟩ : ∃ new, splice? (textAt s.tree path) (additions ms pairs) (!ms.isEmpty) =
      some new := by
    rw [splice?, hcloses.cutLast?]
    exact ⟨_, rfl⟩
  have hfresh : ∀ p ∈ additions ms pairs, ms.hasKey p.1 = false := fun p hp =>
    (mem_keys_additions.1 (List.mem_map_of_mem hp)).1
  refine ⟨new, extends_of_splice? hobject hlacking hfresh (nodup_additions ms pairs) hnew, ?_⟩
  have hadds := lacking_missingKeys (load s.tree path) pairs
  rw [run_round]
  rw [hload] at hadds ⊢
  rw [run_add rfl (hadds ▸ hlacking), hadds, hsource, hnew]
  dsimp only
  rcases (save path new).outcome s with ⟨_ | _, m⟩ <;> rfl

theorem run_round_of_complete {s : Session} (hms : membersAt s.tree path = some ms)
    (hall : ∀ p ∈ pairs, ms.hasKey p.1) : (round path pairs).run s = (.ok [], s) := by
  obtain ⟨-, source, hload, -⟩ := load_of_membersAt hms
  have hnone := lacking_missingKeys (load s.tree path) pairs
  rw [run_round]
  rw [hload] at hnone ⊢
  rw [run_add_of_complete rfl (hnone.trans (additions_eq_nil_iff.2 hall))]

theorem run_round_of_unusable {s : Session} (h : membersAt s.tree path = none) :
    ∃ log, (round path pairs).run s = (.ok [], { s with log }) := by
  obtain ⟨f, hload⟩ := load_of_unusable h
  rw [run_round, hload, run_add_of_unusable rfl]
  dsimp only
  split
  · exact ⟨s.log, rfl⟩
  · exact ⟨_, rfl⟩

end

section
variable {path : Path} {pairs : List (Text × Text)}

theorem run_rounds_of_complete {ms : Json.Members} {s : Session}
    (hms : membersAt s.tree path = some ms) (hall : ∀ p ∈ pairs, ms.hasKey p.1) (n : Nat) :
    (rounds path pairs n).run s = (List.replicate n (.ok []), s) := by
  induction n with
  | zero => rfl
  | succ n ih => rw [run_rounds_succ path pairs n (run_round_of_complete hms hall), ih]; rfl

theorem run_rounds_of_unusable {s : Session} (h : membersAt s.tree path = none) (n : Nat) :
    ∃ log, (rounds path pairs n).run s = (List.replicate n (.ok []), { s with log }) := by
  induction n generalizing s with
  | zero => exact ⟨s.log, rfl⟩
  | succ n ih =>
    obtain ⟨log, hround⟩ : ∃ log, (round path pairs).run s = (.ok [], { s with log }) :=
      run_round_of_unusable h
    obtain ⟨log', hrest⟩ := ih (s := { s with log }) h
    rw [run_rounds_succ path pairs n hround, hrest]
    exact ⟨log', rfl⟩

/-- Rounds leave a file alone that cannot be used or that has all the keys. Any other has, after one
round that succeeds, each key once, those that it lacked with the value listed first; then no round
changes anything. -/
theorem rounds_settle (path : Path) (pairs : List (Text × Text)) (s : Session) :
    (Settled s.tree path pairs → ∀ n, ∃ log,
      (rounds path pairs n).run s = (List.replicate n (.ok []), { s with log })) ∧
    ∀ ms, membersAt s.tree path = some ms → (∃ p ∈ pairs, ms.hasKey p.1 = false) →
      ∀ added s', (round path pairs).run s = (.ok added, s') →
        added = (additions ms pairs).map Prod.fst ∧
        (∃ new filled, s'.tree.read path = .ok new ∧
          Json.parse? new = some (.object filled) ∧ Filled ms pairs filled ∧
          Extends ms (additions ms pairs) (textAt s.tree path) new) ∧
        ∀ n, (rounds path pairs n).run s' = (List.replicate n (.ok []), s') := by
  refine ⟨fun hsettled n => ?_, fun ms hms hnew added s' h => ?_⟩
  · cases hms : membersAt s.tree path with
    | none => exact run_rounds_of_unusable hms n
    | some ms => exact ⟨s.log, run_rounds_of_complete hms (hsettled ms hms) n⟩
  · have hlacking : additions ms pairs ≠ [] := by
      intro hnil
      obtain ⟨p, hp, hnone⟩ := hnew
      exact nomatch (additions_eq_nil_iff.1 hnil p hp).symm.trans hnone
    obtain ⟨new, hextends, hrun⟩ := run_round_of_lacking hms hlacking
    rw [hrun] at h
    rcases hsave : (save path new).outcome s with ⟨_ | _, m⟩
    · rw [hsave] at h
      cases h
    rw [hsave] at h
    obtain ⟨hadded, rfl⟩ := Prod.mk.inj h
    have hread := read_of_save hsave
    have hfilled := filled_additions (Json.distinct_of_parse? (load_of_membersAt hms).1) pairs
    have hmembers : membersAt m.tree path =
        some (ms ++ (additions ms pairs).map fun p => (p.1, .string p.2)) := by
      simp only [membersAt, hread, hextends.members]
      rfl
    refine ⟨(Except.ok.inj hadded).symm, ⟨new, _, hread, hextends.members, hfilled, hextends⟩, ?_⟩
    apply run_rounds_of_complete hmembers
    intro p hp
    apply mem_keys_iff.1
    apply List.count_pos_iff.1
    rw [hfilled.once p hp]
    exact Nat.one_pos

theorem rounds_settle_sample :
    let path : Path := ⟨"d.json"⟩
    let pairs : List (Text × Text) := [("<%", "<!--"), ("a", "b"), ("<%", "c")]
    ∃ s', (round path pairs).run sampleSession = (.ok ["<%"], s') ∧
      (∃ new filled, s'.tree.read path = .ok new ∧ Json.parse? new = some (.object filled) ∧
        Filled [("a".toList, .string "\x7d")] pairs filled) ∧
      ∀ n, (rounds path pairs n).run s' = (List.replicate n (.ok []), s') := by
  intro path pairs
  have hread : sampleSession.tree.read path = .ok sampleText := by decide +kernel
  have hms : membersAt sampleSession.tree path = some [("a".toList, .string "\x7d")] := by
    rw [membersAt, hread]
    rfl
  have hadded : ((round path pairs).run sampleSession).1 = .ok ["<%"] := by decide +kernel
  rcases hrun : (round path pairs).run sampleSession with ⟨report, s'⟩
  rw [hrun] at hadded
  obtain rfl : report = .ok ["<%"] := hadded
  obtain ⟨-, ⟨new, filled, hwritten, hparse, hfilled, -⟩, hlater⟩ :=
    (rounds_settle path pairs sampleSession).2 _ hms ⟨("<%", "<!--"), List.mem_cons_self, rfl⟩ _ _
      hrun
  exact ⟨s', rfl, ⟨new, filled, hwritten, hparse, hfilled⟩, hlater⟩

end
end PatternBridge.DataFile
