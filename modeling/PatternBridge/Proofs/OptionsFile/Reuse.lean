import Mathlib.Data.List.Induction
import PatternBridge.Proofs.Files.Canonical
import PatternBridge.Proofs.OptionsFile.Outcome

/-! Options over the life of a process. Files may change in any way between one reading and the
next; a file's options are those of the first reading that went well, by whatever path it is named. -/

namespace PatternBridge

namespace OptionsFile
open PatternBridge.Tree Markup

theorem ok_of_toOption {ε α : Type} {x : Except ε α} {a : α} (h : x.toOption = some a) :
    x = .ok a := by
  cases x with
  | error e => cases h
  | ok b => exact congrArg Except.ok (Option.some.inj h)

theorem keyPath_of_canonical? {t : Tree} {p : Path} {place : Place}
    (h : t.canonical? p = some place) : keyPath t p = fullPath place := by
  rw [keyPath, h]
  rfl

theorem keyOf_of_canonical? {t : Tree} {p : Path} {place : Place}
    (h : t.canonical? p = some place) : keyOf t p = (fullPath place).components := by
  rw [keyOf, keyPath_of_canonical? h]

theorem keyOf_of_not_canonical? {t : Tree} {p : Path} (h : t.canonical? p = none) :
    keyOf t p = p.components := by
  rw [keyOf, keyPath, h]
  rfl

theorem isCanonical_of_optionsIn {t : Tree} (hw : t.WellFormed) {p : Path} {o : Options}
    (h : optionsIn t p = .ok o) {place : Place} (hp : t.canonical? p = some place) :
    t.IsCanonical place := by
  unfold optionsIn at h
  rw [keyPath_of_canonical? hp] at h
  split at h
  · cases h
  · next hread =>
    obtain ⟨e, hget, hlink⟩ := get?_of_canonical? hw hp
    exact isCanonical_of_read hw hget hlink hread

/-- What happens in a process: files are edited, and options are asked for. -/
inductive Event where
  /-- Edits that make the files a new tree. -/
  | edit (t : Tree)
  | load (p : Path)
  | resolve (p : Path)

namespace Event

def after (s : Session) : Event → Session
  | edit t => { s with tree := t }
  | load p => ((OptionsFile.load p).outcome s).2
  | resolve p => ((OptionsFile.resolve p).outcome s).2

inductive Gives (s : Session) (p : Path) (o : Options) : Event → Prop
  | load (h : ((OptionsFile.load p).outcome s).1 = .ok o) : Gives s p o (load p)
  | resolve (h : ((OptionsFile.resolve p).outcome s).1 = .ok (o, some p)) : Gives s p o (resolve p)

end Event

def sessionAfter (events : List Event) (s : Session) : Session := events.foldl Event.after s

theorem sessionAfter_concat (events : List Event) (e : Event) (s : Session) :
    sessionAfter (events ++ [e]) s = e.after (sessionAfter events s) := by
  rw [sessionAfter, List.foldl_append]
  rfl

section
variable {s : Session} {p : Path} {place : Place} {o : Options} {key : List Path.Component}

theorem lookup_load (h : s.options.lookup key = some o) :
    (((load p).outcome s).2).options.lookup key = some o := by
  rw [outcome_load]
  split
  · exact h
  · next hnew =>
    split
    · have hne : (key == keyOf s.tree p) = false := by
        apply beq_eq_false_iff_ne.2
        rintro rfl
        rw [hnew] at h
        cases h
      rw [List.lookup_cons, hne]
      exact h
    · exact h

theorem lookup_after (h : s.options.lookup key = some o) (e : Event) :
    (e.after s).options.lookup key = some o := by
  cases e with
  | edit t => exact h
  | load p => exact lookup_load h
  | resolve p =>
    rw [Event.after, outcome_resolve]
    split
    · exact lookup_load h
    · exact h

theorem lookup_of_load (h : ((load p).outcome s).1 = .ok o) :
    (((load p).outcome s).2).options.lookup (keyOf s.tree p) = some o := by
  rw [outcome_load] at h ⊢
  split at h
  · next o' hold =>
    rw [hold, ← Except.ok.inj h]
  · cases hin : optionsIn s.tree p with
    | error f => rw [hin] at h; cases h
    | ok o' =>
      rw [hin] at h
      rw [← Except.ok.inj h]
      exact List.lookup_cons_self

theorem isFile_of_resolve (h : ((resolve p).outcome s).1 = .ok (o, some p)) :
    s.tree.isFile p = true ∧ ((load p).outcome s).1 = .ok o := by
  rw [outcome_resolve] at h
  split at h
  · next hfile =>
    refine ⟨hfile, ?_⟩
    cases hload : ((load p).outcome s).1 with
    | error f => rw [hload] at h; cases h
    | ok o' =>
      rw [hload] at h
      exact congrArg Except.ok (congrArg Prod.fst (Except.ok.inj h))
  · cases h

theorem Event.Gives.lookup {e : Event} (h : e.Gives s p o) :
    (e.after s).options.lookup (keyOf s.tree p) = some o := by
  cases h with
  | load h => exact lookup_of_load h
  | resolve h =>
    obtain ⟨hfile, hload⟩ := isFile_of_resolve h
    rw [Event.after, outcome_resolve, if_pos hfile]
    exact lookup_of_load hload

/-- The options that a path names are new, and the path is canonical where its full path can be told. -/
structure Adds (s : Session) (p : Path) (o : Options) (options : List (List Path.Component × Options)) :
    Prop where
  options_eq : options = (keyOf s.tree p, o) :: s.options
  new : s.options.lookup (keyOf s.tree p) = none
  canonical : ∀ place, s.tree.canonical? p = some place → s.tree.IsCanonical place

theorem options_load (hw : s.tree.WellFormed) (p : Path) :
    ((load p).outcome s).2.options = s.options ∨ ∃ o,
      Adds s p o ((load p).outcome s).2.options ∧ ((load p).outcome s).1 = .ok o := by
  rw [outcome_load]
  split
  · exact .inl rfl
  · next hnew =>
    cases hin : optionsIn s.tree p with
    | error f => exact .inl rfl
    | ok o => exact .inr ⟨o, ⟨rfl, hnew, fun _ => isCanonical_of_optionsIn hw hin⟩, rfl⟩

theorem options_after (hw : s.tree.WellFormed) (e : Event) :
    (e.after s).options = s.options ∨ ∃ p o, Adds s p o (e.after s).options ∧ e.Gives s p o := by
  cases e with
  | edit t => exact .inl rfl
  | load p =>
    refine (options_load hw p).imp_right ?_
    rintro ⟨o, hadds, hok⟩
    exact ⟨p, o, hadds, .load hok⟩
  | resolve p =>
    have hresolve := outcome_resolve p s
    split at hresolve
    · next hfile =>
      rw [Event.after, hresolve]
      refine (options_load hw p).imp_right ?_
      rintro ⟨o, hadds, hok⟩
      refine ⟨p, o, hadds, .resolve ?_⟩
      rw [hresolve, hok]
      rfl
    · rw [Event.after, hresolve]
      exact .inl rfl

end

section
variable {s : Session} {events : List Event} {place : Place} {o : Options}

theorem wellFormed_sessionAfter (hw : s.tree.WellFormed)
    (hedits : ∀ t, .edit t ∈ events → t.WellFormed) : (sessionAfter events s).tree.WellFormed := by
  have htree (e : Event) (m : Session) (hm : m.tree.WellFormed)
      (he : ∀ t, e = .edit t → t.WellFormed) : (e.after m).tree.WellFormed := by
    cases e with
    | edit t => exact he t rfl
    | load p =>
      rw [Event.after, tree_load]
      exact hm
    | resolve p =>
      rw [Event.after, tree_resolve]
      exact hm
  induction events generalizing s with
  | nil => exact hw
  | cons e events ih =>
    refine ih (htree e s hw fun t ht => hedits t (ht ▸ List.mem_cons_self)) fun t ht => ?_
    exact hedits t (List.mem_cons_of_mem _ ht)

theorem lookup_sessionAfter {key : List Path.Component} (h : s.options.lookup key = some o) :
    (sessionAfter events s).options.lookup key = some o := by
  induction events generalizing s with
  | nil => exact h
  | cons e events ih => exact ih (lookup_after h e)

theorem lookup_of_gives {front later : List Event} {e : Event} {q : Path}
    (hevents : events = front ++ e :: later) (h : e.Gives (sessionAfter front s) q o) :
    (sessionAfter events s).options.lookup (keyOf (sessionAfter front s).tree q) = some o := by
  have hsplit : sessionAfter (front ++ e :: later) s =
      sessionAfter later (e.after (sessionAfter front s)) := List.foldl_append
  rw [hevents, hsplit]
  exact lookup_sessionAfter h.lookup

theorem exists_of_mem_options (hfresh : s.options = []) (hw : s.tree.WellFormed)
    (hedits : ∀ t, .edit t ∈ events → t.WellFormed)
    {key : List Path.Component} (h : key ∈ (sessionAfter events s).options.map Prod.fst) :
    ∃ front e later p o options, events = front ++ e :: later ∧
      key = keyOf (sessionAfter front s).tree p ∧ e.Gives (sessionAfter front s) p o ∧
      Adds (sessionAfter front s) p o options := by
  induction events using List.reverseRecOn with
  | nil =>
    rw [sessionAfter, List.foldl_nil, hfresh] at h
    cases h
  | append_singleton events e ih =>
    have hedits' : ∀ t, .edit t ∈ events → t.WellFormed :=
      fun t ht => hedits t (List.mem_append_left _ ht)
    have hold (hmem : key ∈ (sessionAfter events s).options.map Prod.fst) := ih hedits' hmem
    rw [sessionAfter_concat] at h
    obtain hsame | ⟨p, o, hadds, hgives⟩ := options_after (wellFormed_sessionAfter hw hedits') e
    · rw [hsame] at h
      obtain ⟨front, e', later, p, o, options, rfl, hrest⟩ := hold h
      exact ⟨front, e', later ++ [e], p, o, options, by simp, hrest⟩
    · rw [hadds.options_eq, List.map_cons, List.mem_cons] at h
      obtain rfl | h := h
      · exact ⟨events, e, [], p, o, _, rfl, rfl, hgives, hadds⟩
      · obtain ⟨front, e', later, p, o, options, rfl, hrest⟩ := hold h
        exact ⟨front, e', later ++ [e], p, o, options, by simp, hrest⟩

theorem mem_keys_of_lookup {options : List (List Path.Component × Options)}
    {key : List Path.Component} (h : options.lookup key = some o) :
    key ∈ options.map Prod.fst := by
  induction options with
  | nil => cases h
  | cons x options ih =>
    rw [List.lookup_cons] at h
    split at h
    · next heq => exact eq_of_beq heq ▸ List.mem_cons_self
    · exact List.mem_cons_of_mem _ (ih h)

theorem lookup_eq_none_of_never_given (hfresh : s.options = []) (hw : s.tree.WellFormed)
    (hedits : ∀ t, .edit t ∈ events → t.WellFormed) {key : List Path.Component}
    (h : ∀ front e later q o, events = front ++ e :: later → e.Gives (sessionAfter front s) q o →
      keyOf (sessionAfter front s).tree q ≠ key) :
    (sessionAfter events s).options.lookup key = none := by
  by_contra hsome
  obtain ⟨o, ho⟩ := Option.ne_none_iff_exists'.1 hsome
  obtain ⟨front, e, later, q, o', _, hevents, hkey, hgives, -⟩ :=
    exists_of_mem_options hfresh hw hedits (mem_keys_of_lookup ho)
  exact h front e later q o' hevents hgives hkey.symm

end

/-- Once a file's options were given they are given by each path that is resolved to the file, whatever
becomes of it; until options were given under its key, a path gives those in the file. A failure leaves
nothing behind. A key is the full path of a file or, where that could not be told, the path by which the
file was named; so it may be kept for another file that the path leads to later. -/
theorem options_first_given {s : Session} (hfresh : s.options = []) (hw : s.tree.WellFormed)
    {events : List Event} (hedits : ∀ t, .edit t ∈ events → t.WellFormed) :
    (∀ front e later q o, events = front ++ e :: later → e.Gives (sessionAfter front s) q o →
      ∀ p, keyOf (sessionAfter events s).tree p = keyOf (sessionAfter front s).tree q ∨
          (∃ place, (sessionAfter front s).tree.canonical? q = some place ∧
            (sessionAfter events s).tree.canonical? p = some place) →
        (load p).outcome (sessionAfter events s) = (.ok o, sessionAfter events s) ∧
        ((sessionAfter events s).tree.isFile p →
          (resolve p).outcome (sessionAfter events s) = (.ok (o, some p), sessionAfter events s))) ∧
    (∀ p, (∀ f, ((load p).outcome (sessionAfter events s)).1 = .error f →
        ((load p).outcome (sessionAfter events s)).2 = sessionAfter events s) ∧
      ∀ f, ((resolve p).outcome (sessionAfter events s)).1 = .error f →
        ((resolve p).outcome (sessionAfter events s)).2 = sessionAfter events s) ∧
    (∀ p, (∀ front e later q o, events = front ++ e :: later →
        e.Gives (sessionAfter front s) q o →
        keyOf (sessionAfter front s).tree q ≠ keyOf (sessionAfter events s).tree p) →
      ((load p).outcome (sessionAfter events s)).1 = optionsIn (sessionAfter events s).tree p) ∧
    ∀ key ∈ (sessionAfter events s).options.map Prod.fst, ∃ front e later p o,
      events = front ++ e :: later ∧ e.Gives (sessionAfter front s) p o ∧
      (sessionAfter front s).options.lookup key = none ∧
      ((∃ place, (sessionAfter front s).tree.canonical? p = some place ∧
          (sessionAfter front s).tree.IsCanonical place ∧ key = (fullPath place).components) ∨
        (sessionAfter front s).tree.canonical? p = none ∧ key = p.components) := by
  refine ⟨?given, fun p => ⟨fun _ => session_of_load_error, fun _ => session_of_resolve_error⟩,
    fun p hnever => ?new, ?keys⟩
  case given =>
    intro front e later q o hevents hgives p hp
    have hkey : keyOf (sessionAfter events s).tree p = keyOf (sessionAfter front s).tree q := by
      obtain hsame | ⟨place, hq, hp⟩ := hp
      · exact hsame
      · rw [keyOf_of_canonical? hq, keyOf_of_canonical? hp]
    have hload := outcome_load_of_kept (hkey ▸ lookup_of_gives hevents hgives)
    refine ⟨hload, fun hfile => ?_⟩
    rw [outcome_resolve, if_pos hfile, hload]
    rfl
  case new =>
    exact load_of_new (lookup_eq_none_of_never_given hfresh hw hedits hnever)
  case keys =>
    intro key hkey
    obtain ⟨front, e, later, p, o, _, hevents, rfl, hgives, hadds⟩ :=
      exists_of_mem_options hfresh hw hedits hkey
    refine ⟨front, e, later, p, o, hevents, hgives, hadds.new, ?_⟩
    cases hp : (sessionAfter front s).tree.canonical? p with
    | none => exact .inr ⟨rfl, keyOf_of_not_canonical? hp⟩
    | some place => exact .inl ⟨place, rfl, hadds.canonical place hp, keyOf_of_canonical? hp⟩

def linked : Session where
  tree := {
    entries := [([".jsbeautifyrc"], .file (.text "\x7b\"indent_size\": 6\x7d")),
      (["broken.json"], .file (.text "\x7b")), (["link"], .link ⟨".jsbeautifyrc"⟩)]
    sorted := by decide
    here := [] }

def rewritten : List Event :=
  [.load ⟨"link"⟩, .load ⟨"broken.json"⟩,
    .edit ((linked.tree.put [".jsbeautifyrc"] (.file (.text "\x7b\"indent_size\": 1\x7d"))).put
      ["broken.json"] (.file (.text "\x7b\"indent_size\": 3\x7d")))]

/-- The linked file keeps its first options, and the repaired file has those now in it. -/
theorem options_first_given_rewritten :
    linked.options = [] ∧ linked.tree.WellFormed ∧ (∀ t, .edit t ∈ rewritten → t.WellFormed) ∧
    (load ⟨"./.jsbeautifyrc"⟩).outcome (sessionAfter rewritten linked) =
      (.ok { indentSize := 6 }, sessionAfter rewritten linked) ∧
    ((load ⟨"broken.json"⟩).outcome (sessionAfter rewritten linked)).1 =
      .ok { indentSize := 3 } := by
  have hedits : ∀ t, .edit t ∈ rewritten → t.WellFormed := by
    intro t ht
    simp only [rewritten, List.mem_cons, List.not_mem_nil, reduceCtorEq, or_false, false_or,
      Event.edit.injEq] at ht
    rw [ht]
    decide
  obtain ⟨hgiven, -, hnew, -⟩ := options_first_given (s := linked) rfl (by decide) hedits
  refine ⟨rfl, by decide, hedits, ?_, ?_⟩
  · have hfirst : (Event.load ⟨"link"⟩).Gives linked ⟨"link"⟩ { indentSize := 6 } :=
      .load (ok_of_toOption (by decide +kernel))
    exact (hgiven [] _ _ _ _ rfl hfirst ⟨"./.jsbeautifyrc"⟩
      (.inr ⟨[".jsbeautifyrc".toList], by decide +kernel, by decide +kernel⟩)).1
  · have hnever : ∀ front e later q o, rewritten = front ++ e :: later →
        e.Gives (sessionAfter front linked) q o → keyOf (sessionAfter front linked).tree q ≠
          keyOf (sessionAfter rewritten linked).tree ⟨"broken.json"⟩ := by
      intro front e later q o hevents hgives
      simp only [rewritten, List.cons_eq_append_iff, List.cons.injEq, reduceCtorEq, List.nil_eq,
        List.append_eq_nil_iff, and_false, exists_false, or_false] at hevents
      obtain ⟨rfl, rfl, -⟩ | ⟨_, rfl, ⟨rfl, rfl, -⟩ | ⟨_, rfl, rfl, rfl, -⟩⟩ := hevents
      · cases hgives with
        | load => decide +kernel
      · have hfails : ((load ⟨"broken.json"⟩).outcome
          (sessionAfter [.load ⟨"link"⟩] linked)).1.toOption = none := by decide +kernel
        cases hgives with
        | load h =>
          rw [h] at hfails
          cases hfails
      · cases hgives
    rw [hnew ⟨"broken.json"⟩ hnever]
    exact ok_of_toOption (by decide +kernel)

def longName : Text := List.replicate 63 '𝄞'

/-- A directory whose full path is too long to be told. -/
def tooDeep (first : Char) : Place :=
  List.replicate 16 longName ++ [first :: List.replicate 12 '𝄞']

/-- A file in each of two such directories, and a link that leads half of the way to them. -/
def deepFiles : Tree :=
  let ways := (List.range 16).foldl (fun t n => t.put (List.replicate (n + 1) longName) .directory)
    (Tree.empty [])
  let dirs := (ways.put (tooDeep 'a') .directory).put (tooDeep 'b') .directory
  ((dirs.put (tooDeep 'a' ++ ["rc.json".toList]) (.file (.text "\x7b\"indent_size\": 6\x7d"))).put
    (tooDeep 'b' ++ ["rc.json".toList]) (.file (.text "\x7b\"indent_size\": 1\x7d"))).put
    ["half".toList] (.link ⟨['/'].intercalate (List.replicate 8 longName)⟩)

def deepLinked (first : Char) : Tree :=
  deepFiles.put ["link".toList]
    (.link ⟨['/'].intercalate ("half".toList :: (tooDeep first).drop 8)⟩)

/-- A path opens a file whose full path cannot be told. The path itself becomes the key, and when the
link in it is made anew the options of the file that it led to are given for the other file. -/
theorem retargeted_link_keeps_options :
    (deepLinked 'a').WellFormed ∧ (deepLinked 'b').WellFormed ∧
    (deepLinked 'a').canonical? ⟨"link/rc.json"⟩ = none ∧
    (sessionAfter [.load ⟨"link/rc.json"⟩] { tree := deepLinked 'a' }).options =
      [([.name "link", .name "rc.json"], { indentSize := 6 })] ∧
    optionsIn (deepLinked 'b') ⟨"link/rc.json"⟩ = .ok { indentSize := 1 } ∧
    ((load ⟨"link/rc.json"⟩).outcome (sessionAfter
      [.load ⟨"link/rc.json"⟩, .edit (deepLinked 'b')] { tree := deepLinked 'a' })).1 =
        .ok { indentSize := 6 } := by
  refine ⟨by decide +kernel, by decide +kernel, by decide +kernel, by decide +kernel, ?_, ?_⟩
  · exact ok_of_toOption (by decide +kernel)
  · exact ok_of_toOption (by decide +kernel)

end OptionsFile
end PatternBridge
