import Mathlib.Data.List.Induction
import Mathlib.Data.List.TakeWhile
import PatternBridge.Proofs.Json.Steps

/-! The brace that closes an object. Nothing but white space stands after it, so it is the last
brace of the text; before it the outermost object is open, with all its members read. -/

namespace PatternBridge

namespace Text

theorem cutLast?_eq_none {c : Char} {s : Text} (h : c ∉ s) : cutLast? c s = none := by
  induction s with
  | nil => rfl
  | cons d s ih =>
    have hne : ¬ (d == c) = true := fun hdc => h (beq_iff_eq.1 hdc ▸ List.mem_cons_self)
    have hrest := ih fun hs => h (List.mem_cons_of_mem _ hs)
    simp only [cutLast?, hrest, if_neg hne]

theorem cutLast?_append {c : Char} {onward : Text} (h : c ∉ onward) (before : Text) :
    cutLast? c (before ++ c :: onward) = some (before, c :: onward) := by
  induction before with
  | nil => simp only [List.nil_append, cutLast?, cutLast?_eq_none h, BEq.rfl, if_pos]
  | cons d before ih => simp only [List.cons_append, cutLast?, ih]

end Text

namespace Json

namespace Reader

theorem Turn.eq_of_isBlank {r r' : Reader} {c : Char} (h : r.Turn c r')
    (hc : Text.isBlank c = true) : r' = r := by
  cases h with
  | space => rfl
  | lexeme hblank => exact absurd hc (Bool.eq_false_iff.1 hblank)
  | _ => exact absurd hc (by decide)

theorem Step.settle_of_isBlank {r r' q : Reader} {c : Char} (h : r.Step c r')
    (hc : Text.isBlank c = true) (hq : r'.settle = some q) : r.settle = some q := by
  cases h with
  | between hsettle hturn =>
    rw [hturn.eq_of_isBlank hc, settle_of_none (lexeme_of_settle hsettle)] at hq
    exact hsettle.trans hq
  | inside hopen _ hnumeral =>
    obtain ⟨-, hnone⟩ | ⟨part, x, _, hx, -⟩ := settle_cases hq
    · exact absurd hnone hopen
    · exact absurd hx (hnumeral hc part x)
  | value hblank => exact absurd hc (Bool.eq_false_iff.1 hblank)
  | key hblank => exact absurd hc (Bool.eq_false_iff.1 hblank)

theorem settle_of_foldlM_blank {s : Text} {r r' q : Reader} (hs : r.Sound)
    (hblank : ∀ c ∈ s, Text.isBlank c = true) (h : s.foldlM feed r = some r')
    (hq : r'.settle = some q) : r.settle = some q := by
  induction s generalizing r with
  | nil => exact Option.some.inj h ▸ hq
  | cons c s ih =>
    rw [foldlM_cons] at h
    obtain ⟨r₁, hfeed, hrest⟩ := Option.bind_eq_some_iff.1 h
    have hstep := step_of_feed hs.lexeme hfeed
    have hrest := ih (hs.step hstep) (fun d hd => hblank d (List.mem_cons_of_mem _ hd)) hrest
    exact hstep.settle_of_isBlank (hblank c List.mem_cons_self) hrest

/-- A character that no numeral goes on with is read as from the settled reader. -/
theorem foldlM_of_settle {r q : Reader} (hq : r.settle = some q) {c : Char}
    (hc : extendsNumeral c = false) (s : Text) :
    (c :: s).foldlM feed r = (c :: s).foldlM feed q := by
  have hfeed : q.feed c = q.feedNone c := by simp only [feed, lexeme_of_settle hq]
  rw [foldlM_cons, foldlM_cons, hfeed]
  congr 1
  unfold settle at hq
  split at hq
  · next hnone => rw [← Option.some.inj hq, feed, hnone]
  · next part x hnumeral =>
    have hextend : extendNumeral? part x c = none := by
      cases h : extendNumeral? part x c with
      | none => rfl
      | some l => exact absurd (extendNumeral?_eq_some h).1 (Bool.eq_false_iff.1 hc)
    simp only [feed, hnumeral, hextend, hq, Option.bind_some]
  · cases hq

def IsOpen (ms : Members) (q : Reader) : Prop :=
  ∃ key, q = within ms key (if ms.isEmpty then .keyOrEnd else .commaOrEnd)

theorem eq_of_settle {r q : Reader} (h : r.settle = some q) (hnone : r.lexeme = .none) : q = r :=
  (Option.some.inj ((settle_of_none hnone).symm.trans h)).symm

theorem object_of_place {v : Value} {r q : Reader} {ms : Members}
    (hq : (r.place v).settle = some q) (hobject : q.await = .finished (.object ms)) :
    v = .object ms ∧ r.frames = [] := by
  rw [eq_of_settle hq (lexeme_place v r)] at hobject
  obtain ⟨h, hframes⟩ | h := await_place v r
  · exact ⟨Await.finished.inj (h.symm.trans hobject), hframes⟩
  · exact nomatch h.symm.trans hobject

theorem unfinished_of_relex {r q : Reader} {l : Lexeme} {ms : Members} (hopen : l ≠ .none)
    (hq : { r with lexeme := l }.settle = some q) : q.await ≠ .finished (.object ms) := by
  intro hobject
  obtain ⟨-, hnone⟩ | ⟨part, x, n, -, rfl⟩ := settle_cases hq
  · exact hopen hnone
  · have hplace := settle_of_none (lexeme_place (.number n) { r with lexeme := l })
    exact nomatch (object_of_place hplace hobject).1

theorem Turn.isOpen_of_finished {p r' q : Reader} {c : Char} {ms : Members} (hs : p.Sound)
    (hnone : p.lexeme = .none) (h : p.Turn c r') (hq : r'.settle = some q)
    (hobject : q.await = .finished (.object ms)) :
    (isSpace c = true ∧ r' = p) ∨ c = '}' ∧ IsOpen ms p := by
  cases h with
  | space hc => exact .inl ⟨hc, rfl⟩
  | openArray => exact nomatch eq_of_settle hq rfl ▸ hobject
  | openObject => exact nomatch eq_of_settle hq rfl ▸ hobject
  | closeArray => exact nomatch (object_of_place hq hobject).1
  | @closeObject ms' key fs hframes hawait =>
    obtain ⟨hms, hfs⟩ := object_of_place hq hobject
    obtain rfl : ms' = ms := Value.object.inj hms
    have hfs : fs = [] := hfs
    subst hfs
    refine .inr ⟨rfl, key, ?_⟩
    obtain ⟨frames, await, lexeme⟩ := p
    have hframes : frames = [.object ms' key] := hframes
    have hnone : lexeme = .none := hnone
    subst hframes hnone
    rcases hawait with rfl | rfl
    · rw [hs.opened rfl rfl]; rfl
    · rw [List.isEmpty_eq_false_iff.2 (hs.grown rfl rfl)]; rfl
  | comma ha =>
    have hawait := eq_of_settle hq hnone ▸ hobject
    rcases ha with rfl | rfl <;> exact nomatch hawait
  | colon => exact nomatch eq_of_settle hq hnone ▸ hobject
  | lexeme _ hopen => exact absurd hobject (unfinished_of_relex hopen hq)

theorem Step.isOpen_of_finished {r r' q : Reader} {c : Char} {ms : Members} (hs : r.Sound)
    (h : r.Step c r') (hq : r'.settle = some q) (hobject : q.await = .finished (.object ms)) :
    (isSpace c = true ∧ r.settle = some q) ∨
      c = '}' ∧ ∃ p, r.settle = some p ∧ IsOpen ms p := by
  cases h with
  | between hsettle hturn =>
    have hnone := lexeme_of_settle hsettle
    obtain ⟨hc, rfl⟩ | ⟨hc, hopen⟩ :=
      hturn.isOpen_of_finished (hs.settle hsettle) hnone hq hobject
    · exact .inl ⟨hc, eq_of_settle hq hnone ▸ hsettle⟩
    · exact .inr ⟨hc, _, hsettle, hopen⟩
  | inside hopen => exact absurd hobject (unfinished_of_relex hopen hq)
  | value _ hv => exact nomatch (object_of_place hq hobject).1 ▸ hv
  | key => exact nomatch eq_of_settle hq rfl ▸ hobject

/-- The text before the closing brace of an object, and the text behind it. -/
structure Closes (s before onward : Text) (ms : Members) : Prop where
  split : s = before ++ '}' :: onward
  spaces : ∀ c ∈ onward, isSpace c = true
  opened : ∃ r p, before.foldlM feed start = some r ∧ r.settle = some p ∧ IsOpen ms p

theorem closes_of_finished {s : Text} {r q : Reader} {ms : Members}
    (h : s.foldlM feed start = some r) (hq : r.settle = some q)
    (hobject : q.await = .finished (.object ms)) : ∃ before onward, Closes s before onward ms := by
  -- from the end of the text: the last character is white space or the brace
  induction s using List.reverseRecOn generalizing r with
  | nil =>
    obtain rfl := Option.some.inj h
    exact nomatch eq_of_settle hq rfl ▸ hobject
  | append_singleton s c ih =>
    rw [foldlM_append] at h
    obtain ⟨r₀, h₀, hc⟩ := Option.bind_eq_some_iff.1 h
    rw [foldlM_cons] at hc
    obtain ⟨r₁, hfeed, hr⟩ := Option.bind_eq_some_iff.1 hc
    obtain rfl := Option.some.inj hr
    have hsound := sound_start.foldlM h₀
    obtain ⟨hspace, hsettle⟩ | ⟨rfl, p, hp, hopen⟩ :=
      (step_of_feed hsound.lexeme hfeed).isOpen_of_finished hsound hq hobject
    · obtain ⟨before, onward, hsplit, hspaces, hopened⟩ := ih h₀ hsettle
      refine ⟨before, onward ++ [c], by simp [hsplit], ?_, hopened⟩
      intro d hd
      obtain hd | hd := List.mem_append.1 hd
      · exact hspaces d hd
      · exact List.mem_singleton.1 hd ▸ hspace
    · exact ⟨s, [], rfl, nofun, r₀, p, h₀, hp, hopen⟩

theorem foldlM_spaces {s : Text} (hs : ∀ c ∈ s, isSpace c = true) {r : Reader}
    (hnone : r.lexeme = .none) : s.foldlM feed r = some r := by
  induction s with
  | nil => rfl
  | cons c s ih =>
    have hfeed : r.feed c = some r := by
      have hc := hs c List.mem_cons_self
      simp only [isSpace, Bool.or_eq_true, beq_iff_eq] at hc
      rcases hc with ((rfl | rfl) | rfl) | rfl <;> simp only [feed, hnone] <;> rfl
    rw [foldlM_cons, hfeed, Option.bind_some, ih fun d hd => hs d (List.mem_cons_of_mem _ hd)]

namespace Closes

variable {s before onward : Text} {ms : Members}

theorem cutLast? (h : Closes s before onward ms) :
    Text.cutLast? '}' s = some (before, '}' :: onward) := by
  have hlast : '}' ∉ onward := fun hmem => absurd (h.spaces '}' hmem) (by decide)
  rw [h.split]
  exact Text.cutLast?_append hlast before

theorem trimmed (h : Closes s before onward ms) :
    ∃ r p, (Text.trimEnd before).foldlM feed start = some r ∧ r.settle = some p ∧ IsOpen ms p := by
  obtain ⟨r, p, hr, hp, hopen⟩ := h.opened
  rw [← Text.dropEndWhile_append_dropped Text.isBlank before, foldlM_append] at hr
  obtain ⟨r₀, h₀, hblank⟩ := Option.bind_eq_some_iff.1 hr
  refine ⟨r₀, p, h₀, settle_of_foldlM_blank (sound_start.foldlM h₀) ?_ hblank hp, hopen⟩
  intro c hc
  exact List.mem_takeWhile_imp (List.mem_reverse.1 hc)

/-- Lines of members before the closing brace are read as members after those that are there. -/
theorem parse?_lines (h : Closes s before onward ms) {pairs : List (Text × Text)}
    (hne : pairs ≠ []) :
    parse? (Text.trimEnd before ++ (if ms.isEmpty then [] else [',']) ++
      [','].intercalate (pairs.map fun p => "\n  " ++ memberText p) ++ '\n' :: '}' :: onward) =
        some (.object (ms.overlay (pairs.map fun p => (p.1, .string p.2)))) := by
  obtain ⟨r, p, hr, hp, key, rfl⟩ := h.trimmed
  -- the comma, or else the line break of the first line, completes a numeral before it
  obtain ⟨rest, hrest⟩ : ∃ rest, [','].intercalate (pairs.map fun p => "\n  " ++ memberText p) =
      '\n' :: rest := by
    cases pairs with
    | nil => exact absurd rfl hne
    | cons p pairs => cases pairs <;> exact ⟨_, rfl⟩
  have hlines : ∃ last, ((if ms.isEmpty then [] else [',']) ++
      [','].intercalate (pairs.map fun p => "\n  " ++ memberText p)).foldlM feed r =
        some (within (ms.overlay (pairs.map fun p => (p.1, .string p.2))) last .commaOrEnd) := by
    split at hp
    · next hempty =>
      rw [if_pos hempty, List.nil_append, hrest, foldlM_of_settle hp (by decide), ← hrest]
      exact foldlM_lines (.inr rfl) ms key hne
    · next hempty =>
      have hcomma : feed (within ms key .commaOrEnd) ',' = some (within ms key .key) := rfl
      rw [if_neg hempty, List.singleton_append, foldlM_of_settle hp (by decide), foldlM_cons,
        hcomma, Option.bind_some]
      exact foldlM_lines (.inl rfl) ms key hne
  obtain ⟨last, hlast⟩ := hlines
  have hline (ms : Members) : feed (within ms last .commaOrEnd) '\n' =
    some (within ms last .commaOrEnd) := rfl
  have hbrace (ms : Members) : feed (within ms last .commaOrEnd) '}' =
    some { await := .finished (.object ms) } := rfl
  rw [parse?, List.append_assoc (Text.trimEnd before), List.append_assoc, foldlM_append, hr,
    Option.bind_some, foldlM_append, hlast, Option.bind_some, foldlM_cons, hline, Option.bind_some,
    foldlM_cons, hbrace, Option.bind_some, foldlM_spaces h.spaces rfl]
  rfl

end Closes
end Reader

theorem closes_of_parse? {s : Text} {ms : Members} (h : parse? s = some (.object ms)) :
    ∃ before onward, Reader.Closes s before onward ms := by
  obtain ⟨r, hr, hfinish⟩ := Option.bind_eq_some_iff.1 h
  unfold Reader.finish at hfinish
  obtain ⟨q, hsettled, hawait⟩ := Option.bind_eq_some_iff.1 hfinish
  have hq : r.settle = some q := hsettled
  split at hawait
  · next v hv => exact Reader.closes_of_finished hr hq (Option.some.inj hawait ▸ hv)
  · cases hawait

end Json
end PatternBridge
