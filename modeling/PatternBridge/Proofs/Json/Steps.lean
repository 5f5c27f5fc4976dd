import PatternBridge.Proofs.Json.Quoting
import PatternBridge.Proofs.Text.Characters

/-! What one character can do to a reader, and what every reader that has read some text keeps. -/

namespace PatternBridge

namespace Text

theorem hexDigit?_of_isBlank {c : Char} (h : isBlank c = true) : hexDigit? c = none := by
  have hn := toNat_of_isBlank h
  simp only [Char.toNat] at hn
  simp only [hexDigit?, Char.isDigit, Char.le_def, UInt32.le_iff_toNat_le, ge_iff_le,
    Bool.and_eq_true, decide_eq_true_eq, Char.reduceVal, UInt32.reduceToNat]
  rw [if_neg (by omega), if_neg (by omega), if_neg (by omega)]

theorem digit?_of_isBlank {c : Char} (h : isBlank c = true) : digit? c = none := by
  have hhex := hexDigit?_of_isBlank h
  simp only [hexDigit?] at hhex
  unfold digit?
  split at hhex
  · cases hhex
  · next hd => exact if_neg hd

end Text

namespace Json

def isSpace (c : Char) : Bool := c == ' ' || c == '\t' || c == '\n' || c == '\r'

/-- A literal has neither white space nor members. -/
def Lexeme.Sound : Lexeme → Prop
  | .literal rest v => rest.any Text.isBlank = false ∧ v.members? = Option.none
  | _ => True

namespace Reader

/-- The reader with its numeral complete, if it is in one; inside any other lexeme there is none. -/
def settle (r : Reader) : Option Reader :=
  match r.lexeme with
  | .none => some r
  | .numeral part x => r.placeNumeral part x
  | _ => none

/-- An open object that has no members yet awaits a key or its end; after a member it has one. -/
structure Sound (r : Reader) : Prop where
  lexeme : r.lexeme.Sound
  opened : ∀ {ms key fs}, r.frames = .object ms key :: fs → r.await = .keyOrEnd → ms = []
  grown : ∀ {ms key fs}, r.frames = .object ms key :: fs → r.await = .commaOrEnd → ms ≠ []

inductive Turn (r : Reader) : Char → Reader → Prop
  | space {c : Char} (hc : isSpace c = true) : Turn r c r
  | openArray : Turn r '[' { frames := .array [] :: r.frames, await := .valueOrEnd }
  | openObject : Turn r '{' { frames := .object [] [] :: r.frames, await := .keyOrEnd }
  | closeArray {items : List Value} {fs : List Frame} (hframes : r.frames = .array items :: fs) :
    Turn r ']' ({ r with frames := fs }.place (.array items))
  | closeObject {ms : Members} {key : Text} {fs : List Frame}
    (hframes : r.frames = .object ms key :: fs) (hawait : r.await = .keyOrEnd ∨ r.await = .commaOrEnd) :
    Turn r '}' ({ r with frames := fs }.place (.object ms))
  | comma {a : Await} (ha : a = .value ∨ a = .key) : Turn r ',' { r with await := a }
  | colon : Turn r ':' { r with await := .value }
  | lexeme {c : Char} {l : Lexeme} (hc : Text.isBlank c = false) (hopen : l ≠ .none) (hl : l.Sound) :
    Turn r c { r with lexeme := l }

inductive Step (r : Reader) : Char → Reader → Prop
  | between {c : Char} {q r' : Reader} (hsettle : r.settle = some q) (hturn : q.Turn c r') : Step r c r'
  | inside {c : Char} {l : Lexeme} (hopen : l ≠ .none) (hl : l.Sound)
    (hblank : Text.isBlank c = true → ∀ part x, l ≠ .numeral part x) : Step r c { r with lexeme := l }
  | value {c : Char} {v : Value} (hc : Text.isBlank c = false) (hv : v.members? = none) :
    Step r c (r.place v)
  | key {c : Char} {ms : Members} {last key : Text} {fs : List Frame} (hc : Text.isBlank c = false)
    (hframes : r.frames = .object ms last :: fs) :
    Step r c { frames := .object ms key :: fs, await := .colon }

theorem lexeme_place (v : Value) (r : Reader) : (r.place v).lexeme = .none := by
  unfold place
  split <;> rfl

theorem await_place (v : Value) (r : Reader) :
    (r.place v).await = .finished v ∧ r.frames = [] ∨ (r.place v).await = .commaOrEnd := by
  unfold place
  split
  · next h => exact .inl ⟨rfl, h⟩
  all_goals exact .inr rfl

theorem sound_place (v : Value) (r : Reader) : (r.place v).Sound := by
  have hput (ms : Members) (key : Text) : ms.put key v ≠ [] := by
    cases ms with
    | nil => exact List.cons_ne_nil _ _
    | cons m ms => unfold Members.put; split <;> exact List.cons_ne_nil _ _
  unfold place
  split
  · constructor
    · trivial
    · intro ms key fs _ hawait
      cases hawait
    · intro ms key fs _ hawait
      cases hawait
  · constructor
    · trivial
    · intro ms key fs _ hawait
      cases hawait
    · intro ms key fs hframes
      cases hframes
  · constructor
    · trivial
    · intro ms key fs _ hawait
      cases hawait
    · intro ms key fs hframes _
      cases hframes
      exact hput _ _

theorem settle_of_none {r : Reader} (h : r.lexeme = .none) : r.settle = some r := by
  simp only [settle, h]

theorem settle_cases {r q : Reader} (h : r.settle = some q) :
    q = r ∧ r.lexeme = .none ∨
      ∃ part x n, r.lexeme = .numeral part x ∧ q = r.place (.number n) := by
  unfold settle at h
  split at h
  · next hnone => exact .inl ⟨(Option.some.inj h).symm, hnone⟩
  · next part x hnumeral =>
    unfold placeNumeral at h
    split at h
    · obtain ⟨n, -, hn⟩ := Option.map_eq_some_iff.1 h
      exact .inr ⟨part, x, n, hnumeral, hn.symm⟩
    · cases h
  · cases h

theorem lexeme_of_settle {r q : Reader} (h : r.settle = some q) : q.lexeme = .none := by
  obtain ⟨rfl, hnone⟩ | ⟨_, _, _, -, rfl⟩ := settle_cases h
  · exact hnone
  · exact lexeme_place _ _

theorem Sound.settle {r q : Reader} (hs : r.Sound) (h : r.settle = some q) : q.Sound := by
  obtain ⟨rfl, -⟩ | ⟨_, _, _, -, rfl⟩ := settle_cases h
  · exact hs
  · exact sound_place _ _

theorem turn_of_begin {r r' : Reader} {c : Char} {l : Lexeme} (h : r.begin l = some r')
    (hc : Text.isBlank c = false) (hopen : l ≠ .none) (hl : l.Sound) : r.Turn c r' := by
  unfold begin at h
  split at h
  · exact Option.some.inj h ▸ .lexeme hc hopen hl
  · cases h

theorem turn_of_feedNone {r r' : Reader} {c : Char} (h : r.feedNone c = some r') : r.Turn c r' := by
  unfold feedNone at h
  split at h
  · exact Option.some.inj h ▸ .space rfl
  · exact Option.some.inj h ▸ .space rfl
  · exact Option.some.inj h ▸ .space rfl
  · exact Option.some.inj h ▸ .space rfl
  · unfold push at h
    split at h
    · exact Option.some.inj h ▸ .openArray
    · cases h
  · unfold push at h
    split at h
    · exact Option.some.inj h ▸ .openObject
    · cases h
  · unfold closeArray at h
    split at h
    · next hframes => exact Option.some.inj h ▸ .closeArray hframes
    · next hframes => exact Option.some.inj h ▸ .closeArray hframes
    · cases h
  · unfold closeObject at h
    split at h
    · next hawait hframes => exact Option.some.inj h ▸ .closeObject hframes (.inl hawait)
    · next hawait hframes => exact Option.some.inj h ▸ .closeObject hframes (.inr hawait)
    · cases h
  · unfold comma at h
    split at h
    · exact Option.some.inj h ▸ .comma (.inl rfl)
    · exact Option.some.inj h ▸ .comma (.inr rfl)
    · cases h
  · unfold colon at h
    split at h
    · exact Option.some.inj h ▸ .colon
    · cases h
  · split at h
    · exact Option.some.inj h ▸ .lexeme (by decide) nofun trivial
    · cases h
  · exact turn_of_begin h (by decide) nofun ⟨rfl, rfl⟩
  · exact turn_of_begin h (by decide) nofun ⟨rfl, rfl⟩
  · exact turn_of_begin h (by decide) nofun ⟨rfl, rfl⟩
  · exact turn_of_begin h (by decide) nofun trivial
  · have hdigit {d : Nat} (hd : Text.digit? c = some d) : Text.isBlank c = false :=
      Bool.eq_false_iff.2 fun hblank => nomatch (Text.digit?_of_isBlank hblank).symm.trans hd
    split at h
    · next hd => exact turn_of_begin h (hdigit hd) nofun trivial
    · next hd => exact turn_of_begin h (hdigit hd) nofun trivial
    · cases h

theorem step_of_placeUnicode {r r' : Reader} {c : Char} {read : Text} {n : Nat} {high : Option Nat}
    (h : r.placeUnicode read n high = some r') : r.Step c r' := by
  unfold placeUnicode at h
  split at h
  · split at h
    · exact Option.some.inj h ▸ .inside nofun trivial nofun
    · cases h
  · split at h
    · cases h
    split at h
    · exact Option.some.inj h ▸ .inside nofun trivial nofun
    · exact Option.some.inj h ▸ .inside nofun trivial nofun

def extendsNumeral (c : Char) : Bool :=
  (Text.digit? c).isSome || c == '.' || c == 'e' || c == 'E' || c == '+' || c == '-'

theorem extendsNumeral_of_isBlank {c : Char} (h : Text.isBlank c = true) :
    extendsNumeral c = false := by
  have hne {d : Char} (hd : Text.isBlank d = false) : (c == d) = false :=
    beq_eq_false_iff_ne.2 fun hcd => Bool.false_ne_true (hd.symm.trans (hcd ▸ h))
  rw [extendsNumeral, Text.digit?_of_isBlank h, hne (by decide), hne (by decide), hne (by decide),
    hne (by decide), hne (by decide)]
  rfl

theorem extendNumeral?_eq_some {part : NumeralPart} {x : Numeral} {c : Char} {l : Lexeme}
    (h : extendNumeral? part x c = some l) :
    extendsNumeral c = true ∧ ∃ part x, l = .numeral part x := by
  unfold extendNumeral? at h
  simp only at h
  split at h
  · next d hd =>
    refine ⟨by simp [extendsNumeral, hd], ?_⟩
    split at h
    all_goals first
      | exact ⟨_, _, (Option.some.inj h).symm⟩
      | cases h
  · split at h
    · next hc => exact ⟨by grind [extendsNumeral], _, _, (Option.some.inj h).symm⟩
    split at h
    · next hc => exact ⟨by grind [extendsNumeral], _, _, (Option.some.inj h).symm⟩
    split at h
    · next hc => exact ⟨by grind [extendsNumeral], _, _, (Option.some.inj h).symm⟩
    · cases h

theorem step_of_placeString {r r' : Reader} {c : Char} {s : Text} (h : r.placeString s = some r')
    (hc : Text.isBlank c = false) : r.Step c r' := by
  unfold placeString at h
  split at h
  · next hframes => exact Option.some.inj h ▸ .key hc hframes
  · next hframes => exact Option.some.inj h ▸ .key hc hframes
  · exact Option.some.inj h ▸ .value hc rfl
  · exact Option.some.inj h ▸ .value hc rfl
  · cases h

theorem step_of_feed {r r' : Reader} {c : Char} (hsound : r.lexeme.Sound)
    (h : r.feed c = some r') : r.Step c r' := by
  -- by the lexeme that the reader is in
  unfold feed at h
  split at h
  · next hnone => exact .between (settle_of_none hnone) (turn_of_feedNone h)
  · next rest v hlit =>
    rw [hlit] at hsound
    obtain ⟨hrest, hv⟩ := hsound
    cases rest with
    | nil => cases h
    | cons d rest =>
      have hrest := Bool.or_eq_false_iff.1 hrest
      simp only at h
      split at h
      · cases h
      next hcd =>
      have hc : Text.isBlank c = false := by
        have hd : c = d := by simpa using hcd
        exact hd ▸ hrest.1
      split at h
      · exact Option.some.inj h ▸ .value hc hv
      · exact Option.some.inj h ▸ .inside nofun ⟨hrest.2, hv⟩ nofun
  · unfold feedString at h
    split at h
    · next hquote => exact step_of_placeString h (beq_iff_eq.1 hquote ▸ by decide)
    split at h
    · exact Option.some.inj h ▸ .inside nofun trivial nofun
    split at h
    · cases h
    · exact Option.some.inj h ▸ .inside nofun trivial nofun
  · unfold feedEscape at h
    simp only at h
    split at h
    all_goals first
      | exact Option.some.inj h ▸ .inside nofun trivial nofun
      | cases h
  · obtain ⟨d, -, h⟩ := Option.bind_eq_some_iff.1 h
    split at h
    · exact step_of_placeUnicode h
    · exact Option.some.inj h ▸ .inside nofun trivial nofun
  · split at h
    · split at h
      · exact Option.some.inj h ▸ .inside nofun trivial nofun
      · cases h
    · split at h
      · exact Option.some.inj h ▸ .inside nofun trivial nofun
      · cases h
  · next part x hnumeral =>
    split at h
    · next l hl =>
      obtain ⟨hc, part, x, rfl⟩ := extendNumeral?_eq_some hl
      refine Option.some.inj h ▸ .inside nofun trivial fun hblank => ?_
      exact absurd hc (Bool.eq_false_iff.1 (extendsNumeral_of_isBlank hblank))
    · obtain ⟨q, hq, hfeed⟩ := Option.bind_eq_some_iff.1 h
      refine .between ?_ (turn_of_feedNone hfeed)
      simp only [settle, hnumeral, hq]

theorem Sound.relex {r : Reader} (hs : r.Sound) {l : Lexeme} (hl : l.Sound) :
    { r with lexeme := l }.Sound := ⟨hl, hs.opened, hs.grown⟩

theorem Sound.turn {r r' : Reader} {c : Char} (hs : r.Sound) (h : r.Turn c r') : r'.Sound := by
  cases h with
  | space => exact hs
  | openArray => exact ⟨trivial, nofun, nofun⟩
  | openObject =>
    refine ⟨trivial, ?_, nofun⟩
    rintro _ _ _ ⟨rfl⟩ -
    rfl
  | closeArray => exact sound_place _ _
  | closeObject => exact sound_place _ _
  | comma ha => rcases ha with rfl | rfl <;> exact ⟨hs.lexeme, nofun, nofun⟩
  | colon => exact ⟨hs.lexeme, nofun, nofun⟩
  | lexeme _ _ hl => exact hs.relex hl

theorem Sound.step {r r' : Reader} {c : Char} (hs : r.Sound) (h : r.Step c r') : r'.Sound := by
  cases h with
  | between hsettle hturn => exact (hs.settle hsettle).turn hturn
  | inside _ hl => exact hs.relex hl
  | value => exact sound_place _ _
  | key => exact ⟨trivial, nofun, nofun⟩

theorem sound_start : start.Sound := ⟨trivial, nofun, nofun⟩

theorem Sound.foldlM {s : Text} {r r' : Reader} (hs : r.Sound) (h : s.foldlM feed r = some r') :
    r'.Sound := by
  induction s generalizing r with
  | nil => exact Option.some.inj h ▸ hs
  | cons c s ih =>
    rw [foldlM_cons] at h
    obtain ⟨q, hq, hrest⟩ := Option.bind_eq_some_iff.1 h
    exact ih (hs.step (step_of_feed hs.lexeme hq)) hrest

end Reader
end Json
end PatternBridge
