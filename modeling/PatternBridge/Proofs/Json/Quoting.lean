import PatternBridge.Json.Quoted
import PatternBridge.Json.Reader

/-! Reading strings and members as they are written. The reader goes over an escaped character as
over the character itself, and lines of members grow the object in which they stand. -/

namespace PatternBridge.Json

theorem hexDigit?_hexDigit : ∀ n, n < 16 → Text.hexDigit? (hexDigit n) = some n := by decide

namespace Reader

theorem foldlM_append (r : Reader) (a b : Text) :
    (a ++ b).foldlM feed r = (a.foldlM feed r).bind fun r => b.foldlM feed r :=
  List.foldlM_append

theorem foldlM_cons (r : Reader) (c : Char) (s : Text) :
    (c :: s).foldlM feed r = (r.feed c).bind fun r => s.foldlM feed r := List.foldlM_cons

theorem placeUnicode_eq (r : Reader) (read : Text) {n : Nat} (hn : n < 0xD800) :
    r.placeUnicode read n none = some { r with lexeme := .string (Char.ofNat n :: read) } := by
  have hlow : ¬ (decide (0xDC00 ≤ n) && decide (n ≤ 0xDFFF)) = true := by simp; omega
  have hhigh : ¬ (decide (0xD800 ≤ n) && decide (n ≤ 0xDBFF)) = true := by simp; omega
  simp only [placeUnicode, if_neg hlow, if_neg hhigh]

theorem foldlM_control (r : Reader) (read : Text) {n : Nat} (hn : n < 0x20) :
    ("\\u00".toList ++ [hexDigit (n / 16), hexDigit (n % 16)]).foldlM feed
      { r with lexeme := .string read } = some { r with lexeme := .string (Char.ofNat n :: read) } := by
  have hhigh := hexDigit?_hexDigit (n / 16) (by omega)
  have hlow := hexDigit?_hexDigit (n % 16) (by omega)
  have hzero : Text.hexDigit? '0' = some 0 := by decide
  have hnum : n / 16 * 16 + n % 16 = n := by omega
  have hescape : "\\u00".toList = ['\\', 'u', '0', '0'] := rfl
  simp [hescape, feed, feedString, feedEscape, hzero, hhigh, hlow, hnum,
    placeUnicode_eq _ _ (Nat.lt_trans hn (by decide : 0x20 < 0xD800))]

theorem foldlM_escaped (r : Reader) (read : Text) (c : Char) :
    (escaped c).foldlM feed { r with lexeme := .string read } =
      some { r with lexeme := .string (c :: read) } := by
  unfold escaped
  split
  · next h => rw [beq_iff_eq.1 h]; rfl
  split
  · next h => rw [beq_iff_eq.1 h]; rfl
  split
  · next h => rw [beq_iff_eq.1 h]; rfl
  split
  · next h => rw [beq_iff_eq.1 h]; rfl
  split
  · next h => rw [beq_iff_eq.1 h]; rfl
  split
  · next h => rw [beq_iff_eq.1 h]; rfl
  split
  · next h => rw [beq_iff_eq.1 h]; rfl
  split
  · next h =>
    have hcontrol := foldlM_control r read h
    rwa [Char.ofNat_toNat] at hcontrol
  · next hquote hslash _ _ _ _ _ hcontrol =>
    simp [feed, feedString, hquote, hslash, hcontrol]

theorem foldlM_flatMap_escaped (r : Reader) (read s : Text) :
    (s.flatMap escaped).foldlM feed { r with lexeme := .string read } =
      some { r with lexeme := .string (s.reverse ++ read) } := by
  induction s generalizing read with
  | nil => rfl
  | cons c s ih =>
    rw [List.flatMap_cons, foldlM_append, foldlM_escaped, Option.bind_some, ih]
    simp

theorem foldlM_quoted {r : Reader} (hnone : r.lexeme = .none) (htakes : r.takesString = true)
    (s : Text) : (quoted s).foldlM feed r = { r with lexeme := .string s.reverse }.placeString s := by
  have hopen : r.feed '"' = some { r with lexeme := .string [] } := by
    simp [feed, hnone, feedNone, htakes]
  have hclose (read : Text) : feed { r with lexeme := .string read } '"' =
      { r with lexeme := .string read }.placeString read.reverse := rfl
  rw [quoted, foldlM_cons, hopen, Option.bind_some, foldlM_append, foldlM_flatMap_escaped,
    Option.bind_some, List.append_nil, foldlM_cons, hclose, List.reverse_reverse]
  exact Option.bind_fun_some _

/-- Between the members of the outermost object. -/
def within (ms : Members) (key : Text) (await : Await) : Reader :=
  { frames := [.object ms key], await }

theorem foldlM_line {await : Await} (hawait : await = .key ∨ await = .keyOrEnd) (ms : Members)
    (key : Text) (pair : Text × Text) :
    ("\n  ".toList ++ memberText pair).foldlM feed (within ms key await) =
      some (within (ms.put pair.1 (.string pair.2)) pair.1 .commaOrEnd) := by
  have hindent : "\n  ".toList.foldlM feed (within ms key await) = some (within ms key await) := rfl
  have htakes : (within ms key await).takesString = true := by
    rcases hawait with rfl | rfl <;> rfl
  have hkey (l : Lexeme) : { within ms key await with lexeme := l }.placeString pair.1 =
      some (within ms pair.1 .colon) := by
    rcases hawait with rfl | rfl <;> rfl
  have hcolon : ": ".toList.foldlM feed (within ms pair.1 .colon) =
      some (within ms pair.1 .value) := rfl
  rw [memberText, foldlM_append, hindent, Option.bind_some, List.append_assoc, foldlM_append,
    foldlM_quoted rfl htakes, hkey, Option.bind_some, foldlM_append]
  show (": ".toList.foldlM feed _).bind _ = _
  rw [hcolon, Option.bind_some, foldlM_quoted rfl rfl]
  rfl

theorem foldlM_lines {await : Await} (hawait : await = .key ∨ await = .keyOrEnd) (ms : Members)
    (key : Text) {pairs : List (Text × Text)} (hne : pairs ≠ []) :
    ∃ last, ([','].intercalate (pairs.map fun p => "\n  " ++ memberText p)).foldlM feed
      (within ms key await) =
        some (within (ms.overlay (pairs.map fun p => (p.1, .string p.2))) last .commaOrEnd) := by
  induction pairs generalizing ms key await with
  | nil => exact absurd rfl hne
  | cons p pairs ih =>
    have hfirst := foldlM_line hawait ms key p
    cases pairs with
    | nil =>
      refine ⟨p.1, ?_⟩
      rw [List.map_singleton, List.intercalate_singleton]
      exact hfirst
    | cons q pairs =>
      have hcomma (ms : Members) (key : Text) :
          [','].foldlM feed (within ms key .commaOrEnd) = some (within ms key .key) := rfl
      obtain ⟨last, hrest⟩ := ih (.inl rfl) (ms.put p.1 (.string p.2)) p.1 (List.cons_ne_nil q pairs)
      refine ⟨last, ?_⟩
      rw [List.map_cons, List.map_cons, List.intercalate_cons_cons, foldlM_append, foldlM_append,
        hfirst, Option.bind_some, hcomma, Option.bind_some]
      exact hrest

end Reader

namespace Members

theorem put_of_not_hasKey {key : Text} {ms : Members} (h : ms.hasKey key = false) (v : Value) :
    ms.put key v = ms ++ [(key, v)] := by
  induction ms with
  | nil => rfl
  | cons m ms ih =>
    have hboth := Bool.or_eq_false_iff.1 h
    have hm : (m.1 == key) = false := hboth.1
    rw [put, hm, if_neg Bool.false_ne_true, ih hboth.2, List.cons_append]

theorem overlay_of_not_hasKey {ms upper : Members} (hnew : ∀ m ∈ upper, ms.hasKey m.1 = false)
    (hnodup : (upper.map Prod.fst).Nodup) : ms.overlay upper = ms ++ upper := by
  induction upper generalizing ms with
  | nil => exact (List.append_nil ms).symm
  | cons m upper ih =>
    obtain ⟨hm, hrest⟩ := List.nodup_cons.1 hnodup
    have hput := put_of_not_hasKey (hnew m List.mem_cons_self) m.2
    have hstep : ms.overlay (m :: upper) = (ms.put m.1 m.2).overlay upper := rfl
    rw [hstep, hput, ih ?_ hrest, List.append_assoc, List.singleton_append]
    intro u hu
    have hne : m.1 ≠ u.1 := fun h => hm (h ▸ List.mem_map_of_mem hu)
    simpa [hasKey, hne] using hnew u (List.mem_cons_of_mem _ hu)

end Members
end PatternBridge.Json
