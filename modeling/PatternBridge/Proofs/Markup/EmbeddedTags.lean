import PatternBridge.Proofs.Markup.Cells
import PatternBridge.Proofs.Markup.Verbatim
import PatternBridge.Proofs.Text.Occurrence

/-! Template tags inside of element tags. The reader of an element tag passes a template tag as a whole,
except in a quoted value, where it looks for the quote alone. -/

namespace PatternBridge.Markup
open Text

variable {o : Options} {a s u x y rest : Text} {q : Char} {tok : Token}

def Token.isElement : Token → Bool
  | .opening .. | .closing .. | .void .. => true
  | _ => false

/-- In front of `rest`, the reader of an element tag passes the text from a place outside of quotes to
another one: bare characters, quoted values, and template tags up to their end. -/
inductive Passed : Text → Text → Prop
  | nil (rest : Text) : Passed [] rest
  | bare {c : Char} {a rest : Text} (hc : c ≠ '"' ∧ c ≠ '\'' ∧ c ≠ '>')
      (htag : ['{', '{'] <+: c :: (a ++ rest) → ¬ ['}', '}'] <:+: c :: (a ++ rest))
      (h : Passed a rest) : Passed (c :: a) rest
  | value {q : Char} {v a rest : Text} (hq : q = '"' ∨ q = '\'') (hv : q ∉ v)
      (h : Passed a rest) : Passed (q :: (v ++ q :: a)) rest
  | tag {t a rest : Text} (ht : ['{', '{'] <+: t)
      (hend : through? ['}', '}'] (t ++ (a ++ rest)) = some (t, a ++ rest))
      (h : Passed a rest) : Passed (t ++ a) rest

/-- The place behind `x` in an element tag stands in a value that `q` quotes. -/
def InValue (q : Char) (x rest : Text) : Prop :=
  ∃ a v, x = '<' :: (a ++ q :: v) ∧ (q = '"' ∨ q = '\'') ∧ q ∉ v ∧ Passed a (q :: (v ++ rest))

/-- The same for text that starts in a value, if a quote is given. -/
def PassedFrom : Option Char → Text → Text → Prop
  | none, u, rest => Passed u rest
  | some q, u, rest => ∃ v a, u = v ++ q :: a ∧ q ∉ v ∧ Passed a rest

theorem PassedFrom.cons_in_value {c : Char}
    (h : PassedFrom (if c == q then none else some q) u rest) : PassedFrom (some q) (c :: u) rest := by
  split at h
  · next hc => exact ⟨[], u, by rw [beq_iff_eq.1 hc]; rfl, List.not_mem_nil, h⟩
  · next hc =>
    obtain ⟨v, a, rfl, hv, ha⟩ := h
    have hne : q ≠ c := fun hq => hc (by rw [hq, beq_self_eq_true])
    exact ⟨c :: v, a, rfl, List.not_mem_cons_of_ne_of_not_mem hne hv, ha⟩

theorem PassedFrom.passed (h : PassedFrom (some q) u rest) (hq : q = '"' ∨ q = '\'') :
    Passed (q :: u) rest := by
  obtain ⟨v, a, rfl, hv, ha⟩ := h
  exact .value hq hv ha

theorem braces_prefix_iff {c : Char} :
    ['{', '{'] <+: c :: s ↔ (c == '{' && s.head? == some '{') = true := by
  rw [List.cons_prefix_cons, List.singleton_prefix_iff_head?_eq_some, Bool.and_eq_true, beq_iff_eq,
    beq_iff_eq, eq_comm]

theorem passedFrom_of_tagRest? {quote : Option Char} (h : tagRest? quote s = some (a, rest)) :
    ∃ u, a = u ++ ['>'] ∧ PassedFrom quote u ('>' :: rest) := by
  have hput {result : Option (Text × Text)} {p b : Text} {P : Text → Prop}
      (hresult : ∀ {b}, result = some (b, rest) → ∃ u, b = u ++ ['>'] ∧ P u)
      (h : result.map (putBefore p) = some (b, rest)) :
      ∃ u, b = p ++ u ++ ['>'] ∧ result = some (u ++ ['>'], rest) ∧ P u := by
    obtain ⟨⟨b, r⟩, hb, heq⟩ := Option.map_eq_some_iff.1 h
    obtain ⟨rfl, rfl⟩ := Prod.mk.inj heq
    obtain ⟨u, rfl, hu⟩ := hresult hb
    exact ⟨u, (List.append_assoc p u _).symm, hb, hu⟩
  have htext {s u : Text} (h : tagRest? none s = some (u ++ ['>'], rest)) :
      u ++ '>' :: rest = s := by
    rw [eq_append_of_tagRest? h, List.append_assoc]
    rfl
  have hbare {c : Char} (hquote : ¬ (c == '"' || c == '\'') = true) (hend : ¬ (c == '>') = true) :
      c ≠ '"' ∧ c ≠ '\'' ∧ c ≠ '>' := by
    simpa [and_assoc] using And.intro hquote hend
  -- a template tag with an end is passed in one step (`case5`); one without is read as bare text (`case6`)
  fun_induction tagRest? quote s generalizing a with
  | case1 => cases h
  | case2 c s q ih =>
    obtain ⟨u, rfl, -, hu⟩ := hput ih h
    rw [dite_eq_ite] at hu
    exact ⟨c :: u, rfl, hu.cons_in_value⟩
  | case3 c s hquote ih =>
    obtain ⟨u, rfl, -, hu⟩ := hput ih h
    exact ⟨c :: u, rfl, hu.passed (by simpa using hquote)⟩
  | case4 c s hquote hend =>
    obtain ⟨rfl, rfl⟩ := Prod.mk.inj (Option.some.inj h)
    exact ⟨[], by rw [beq_iff_eq.1 hend]; rfl, .nil _⟩
  | case5 c s hquote hend htag skipped after hskip ih =>
    obtain ⟨u, rfl, hu', hu⟩ := hput ih h
    have hlength : 2 ≤ skipped.length := length_of_through? hskip
    have htext' := eq_append_of_through? hskip
    refine ⟨skipped ++ u, rfl, .tag ?_ ?_ hu⟩
    · exact List.prefix_of_prefix_length_le (braces_prefix_iff.2 htag)
        ⟨after, htext'.symm⟩ hlength
    · rw [htext hu', ← htext']
      exact hskip
  | case6 c s hquote hend htag hskip ih =>
    obtain ⟨u, rfl, hu', hu⟩ := hput ih h
    refine ⟨c :: u, rfl, .bare (hbare hquote hend) (fun _ => ?_) hu⟩
    rw [htext hu']
    exact through?_eq_none_iff.1 hskip
  | case7 c s hquote hend htag ih =>
    obtain ⟨u, rfl, hu', hu⟩ := hput ih h
    refine ⟨c :: u, rfl, .bare (hbare hquote hend) (fun hbraces => ?_) hu⟩
    rw [htext hu', braces_prefix_iff] at hbraces
    exact absurd hbraces htag

theorem InValue.behind {p y : Text} (h : InValue q ('<' :: x) y)
    (hp : ∀ a r, a ++ r = x ++ y → Passed a r → Passed (p ++ a) r) :
    InValue q ('<' :: (p ++ x)) y := by
  obtain ⟨a, v, hx, hq, hv, ha⟩ := h
  obtain rfl := (List.cons.inj hx).2
  exact ⟨p ++ a, v, by rw [List.append_assoc], hq, hv, hp _ _ (by simp) ha⟩

theorem braces_of_append {p : Text} (h : p ++ s = x ++ '{' :: '{' :: y)
    (hseam : p.getLast? ≠ some '{' ∨ s.head? ≠ some '{') :
    (∃ m, x = p ++ m ∧ s = m ++ '{' :: '{' :: y) ∨ ∃ m, p = x ++ '{' :: '{' :: m ∧ y = m ++ s := by
  obtain ⟨m, hx, hm⟩ | ⟨m, hp, hm⟩ := List.append_eq_append_iff.1 h
  · exact .inl ⟨m, hx, hm⟩
  · match m with
    | [] => exact .inl ⟨[], by rw [hp, List.append_nil, List.append_nil], hm.symm⟩
    | [c] =>
      obtain ⟨hc, hs⟩ := List.cons.inj hm
      rw [hp, List.getLast?_concat, ← hc, show s = '{' :: y from hs.symm] at hseam
      simp at hseam
    | c :: d :: m =>
      obtain ⟨hc, hm⟩ := List.cons.inj hm
      obtain ⟨hd, hy⟩ := List.cons.inj hm
      exact .inr ⟨m, by rw [hp, ← hc, ← hd], hy⟩

theorem braces_of_concat {c : Char} (hc : c ≠ '{') (h : u ++ [c] = x ++ '{' :: '{' :: y) :
    ∃ m, u = x ++ '{' :: '{' :: m ∧ y = m ++ [c] := by
  have hseam : ([c] : Text).head? ≠ some '{' := fun hbrace => hc (Option.some.inj hbrace)
  refine (braces_of_append h (.inr hseam)).resolve_left ?_
  rintro ⟨m, -, hm⟩
  have hlength := congrArg List.length hm
  simp at hlength
  omega

theorem Passed.closed (h : Passed u rest) (hu : u = x ++ '{' :: '{' :: y)
    (hend : ['}', '}'] <:+: y ++ rest) :
    ['}', '}'] <:+: y ∨ ∃ q ∈ y, InValue q ('<' :: x) ('{' :: '{' :: (y ++ rest)) := by
  have htext {a a' r rest m : Text} (har : a' ++ r = m ++ '{' :: '{' :: (y ++ rest))
      (ha : a = m ++ '{' :: '{' :: y) : a' ++ r = a ++ rest := by
    rw [har, ha]
    simp
  induction h generalizing x with
  | nil rest => simp at hu
  | @bare c a rest hc htag h ih =>
    cases x with
    | nil =>
      obtain ⟨rfl, rfl⟩ := List.cons.inj hu
      exact absurd (hend.trans (List.suffix_append ['{', '{'] _).isInfix)
        (htag (List.prefix_append ['{', '{'] _))
    | cons d x =>
      obtain ⟨rfl, ha⟩ := List.cons.inj hu
      refine (ih ha hend).imp_right fun ⟨q, hq, hvalue⟩ => ⟨q, hq, hvalue.behind (p := [c]) ?_⟩
      exact fun a' r har => Passed.bare hc (htext har ha ▸ htag)
  | @value q v a rest hq hv h ih =>
    have hbrace : q ≠ '{' := by
      rcases hq with rfl | rfl <;> decide
    have hwhole : q :: (v ++ [q]) ++ a = x ++ '{' :: '{' :: y := by simpa using hu
    have hlast : (q :: (v ++ [q])).getLast? ≠ some '{' := by
      rw [← List.cons_append, List.getLast?_concat]
      exact fun hquote => hbrace (Option.some.inj hquote)
    obtain ⟨m, rfl, ha⟩ | ⟨m, hm, rfl⟩ := braces_of_append hwhole (.inl hlast)
    · refine (ih ha hend).imp_right fun ⟨q', hq', hvalue⟩ => ⟨q', hq', hvalue.behind ?_⟩
      intro a' r _ ha'
      simpa using Passed.value hq hv ha'
    · -- in the value, whose last quote stands behind the two braces
      cases x with
      | nil => exact absurd (List.cons.inj hm).1 hbrace
      | cons d x =>
        obtain ⟨rfl, hvalue⟩ := List.cons.inj hm
        obtain ⟨m', rfl, rfl⟩ := braces_of_concat hbrace hvalue
        exact .inr ⟨q, by simp, [], x, rfl, hq, fun hx => hv (List.mem_append_left _ hx), .nil _⟩
  | @tag t a rest ht hskip h ih =>
    have hsuffix : ['}', '}'] <:+ t := suffix_of_through? hskip
    have hlast : t.getLast? ≠ some '{' := by
      obtain ⟨front, rfl⟩ := hsuffix
      simp
    obtain ⟨m, rfl, ha⟩ | ⟨m, rfl, rfl⟩ := braces_of_append hu (.inl hlast)
    · refine (ih ha hend).imp_right fun ⟨q, hq, hvalue⟩ => ⟨q, hq, hvalue.behind ?_⟩
      exact fun a' r har => .tag ht (htext har ha ▸ hskip)
    · -- in a template tag, whose end stands behind the two braces
      have hsplit : x ++ '{' :: '{' :: m = x ++ ['{', '{'] ++ m := by simp
      rw [hsplit, suffix_append_iff_of_notMem (by simp)] at hsuffix
      exact .inl (hsuffix.isInfix.trans (List.prefix_append m a).isInfix)

theorem isElement_isMark (h : tok.isElement) : tok.isMark := by
  cases tok with
  | opening => rfl
  | closing => rfl
  | void => rfl
  | _ => cases h

theorem exists_tagRest?_of_isElement (htok : tok.isElement) (h : readToken? s = some (tok, rest)) :
    ∃ a, tok.slice = '<' :: a ∧ tagRest? none (a ++ rest) = some (a, rest) := by
  cases tokenAt_of_readToken? h with
  | tag => cases htok
  | comment => cases htok
  | unended => cases htok
  | element hs hend => exact ⟨_, slice_elementToken _ _ _, hend⟩

/-- A template tag that starts in an element tag and ends at all ends in it, unless it starts in a
quoted value and holds the quote of that value itself. -/
theorem closed_of_isElement {front back : List Token} (h : tokens o s = front ++ tok :: back)
    (htok : tok.isElement) (hslice : tok.slice = x ++ '{' :: '{' :: y)
    (hend : ['}', '}'] <:+: y ++ slices back) :
    ['}', '}'] <:+: y ∨ ∃ q ∈ y, InValue q x ('{' :: '{' :: (y ++ slices back)) := by
  obtain ⟨hread, -⟩ := readToken?_of_tokens_eq_append (isElement_isMark htok) h
  obtain ⟨a, ha, hrest⟩ := exists_tagRest?_of_isElement htok hread
  obtain ⟨u, rfl, hu⟩ := passedFrom_of_tagRest? hrest
  rw [ha] at hslice
  cases x with
  | nil => exact absurd (List.cons.inj hslice).1 (by decide)
  | cons c x =>
    obtain ⟨rfl, htext⟩ := List.cons.inj hslice
    obtain ⟨m, rfl, rfl⟩ := braces_of_concat (by decide) htext
    rw [List.append_assoc] at hend ⊢
    refine (hu.closed rfl hend).imp (fun h => h.trans (List.prefix_append _ _).isInfix) ?_
    exact fun ⟨q, hq, hvalue⟩ => ⟨q, List.mem_append_left _ hq, hvalue⟩

/-- A quoted value with a template tag that holds the other quote and an angle bracket. -/
theorem closed_in_value :
    tokens {} "<a b=\"\x7b\x7bf 'x>y'\x7d\x7d\" c>z" =
      [.opening "a" "<a b=\"\x7b\x7bf 'x>y'\x7d\x7d\" c>", .text "z"] ∧
    (['}', '}'] <:+: "f 'x>y'\x7d\x7d\" c>".toList ∨ ∃ q ∈ "f 'x>y'\x7d\x7d\" c>".toList,
      InValue q "<a b=\"" ("\x7b\x7bf 'x>y'\x7d\x7d\" c>".toList ++ ['z'])) := by
  have htoks : tokens {} "<a b=\"\x7b\x7bf 'x>y'\x7d\x7d\" c>z" =
      [] ++ .opening "a" "<a b=\"\x7b\x7bf 'x>y'\x7d\x7d\" c>" :: [.text "z"] := by
    decide +kernel
  exact ⟨htoks, closed_of_isElement htoks rfl (by decide) (by decide +kernel)⟩

/-- The value's own quote in the template tag ends the value, and the angle bracket behind it the
element tag. -/
theorem own_quote_cuts_tag :
    tokens {} "<div a=\"\x7b\x7bf \"x>  y\"\x7d\x7d\">z</div>" =
      [.opening "div" "<div a=\"\x7b\x7bf \"x>", .text "  y\"\x7d\x7d\">z",
        .closing "div" "</div>"] ∧
    (Token.opening "div" "<div a=\"\x7b\x7bf \"x>").slice =
      "<div a=\"".toList ++ '{' :: '{' :: "f \"x>".toList ∧
    ['}', '}'] <:+: "f \"x>".toList ++
      slices [.text "  y\"\x7d\x7d\">z", .closing "div" "</div>"] ∧
    ¬ ['}', '}'] <:+: "f \"x>".toList := by
  decide +kernel

end PatternBridge.Markup
