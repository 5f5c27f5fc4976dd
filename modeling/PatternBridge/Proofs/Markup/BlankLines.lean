import PatternBridge.Proofs.Markup.Cells

/-! Blank lines of a page. They become due while white space is printed, never more of them than the
options keep, and are put between two lines only: not before the first one, and not behind the last. -/

namespace PatternBridge.Markup
open Text

def Options.mostBlank (o : Options) : Nat := if o.preserveNewlines then o.maxPreserveNewlines - 1 else 0

/-- Lines of which neither the first nor the last one is blank, with at most `n` blank lines between
two others. -/
inductive WellSpaced (n : Nat) : List Text → Prop
  | nil : WellSpaced n []
  | first {line : Text} (hline : line ≠ []) : WellSpaced n [line]
  | next {lines : List Text} {k : Nat} {line : Text} (hlines : WellSpaced n lines) (hne : lines ≠ [])
      (hk : k ≤ n) (hline : line ≠ []) : WellSpaced n (lines ++ List.replicate k [] ++ [line])

theorem exists_of_append_replicate {α : Type} {xs ys zs : List α} {a x : α} {k : Nat} (hx : x ≠ a)
    (h : xs ++ List.replicate k a = ys ++ x :: zs) :
    ∃ zs', zs = zs' ++ List.replicate k a ∧ xs = ys ++ x :: zs' := by
  induction k generalizing zs with
  | zero => exact ⟨zs, (List.append_nil zs).symm, by rw [← h]; exact (List.append_nil xs).symm⟩
  | succ k ih =>
    rw [List.replicate_succ', ← List.append_assoc] at h
    rcases List.eq_nil_or_concat zs with rfl | ⟨init, last, rfl⟩
    · exact absurd (List.singleton_inj.1 (List.append_inj' h rfl).2).symm hx
    · rw [List.concat_eq_append, ← List.cons_append, ← List.append_assoc] at h
      obtain ⟨hinit, hlast⟩ := List.append_inj' h rfl
      obtain ⟨zs', rfl, hxs⟩ := ih hinit
      refine ⟨zs', ?_, hxs⟩
      rw [List.replicate_succ', ← List.append_assoc, List.concat_eq_append, List.singleton_inj.1 hlast]

namespace WellSpaced
variable {n : Nat} {lines : List Text}

theorem head?_ne_nil (h : WellSpaced n lines) : ∀ line ∈ lines.head?, line ≠ [] := by
  induction h with
  | nil => simp
  | first hline => simpa using hline
  | next _ hne _ _ ih =>
    rw [List.append_assoc, List.head?_append_of_ne_nil _ hne]
    exact ih

theorem getLast?_ne_nil (h : WellSpaced n lines) : ∀ line ∈ lines.getLast?, line ≠ [] := by
  cases h with
  | nil => simp
  | first hline => simpa using hline
  | next _ _ _ hline => simpa using hline

theorem length_le (h : WellSpaced n lines) {before gap after : List Text} {a b : Text}
    (hlines : lines = before ++ a :: (gap ++ b :: after)) (ha : a ≠ []) (hb : b ≠ [])
    (hgap : ∀ line ∈ gap, line = []) : gap.length ≤ n := by
  induction h generalizing after with
  | nil => simp at hlines
  | first _ =>
    have hlength := congrArg List.length hlines
    simp at hlength
    omega
  | @next lines k line hspaced hne hk _ ih =>
    have hsplit : before ++ a :: (gap ++ b :: after) = (before ++ a :: gap) ++ b :: after := by simp
    rw [hsplit] at hlines
    rcases List.eq_nil_or_concat after with rfl | ⟨init, last, rfl⟩
    · have hinit := (List.append_inj' hlines rfl).1
      obtain ⟨rest, rfl, rfl⟩ := exists_of_append_replicate ha hinit
      have hrest : rest = [] := by
        rcases List.eq_nil_or_concat rest with hnil | ⟨front, blank, rfl⟩
        · exact hnil
        · have hblank := hgap blank (by simp)
          have hlast : (before ++ a :: front.concat blank).getLast? = some blank :=
            List.getLast?_eq_some_iff.2 ⟨before ++ a :: front, by simp⟩
          exact absurd hblank (hspaced.getLast?_ne_nil blank hlast)
      simpa [hrest] using hk
    · rw [List.concat_eq_append, ← List.cons_append, ← List.append_assoc] at hlines
      have hinit := (List.append_inj' hlines rfl).1
      obtain ⟨rest, -, hold⟩ := exists_of_append_replicate hb hinit
      have hrest : lines = before ++ a :: (gap ++ b :: rest) := by
        rw [hold]
        simp
      exact ih hrest

end WellSpaced

namespace Page
variable {o : Options} {p : Page} {s : Text}

/-- The lines are well spaced, and will be with the next line. -/
structure Spacious (o : Options) (p : Page) : Prop where
  lines : WellSpaced o.mostBlank p.lines.toList
  blank : p.blank ≤ o.mostBlank

theorem indented_ne_nil (depth : Nat) (hs : s ≠ []) : indented o depth s ≠ [] :=
  List.append_ne_nil_of_right_ne_nil _ hs

theorem Spacious.emitAt (h : p.Spacious o) (depth : Nat) (hs : s ≠ []) :
    (p.emitAt o depth s).Spacious o := by
  refine ⟨?_, Nat.zero_le _⟩
  have hline := indented_ne_nil (o := o) depth hs
  unfold Page.emitAt
  dsimp only
  split
  · next hempty =>
    rw [Array.toList_push, Array.isEmpty_iff.1 hempty]
    exact .first hline
  · next hlines =>
    rw [Array.toList_push, Array.toList_append, Array.toList_replicate]
    exact h.lines.next (by simpa using hlines) h.blank hline

theorem Spacious.flush (h : p.Spacious o) : (p.flush o).Spacious o := by
  have hcleared : ({ p with line := [] } : Page).Spacious o := ⟨h.lines, h.blank⟩
  unfold Page.flush
  dsimp only
  split
  · exact hcleared
  · next hcontent => exact hcleared.emitAt _ (by simpa using hcontent)

theorem Spacious.emit (h : p.Spacious o) (hs : s ≠ []) : (p.emit o s).Spacious o := h.emitAt _ hs

theorem Spacious.block (h : p.Spacious o) (hs : s ≠ []) : (p.block o s).Spacious o := h.flush.emit hs

theorem Spacious.inline (h : p.Spacious o) (s : Text) : (p.inline s).Spacious o := ⟨h.lines, h.blank⟩

theorem Spacious.text (h : p.Spacious o) (s : Text) : (p.text o s).Spacious o := by
  unfold Page.text
  split
  · split
    · next hkeep =>
      refine ⟨h.flush.lines, ?_⟩
      rw [Options.mostBlank, if_pos (Bool.and_eq_true_iff.1 hkeep).1]
      exact Nat.sub_le_sub_right (Nat.min_le_right _ _) 1
    · split
      · exact h
      · exact h.inline _
  · exact h.inline _

theorem Spacious.deeper (h : p.Spacious o) : p.deeper.Spacious o := ⟨h.lines, h.blank⟩

theorem Spacious.shallower (h : p.Spacious o) : p.shallower.Spacious o := ⟨h.lines, h.blank⟩

end Page

section
variable {o : Options} {p : Page} {name slice : Text} {rest : List Token}

theorem spacious_templateTag (h : p.Spacious o) (kind : TagKind) (hslice : slice ≠ []) :
    (templateTag o kind slice p).Spacious o := by
  unfold templateTag
  split
  · cases kind with
    | opening => exact (h.block hslice).deeper
    | closing => exact h.flush.shallower.block hslice
    | divider => exact h.flush.emitAt _ hslice
    | inline => exact h.inline slice
  · exact h.inline slice

theorem spacious_closeElement (h : p.Spacious o) (name : Text) (hslice : slice ≠ []) :
    (closeElement o name slice p).Spacious o := by
  unfold closeElement
  split
  · exact h.inline slice
  · dsimp only
    split
    · exact h.flush.shallower.block hslice
    · exact h.flush.block hslice

theorem rawBody_of_no_raw (h : ∀ body, .raw body ∉ rest) : rawBody rest = ([], rest) := by
  fun_cases rawBody rest with
  | case1 body after => exact absurd List.mem_cons_self (h body)
  | case2 => rfl

/-- Only a raw body has lines of its own, among which there may be blank ones. -/
theorem spacious_openElement (h : p.Spacious o) (name : Text) (hslice : slice ≠ [])
    (hrest : ∀ body, .raw body ∉ rest) : (openElement o name slice rest p).1.Spacious o := by
  have hline (s : Text) : ((p.flush o).emit o (slice ++ s)).Spacious o :=
    h.flush.emit (List.append_ne_nil_of_left_ne_nil hslice s)
  unfold openElement
  rw [rawBody_of_no_raw hrest]
  split
  · exact h.inline slice
  split
  · exact hline _
  split
  · exact hline _
  split
  · exact hline _
  · dsimp only
    split
    · exact (h.block hslice).deeper
    · exact h.block hslice

theorem spacious_printToken {tok : Token} (h : p.Spacious o) (htok : tok.slice ≠ [])
    (hrest : ∀ body, .raw body ∉ rest) : (printToken o tok rest p).1.Spacious o := by
  cases tok with
  | text s => exact h.text s
  | comment s => exact h.block htok
  | raw s => exact h.inline s
  | tag kind s => exact spacious_templateTag h kind htok
  | closing name s => exact spacious_closeElement h name htok
  | opening name s => exact spacious_openElement h name htok hrest
  | void name s =>
    unfold printToken
    dsimp only
    split
    · exact h.inline s
    · exact h.block htok

theorem spacious_printTokens {toks : List Token} (h : p.Spacious o)
    (htoks : ∀ tok ∈ toks, tok.slice ≠ []) (hraw : ∀ body, .raw body ∉ toks) :
    (printTokens o p toks).Spacious o := by
  fun_induction printTokens o p toks with
  | case1 p => exact h.flush
  | case2 p tok rest next ih =>
    have hsubset : next.2 ⊆ tok :: rest := fun t ht =>
      List.mem_cons_of_mem _ ((suffix_printToken o tok rest p).subset ht)
    have hrest : ∀ body, .raw body ∉ rest := fun body hbody =>
      hraw body (List.mem_cons_of_mem _ hbody)
    exact ih (spacious_printToken h (htoks tok List.mem_cons_self) hrest)
      (fun t ht => htoks t (hsubset ht)) (fun body hbody => hraw body (hsubset hbody))

end

/-- Without raw bodies, the blank lines of a page are those that the white space of the text leaves. -/
theorem blank_between_lines {o : Options} {s : Text} (h : ∀ body, .raw body ∉ tokens o s) :
    let lines := (printed o (tokens o s)).lines.toList
    (∀ line ∈ lines.head?, line ≠ []) ∧ (∀ line ∈ lines.getLast?, line ≠ []) ∧
    ∀ before a gap b after, lines = before ++ a :: (gap ++ b :: after) → a ≠ [] → b ≠ [] →
      (∀ line ∈ gap, line = []) → gap.length ≤ o.mostBlank := by
  intro lines
  have hstart : ({} : Page).Spacious o := ⟨.nil, Nat.zero_le _⟩
  have hspaced : WellSpaced o.mostBlank lines :=
    (spacious_printTokens hstart (fun _ => slice_ne_nil_of_mem_tokens) h).lines
  exact ⟨hspaced.head?_ne_nil, hspaced.getLast?_ne_nil,
    fun _ _ _ _ _ hlines ha hb hgap => hspaced.length_le hlines ha hb hgap⟩

/-- Of five line breaks three are kept, of white space at the ends of the text none. -/
theorem blank_between_comments :
    let o : Options := { maxPreserveNewlines := 3 }
    let s : Text := "\n\n\n<!-- a -->\n\n\n\n\n\x7b\x7b#b\x7d\x7d\n \n\n c \n\x7b\x7b/b\x7d\x7d\n\n\n"
    let lines : List Text :=
      ["<!-- a -->", "", "", "\x7b\x7b#b\x7d\x7d", "    c", "\x7b\x7b/b\x7d\x7d"]
    (∀ body, .raw body ∉ tokens o s) ∧ (printed o (tokens o s)).lines.toList = lines ∧
    (∀ line ∈ lines.head?, line ≠ []) ∧ (∀ line ∈ lines.getLast?, line ≠ []) ∧
    ∀ before a gap b after, lines = before ++ a :: (gap ++ b :: after) → a ≠ [] → b ≠ [] →
      (∀ line ∈ gap, line = []) → gap.length ≤ 2 := by
  intro o s lines
  have htokens : tokens o s = [.text "\n\n\n", .comment "<!-- a -->",
      .text "\n\n\n\n\n", .tag .opening "\x7b\x7b#b\x7d\x7d", .text "\n \n\n c \n",
      .tag .closing "\x7b\x7b/b\x7d\x7d", .text "\n\n\n"] := by decide +kernel
  have hraw : ∀ body, .raw body ∉ tokens o s := by simp [htokens]
  have hlines : (printed o (tokens o s)).lines.toList = lines := by decide +kernel
  have hblank := blank_between_lines hraw
  rw [hlines] at hblank
  exact ⟨hraw, hlines, hblank⟩

end PatternBridge.Markup
