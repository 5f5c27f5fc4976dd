import Mathlib.Data.List.Forall2
import Mathlib.Order.Bounds.Basic
import PatternBridge.Proofs.Markup.Redented
import PatternBridge.Text.Bytes

/-! The lines of a body without their common indentation: the indentation is the largest that all
lines with content share, and lines that are indented anew are dedented to the same lines. -/

namespace PatternBridge.Text

theorem byteLength_of_asciiBlank {w : Text} (h : ∀ c ∈ w, isAsciiBlank c) :
    byteLength w = w.length := by
  induction w with
  | nil => rfl
  | cons c w ih =>
    have hc : c.utf8Size = 1 := by
      have hblank := h c List.mem_cons_self
      simp only [isAsciiBlank, Bool.or_eq_true, beq_iff_eq] at hblank
      rcases hblank with (((rfl | rfl) | rfl) | rfl) | rfl <;> rfl
    rw [byteLength, hc, ih fun d hd => h d (List.mem_cons_of_mem c hd), List.length_cons,
      Nat.add_comm]

end PatternBridge.Text

namespace PatternBridge.Markup
open Text

variable {s w line out : Text} {k : Nat}

/-- What is left of a line without its first `k` bytes, all of them ASCII white space. -/
def Unindented (k : Nat) (line out : Text) : Prop :=
  ∃ lead, line = lead ++ out ∧ byteLength lead = k ∧ ∀ c ∈ lead, isAsciiBlank c

theorem unindented_drop (h : k ≤ leadingBlanks line) : Unindented k line (line.drop k) := by
  obtain ⟨hblank, hlength⟩ := exists_leadingBlanks h
  exact ⟨line.take k, (List.take_append_drop k line).symm,
    (byteLength_of_asciiBlank hblank).trans hlength, hblank⟩

theorem Unindented.le_leadingBlanks (h : Unindented k line out) : k ≤ leadingBlanks line := by
  obtain ⟨lead, rfl, rfl, hblank⟩ := h
  rw [leadingBlanks_append hblank, byteLength_of_asciiBlank hblank]
  exact Nat.le_add_right _ _

theorem isGreatest_commonIndent {lines : List Text} (h : ∃ line ∈ lines, line ≠ []) :
    IsGreatest {n | ∀ line ∈ lines, line ≠ [] → ∃ out, Unindented n line out}
      (commonIndent lines) := by
  refine ⟨fun line hline hne => ⟨_, unindented_drop (commonIndent_le hline hne)⟩, fun n hn => ?_⟩
  obtain ⟨least, hleast, hne, heq⟩ := exists_commonIndent h
  obtain ⟨out, hout⟩ := hn least hleast hne
  exact heq ▸ hout.le_leadingBlanks

theorem forall₂_dedent (s : Text) :
    List.Forall₂ (fun line out => (line = [] ∧ out = []) ∨
      (out ≠ [] ∧ Unindented (commonIndent (bodyLines s)) line out)) (bodyLines s) (dedent s) := by
  refine List.forall₂_map_right_iff.2 (List.forall₂_same.2 fun line hline => ?_)
  by_cases hne : line = []
  · exact .inl ⟨hne, by rw [hne, List.drop_nil]⟩
  · exact .inr ⟨mt (drop_eq_nil_iff hline).1 hne, unindented_drop (commonIndent_le hline hne)⟩

theorem trimmedLines_intercalate {lines : List Text} (hne : lines ≠ [])
    (h : ∀ line ∈ lines, '\n' ∉ line ∧ trimEnd line = line) :
    trimmedLines (['\n'].intercalate lines) = lines := by
  rw [trimmedLines, List.splitOn_intercalate '\n' (fun line hline => (h line hline).1) hne]
  exact (List.map_congr_left fun line hline => (h line hline).2).trans (List.map_id' lines)

theorem dedent_intercalate_shifted (hw : ∀ c ∈ w, isAsciiBlank c) (hbreak : '\n' ∉ w) (s : Text) :
    dedent (['\n'].intercalate ((dedent s).map (shifted w))) = dedent s := by
  by_cases hnil : dedent s = []
  · rw [hnil]
    rfl
  have hlines : ∀ line ∈ (dedent s).map (shifted w), '\n' ∉ line ∧ trimEnd line = line := by
    intro line hline
    obtain ⟨l, hl, rfl⟩ := List.mem_map.1 hline
    exact of_mem_dedent_shifted hbreak hl
  refine dedent_of_shifted hw ?_
  rw [bodyLines_eq, trimmedLines_intercalate (by simpa using hnil) hlines, trimWith_shifted]

/-- The lines of a body from the first to the last that is not blank lose the white space at their
ends and one indentation, the largest that all lines with content have. Indenting the result anew
does not change what it is dedented to. -/
theorem dedent_removes_indentation (body : Text) :
    (∃ before lines after k,
      (body.splitOn '\n').map trimEnd = before ++ (lines ++ after) ∧
      (∀ line ∈ before ++ after, line = []) ∧
      (∀ line ∈ lines.head?, line ≠ []) ∧ (∀ line ∈ lines.getLast?, line ≠ []) ∧
      List.Forall₂ (fun line out => (line = [] ∧ out = []) ∨ (out ≠ [] ∧ Unindented k line out))
        lines (dedent body) ∧
      (lines ≠ [] →
        IsGreatest {n | ∀ line ∈ lines, line ≠ [] → ∃ out, Unindented n line out} k)) ∧
    ∀ w, (∀ c ∈ w, c = ' ' ∨ c = '\t') →
      dedent (['\n'].intercalate ((dedent body).map (shifted w))) = dedent body := by
  refine ⟨?_, fun w hw => ?_⟩
  · obtain ⟨before, after, hlines, hbefore, hafter⟩ :=
      exists_trimWith List.isEmpty (trimmedLines body)
    refine ⟨before, bodyLines body, after, commonIndent (bodyLines body), hlines,
      fun line hline => ?_, fun line hline => ?_, fun line hline => ?_, forall₂_dedent body,
      fun hne => ?_⟩
    · exact List.isEmpty_iff.1 ((List.mem_append.1 hline).elim (hbefore line) (hafter line))
    · obtain ⟨⟨first, rest, heq, hfirst⟩, -⟩ :=
        ends_bodyLines (List.ne_nil_of_mem (List.mem_of_head? hline))
      rw [heq] at hline
      exact Option.some.inj hline ▸ hfirst
    · obtain ⟨-, front, last, heq, hlast⟩ :=
        ends_bodyLines (List.ne_nil_of_mem (List.mem_of_getLast? hline))
      rw [heq, List.getLast?_append] at hline
      exact Option.some.inj hline ▸ hlast
    · obtain ⟨⟨first, rest, heq, hfirst⟩, -⟩ := ends_bodyLines hne
      exact isGreatest_commonIndent ⟨first, heq ▸ List.mem_cons_self, hfirst⟩
  · have hblank : ∀ c ∈ w, isAsciiBlank c := fun c hc => by
      obtain rfl | rfl := hw c hc <;> rfl
    have hbreak : '\n' ∉ w := fun hmem => by
      obtain h | h := hw '\n' hmem <;> cases h
    exact dedent_intercalate_shifted hblank hbreak body

/-- Only two of the white space characters before `é` are shared, as an em space is not ASCII. -/
theorem dedent_removes_indentation_mixed :
    let body : Text := "\n \t é\r\n\u2003\n \t\u2003b\n\n"
    let lines : List Text := [" é", "", "\u2003b"]
    let w : Text := "\t "
    (∀ c ∈ w, c = ' ' ∨ c = '\t') ∧ dedent body = lines ∧
      dedent (['\n'].intercalate (lines.map (shifted w))) = lines := by
  intro body lines w
  have hw : ∀ c ∈ w, c = ' ' ∨ c = '\t' := by simp [w]
  have hlines : dedent body = lines := by decide +kernel
  have hagain := (dedent_removes_indentation body).2 w hw
  rw [hlines] at hagain
  exact ⟨hw, hlines, hagain⟩

end PatternBridge.Markup
