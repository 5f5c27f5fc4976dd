import PatternBridge.Proofs.Markup.Alike
import PatternBridge.Proofs.Markup.Indentation
import PatternBridge.Proofs.Text.InOrder

/-! The text of a page, its current line ended, and what printing adds to the end of it. -/

namespace PatternBridge.Text

theorem intercalate_concat (mark : Text) (ls : List Text) (l : Text) :
    mark.intercalate (ls ++ [l]) = mark.intercalate ls ++ ((if ls.isEmpty then [] else mark) ++ l) := by
  induction ls using List.twoStepInduction with
  | nil => simp
  | singleton k => simp [List.intercalate_cons_cons]
  | cons_cons k m ls _ ih =>
    rw [List.cons_append, List.cons_append, List.intercalate_cons_cons,
      List.intercalate_cons_cons, ← List.cons_append, ih m]
    simp [List.append_assoc]

section
variable {α : Type} {p : α → Bool}

theorem trimWith_of_ends {s : List α} (hfirst : ∃ c t, s = c :: t ∧ p c = false)
    (hlast : ∃ t c, s = t ++ [c] ∧ p c = false) : trimWith p s = s := by
  obtain ⟨c, t, hfirst, hc⟩ := hfirst
  obtain ⟨t', d, hlast, hd⟩ := hlast
  have hdrop : s.dropWhile p = s := by
    rw [hfirst, List.dropWhile_cons, if_neg (by simp [hc])]
  rw [trimWith, hdrop, dropEndWhile, hlast, List.reverse_append, List.reverse_singleton,
    List.singleton_append, List.dropWhile_cons, if_neg (by simp [hd]), List.reverse_cons,
    List.reverse_reverse]

theorem trimWith_append_of_all (s : List α) {w : List α} (hw : ∀ c ∈ w, p c) :
    trimWith p (s ++ w) = trimWith p s := by
  have hend (t : List α) : dropEndWhile p (t ++ w) = dropEndWhile p t := by
    unfold dropEndWhile
    rw [List.reverse_append, List.dropWhile_append_of_pos fun c hc => hw c (List.mem_reverse.1 hc)]
  unfold trimWith
  rw [List.dropWhile_append]
  split
  · next hempty =>
    rw [List.isEmpty_iff.1 hempty, List.dropWhile_eq_nil_iff.2 hw]
  · exact hend _

end

theorem BareEnds.trimWith_eq {p : Char → Bool} {s : Text} (h : BareEnds p s) :
    trimWith p s = s := trimWith_of_ends h.first h.last

end PatternBridge.Text

namespace PatternBridge.Markup
open Text

variable {o : Options}

/-- Blank lines are not kept, and lines are parted and indented by white space. -/
structure Options.Plain (o : Options) : Prop where
  newlines : o.preserveNewlines = false
  unit : ∀ c ∈ o.indentUnit, c = ' ' ∨ c = '\t'
  eol : o.eol = "\n".toList ∨ o.eol = "\r\n".toList

namespace Options.Plain
variable (ho : o.Plain)
include ho

theorem exists_eol : ∃ e, o.eol = e ++ ['\n'] ∧ (∀ c ∈ e, isAsciiBlank c) ∧ '\n' ∉ e := by
  rcases ho.eol with h | h
  · exact ⟨[], h, List.forall_mem_nil _, List.not_mem_nil⟩
  · exact ⟨['\r'], h, List.all_eq_true.1 rfl, by decide⟩

theorem eol_ne_nil : o.eol ≠ [] := by
  obtain ⟨e, he, -⟩ := ho.exists_eol
  simp [he]

theorem blank_eol : ∀ c ∈ o.eol, isAsciiBlank c := by
  rcases ho.eol with h | h <;> rw [h] <;> exact List.all_eq_true.1 rfl

theorem of_mem_indented {depth : Nat} {c : Char} (h : c ∈ Page.indented o depth []) :
    isAsciiBlank c ∧ c ≠ '\n' := by
  rw [Page.indented, List.append_nil] at h
  obtain ⟨unit, hunit, hmem⟩ := List.mem_flatten.1 h
  rw [List.eq_of_mem_replicate hunit] at hmem
  rcases ho.unit c hmem with rfl | rfl <;> decide

end Options.Plain

namespace Page

def output (o : Options) (p : Page) : Text := o.eol.intercalate (p.flush o).lines.toList

/-- What stands between the text of the page and a line that is put behind it. -/
def lineStart (o : Options) (depth : Nat) (p : Page) : Text :=
  (if (p.flush o).lines.isEmpty then [] else o.eol) ++ indented o depth []

/-- No blank lines are due, and the current line is one that is put as it is. -/
structure Tidy (p : Page) : Prop where
  blank : p.blank = 0
  line : p.line = [] ∨ BareEnds isAsciiBlank p.line

variable {p : Page} {s : Text}

theorem tidy_start : Tidy {} := ⟨rfl, .inl rfl⟩

theorem output_of_line_nil (h : p.line = []) : p.output o = o.eol.intercalate p.lines.toList := by
  rw [output, flush_of_line_nil h]

theorem blank_flush (h : p.blank = 0) : (p.flush o).blank = 0 := by
  unfold flush
  dsimp only
  split
  · exact h
  · rfl

theorem indented_eq_append (depth : Nat) (s : Text) :
    indented o depth s = indented o depth [] ++ s := by
  unfold indented
  rw [List.append_nil]

theorem indented_append (depth : Nat) (s t : Text) :
    indented o depth (s ++ t) = indented o depth s ++ t := (List.append_assoc _ s t).symm

theorem lines_emitAt (hblank : p.blank = 0) (depth : Nat) (s : Text) :
    (p.emitAt o depth s).lines.toList = p.lines.toList ++ [indented o depth s] := by
  unfold emitAt
  rw [hblank]
  dsimp only
  split <;> simp

theorem intercalate_emitAt (hblank : p.blank = 0) (depth : Nat) (s : Text) :
    o.eol.intercalate (p.emitAt o depth s).lines.toList = o.eol.intercalate p.lines.toList ++
      ((if p.lines.isEmpty then [] else o.eol) ++ indented o depth s) := by
  rw [lines_emitAt hblank, intercalate_concat]
  simp

theorem output_emitAt (hblank : p.blank = 0) (depth : Nat) (s : Text) :
    ((p.flush o).emitAt o depth s).output o = p.output o ++ (p.lineStart o depth ++ s) := by
  rw [output_of_line_nil (p := (p.flush o).emitAt o depth s) p.line_flush,
    intercalate_emitAt (blank_flush hblank), lineStart, output, List.append_assoc _ (indented o depth []) s,
    ← indented_append, List.nil_append]

theorem flush_inline_blank (p : Page) {x : Text} (hx : ∀ c ∈ x, isAsciiBlank c) :
    (p.inline x).flush o = p.flush o := by
  unfold flush inline
  dsimp only
  rw [trimWith_append_of_all p.line hx]

theorem flush_of_bareEnds (h : BareEnds isAsciiBlank p.line) :
    p.flush o = ({ p with line := [] } : Page).emitAt o p.depth p.line := by
  unfold flush
  rw [h.trimWith_eq]
  obtain ⟨c, t, hline, -⟩ := h.first
  rw [hline]
  rfl

theorem output_inline_of_line_nil (hblank : p.blank = 0) (hline : p.line = [])
    (hs : BareEnds isAsciiBlank s) :
    (p.inline s).output o = p.output o ++ (p.lineStart o p.depth ++ s) := by
  have hs' : BareEnds isAsciiBlank (p.inline s).line := by
    show BareEnds isAsciiBlank (p.line ++ s)
    rwa [hline]
  rw [output, flush_of_bareEnds hs', ← output_emitAt hblank, flush_of_line_nil hline, output,
    flush_of_line_nil (p := p.emitAt o p.depth s) hline]
  unfold emitAt inline
  rw [hline]
  rfl

theorem output_inline_of_bareEnds (hblank : p.blank = 0) (hline : BareEnds isAsciiBlank p.line)
    (hs : BareEnds isAsciiBlank (p.line ++ s)) : (p.inline s).output o = p.output o ++ s := by
  have hblank' : ({ p with line := [] } : Page).blank = 0 := hblank
  have hlong : (p.inline s).flush o =
      ({ p with line := [] } : Page).emitAt o p.depth (p.line ++ s) := flush_of_bareEnds hs
  rw [output, hlong, output, flush_of_bareEnds hline, intercalate_emitAt hblank', intercalate_emitAt hblank',
    indented_append]
  simp [List.append_assoc]

theorem blank_lineStart (ho : o.Plain) (p : Page) (depth : Nat) :
    ∀ c ∈ p.lineStart o depth, isAsciiBlank c := by
  intro c hc
  rcases List.mem_append.1 hc with h | h
  · split at h
    · cases h
    · exact ho.blank_eol c h
  · exact (ho.of_mem_indented h).1

theorem lineStart_ne_nil (ho : o.Plain) (h : p.output o ≠ []) (depth : Nat) :
    p.lineStart o depth ≠ [] := by
  rw [lineStart, if_neg]
  · simp [ho.eol_ne_nil]
  · intro hempty
    rw [output, Array.isEmpty_iff.1 hempty] at h
    exact h rfl

end Page

end PatternBridge.Markup
