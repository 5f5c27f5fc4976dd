import PatternBridge.Markup.Beautify

/-! Pages before their lines are indented. A draft keeps the depth of each line, and printing does to
a draft what it does to the page of it under every indentation. -/

namespace PatternBridge.Markup

/-- The options `o'` differ from `o` at most in how a level is indented. -/
def Options.Reindents (o o' : Options) : Prop :=
  ∃ size char tabs,
    o' = { o with indentSize := size, indentChar := char, indentWithTabs := tabs }

namespace Options.Reindents
variable {o o' : Options}

theorem isInline_eq (h : o.Reindents o') (name : Text) : o'.isInline name = o.isInline name := by
  obtain ⟨_, _, _, rfl⟩ := h
  rfl

theorem isUnformatted_eq (h : o.Reindents o') (name : Text) :
    o'.isUnformatted name = o.isUnformatted name := by
  obtain ⟨_, _, _, rfl⟩ := h
  rfl

theorem isContentUnformatted_eq (h : o.Reindents o') (name : Text) :
    o'.isContentUnformatted name = o.isContentUnformatted name := by
  obtain ⟨_, _, _, rfl⟩ := h
  rfl

theorem indentHandlebars_eq (h : o.Reindents o') : o'.indentHandlebars = o.indentHandlebars := by
  obtain ⟨_, _, _, rfl⟩ := h
  rfl

theorem indentsChildren_eq (h : o.Reindents o') (name : Text) :
    indentsChildren o' name = indentsChildren o name := by
  obtain ⟨_, _, _, rfl⟩ := h
  rfl

theorem inlineBody?_eq (h : o.Reindents o') (name : Text) (toks : List Token) :
    inlineBody? o' name toks = inlineBody? o name toks := by
  have hcontinued (tok : Token) (rest : List Token)
      (ih : inlineBody? o' name rest = inlineBody? o name rest) :
      inlineBody?.continued o' name tok rest = inlineBody?.continued o name tok rest := by
    rw [inlineBody?.continued, inlineBody?.continued, ih]
    obtain ⟨_, _, _, rfl⟩ := h
    rfl
  induction toks with
  | nil => rw [inlineBody?, inlineBody?]
  | cons tok rest ih =>
    unfold inlineBody?
    split
    · rw [hcontinued _ rest ih]
    · exact hcontinued tok rest ih

end Options.Reindents

inductive Row where
  | blank
  | line (depth : Nat) (content : Text)

namespace Row

/-- The text of a row: its content behind the indentation of one level, as often as it is deep. -/
def text (o : Options) : Row → Text
  | blank => []
  | line depth content => (List.replicate depth o.indentUnit).flatten ++ content

/-- Lines with the same text under every indentation have the same depth. -/
theorem eq_of_text_eq {o : Options} {depth depth' : Nat} {s s' : Text}
    (h : ∀ o', o.Reindents o' → (line depth s).text o' = (line depth' s').text o') :
    line depth s = line depth' s' := by
  have hbare : s = s' := by
    simpa [text, Options.indentUnit] using h { o with indentChar := [], indentWithTabs := false }
      ⟨_, _, _, rfl⟩
  have htabs := congrArg List.length (h { o with indentWithTabs := true } ⟨_, _, _, rfl⟩)
  have hdepth : depth = depth' := by simpa [text, Options.indentUnit, hbare] using htabs
  rw [hbare, hdepth]

def At (level : Nat) : Row → Prop
  | blank => True
  | line depth _ => depth = level

def AtLeast (level : Nat) : Row → Prop
  | blank => True
  | line depth _ => level ≤ depth

theorem At.atLeast {level : Nat} {r : Row} (h : r.At level) : r.AtLeast level := by
  cases r with
  | blank => trivial
  | line depth content => exact Nat.le_of_eq h.symm

theorem AtLeast.mono {level level' : Nat} {r : Row} (h : r.AtLeast level) (hle : level' ≤ level) :
    r.AtLeast level' := by
  cases r with
  | blank => trivial
  | line depth content => exact Nat.le_trans hle h

theorem forall_at_blanks (n level : Nat) : ∀ r ∈ List.replicate n .blank, Row.At level r := by
  intro r hr
  rw [List.eq_of_mem_replicate hr]
  trivial

theorem forall_at_concat {level : Nat} {flow : List Row} (hflow : ∀ r ∈ flow, r.At level)
    (s : Text) : ∀ r ∈ flow ++ [.line level s], r.At level := by
  intro r hr
  obtain hr | hr := List.mem_append.1 hr
  · exact hflow r hr
  · rw [List.mem_singleton.1 hr]
    rfl

end Row

theorem Page.flush_of_line_nil {o : Options} {p : Page} (h : p.line = []) : p.flush o = p := by
  cases p
  cases h
  rfl

theorem Page.depth_flush {o : Options} (p : Page) : (p.flush o).depth = p.depth := by
  unfold flush
  dsimp only
  split <;> rfl

structure Draft where
  rows : List Row := []
  line : Text := []
  depth : Nat := 0
  blank : Nat := 0

namespace Draft

def page (o : Options) (d : Draft) : Page where
  lines := (d.rows.map (Row.text o)).toArray
  line := d.line
  depth := d.depth
  blank := d.blank

def emitAt (depth : Nat) (s : Text) (d : Draft) : Draft :=
  { d with
    rows := d.rows ++
      (List.replicate (if d.rows.isEmpty then 0 else d.blank) .blank ++ [.line depth s])
    blank := 0 }

def flush (d : Draft) : Draft :=
  let content := Text.trimWith Text.isAsciiBlank d.line
  let d := { d with line := [] }
  if content.isEmpty then d else d.emitAt d.depth content

def block (s : Text) (d : Draft) : Draft := d.flush.emitAt d.depth s

variable {o : Options} (s : Text) (depth : Nat) (d : Draft)

@[simp] theorem page_emitAt : (d.page o).emitAt o depth s = (d.emitAt depth s).page o := by
  by_cases h : d.rows = [] <;> simp [Page.emitAt, emitAt, page, h, Row.text, Page.indented]

@[simp] theorem page_flush : (d.page o).flush o = d.flush.page o := by
  unfold Page.flush flush
  dsimp only
  split
  · rw [if_pos ‹_›]
    rfl
  · rw [if_neg ‹_›]
    exact page_emitAt _ d.depth { d with line := [] }

theorem depth_flush : d.flush.depth = d.depth := by
  unfold flush
  dsimp only
  split <;> rfl

theorem flush_of_line_nil {d : Draft} (h : d.line = []) : d.flush = d := by
  cases d
  cases h
  rfl

theorem line_flush : d.flush.line = [] := by
  unfold flush
  dsimp only
  split <;> rfl

@[simp] theorem page_emit : (d.page o).emit o s = (d.emitAt d.depth s).page o := page_emitAt s _ d

@[simp] theorem page_block : (d.page o).block o s = (d.block s).page o := by
  rw [Page.block, page_flush, page_emit, depth_flush]
  rfl

def Adds (d d' : Draft) (rows : List Row) : Prop := d'.rows = d.rows ++ rows

theorem Adds.refl (d : Draft) : d.Adds d [] := (List.append_nil d.rows).symm

theorem Adds.trans {d d' d'' : Draft} {rows rows' : List Row} (h : d.Adds d' rows)
    (h' : d'.Adds d'' rows') : d.Adds d'' (rows ++ rows') := by
  unfold Adds at *
  rw [h', h, List.append_assoc]

theorem adds_emitAt : ∃ n, d.Adds (d.emitAt depth s) (List.replicate n .blank ++ [.line depth s]) :=
  ⟨_, rfl⟩

/-- Only rows at the depth of `d` are added, and the depth stays. -/
def Flows (d d' : Draft) : Prop :=
  d'.depth = d.depth ∧ ∃ rows, d.Adds d' rows ∧ ∀ r ∈ rows, r.At d.depth

theorem Flows.refl (d : Draft) : d.Flows d := ⟨rfl, [], .refl d, by simp⟩

theorem flows_flush : d.Flows d.flush := by
  refine ⟨depth_flush d, ?_⟩
  unfold flush
  dsimp only
  split
  · exact ⟨[], .refl d, by simp⟩
  · obtain ⟨n, hadds⟩ :=
      adds_emitAt (Text.trimWith Text.isAsciiBlank d.line) d.depth { d with line := [] }
    exact ⟨_, hadds, Row.forall_at_concat (Row.forall_at_blanks n _) _⟩

/-- The line of `s` comes after what was current on `d`. -/
def Puts (d : Draft) (depth : Nat) (s : Text) (d' : Draft) : Prop :=
  ∃ flow, (∀ r ∈ flow, r.At d.depth) ∧ d.Adds d' (flow ++ [.line depth s])

theorem puts_emitAt : d.Puts depth s (d.flush.emitAt depth s) := by
  obtain ⟨-, flow, hflush, hAt⟩ := flows_flush d
  obtain ⟨n, hemit⟩ := adds_emitAt s depth d.flush
  refine ⟨flow ++ List.replicate n .blank, fun r hr => ?_, ?_⟩
  · exact (List.mem_append.1 hr).elim (hAt r) (Row.forall_at_blanks n _ r)
  · rw [List.append_assoc]
    exact hflush.trans hemit

theorem puts_block : d.Puts d.depth s (d.block s) := puts_emitAt s d.depth d

theorem puts_block_at : d.Puts depth s ({ d.flush with depth := depth }.block s) := by
  unfold block
  rw [flush_of_line_nil (d := { d.flush with depth := depth }) d.line_flush]
  exact puts_emitAt s depth d

theorem depth_block : (d.block s).depth = d.depth := depth_flush d

theorem flows_block : d.Flows (d.block s) := by
  obtain ⟨flow, hAt, hadds⟩ := puts_block s d
  exact ⟨depth_block s d, _, hadds, Row.forall_at_concat hAt s⟩

theorem page_deeper : (d.page o).deeper = { d with depth := d.depth + 1 }.page o := rfl

theorem page_shallower : (d.page o).shallower = { d with depth := d.depth - 1 }.page o := rfl

theorem flows_text : ∃ d', d.Flows d' ∧
    ∀ o', o.Reindents o' → (d.page o').text o' s = d'.page o' := by
  by_cases hblank : s.all Text.isAsciiBlank
  · by_cases hends : o.preserveNewlines && 2 ≤ countNewlines s
    · refine ⟨{ d.flush with blank := min (countNewlines s) o.maxPreserveNewlines - 1 },
        flows_flush d, ?_⟩
      rintro _ ⟨_, _, _, rfl⟩
      rw [Page.text, if_pos hblank, if_pos hends, page_flush]
      rfl
    · by_cases hline : d.line.isEmpty
      · refine ⟨d, .refl d, ?_⟩
        rintro _ ⟨_, _, _, rfl⟩
        rw [Page.text, if_pos hblank, if_neg hends]
        exact if_pos hline
      · refine ⟨{ d with line := d.line ++ [' '] }, .refl d, ?_⟩
        rintro _ ⟨_, _, _, rfl⟩
        rw [Page.text, if_pos hblank, if_neg hends]
        exact if_neg hline
  · refine ⟨{ d with line := d.line ++ collapse s }, .refl d, fun o' _ => ?_⟩
    rw [Page.text, if_neg hblank]
    rfl

theorem adds_bodyLines (lines : List Text) : ∃ d', d'.depth = d.depth ∧
    (∀ o, (d.page o).bodyLines o lines = d'.page o) ∧
    ∃ inner, d.Adds d' inner ∧ ∀ r ∈ inner, r.AtLeast (d.depth + 1) := by
  unfold Page.bodyLines
  induction lines generalizing d with
  | nil => exact ⟨d, rfl, fun o => rfl, [], .refl d, by simp⟩
  | cons line lines ih =>
    by_cases hline : line.isEmpty
    · obtain ⟨d', hdepth, hpage, inner, hadds, hinner⟩ := ih { d with rows := d.rows ++ [.blank] }
      have hblank : d.Adds { d with rows := d.rows ++ [.blank] } [.blank] := rfl
      refine ⟨d', hdepth, fun o => ?_, .blank :: inner, hblank.trans hadds, fun r hr => ?_⟩
      · rw [List.foldl_cons, if_pos hline, ← hpage o]
        simp [page, Row.text]
      · obtain rfl | hr := List.mem_cons.1 hr
        · trivial
        · exact hinner r hr
    · obtain ⟨d', hdepth, hpage, inner, hadds, hinner⟩ := ih (d.emitAt (d.depth + 1) line)
      obtain ⟨n, hemit⟩ := adds_emitAt line (d.depth + 1) d
      have hfirst := Row.forall_at_concat (Row.forall_at_blanks n (d.depth + 1)) line
      refine ⟨d', hdepth, fun o => ?_, _, hemit.trans hadds, fun r hr => ?_⟩
      · rw [List.foldl_cons, if_neg hline, ← hpage o]
        exact congrArg (lines.foldl _) (page_emitAt line (d.depth + 1) d)
      · exact (List.mem_append.1 hr).elim (fun hr => (hfirst r hr).atLeast) (hinner r)

end Draft

end PatternBridge.Markup
