import PatternBridge.Proofs.Markup.Content
import PatternBridge.Proofs.Markup.Nesting

/-! Well-nested tokens are printed with balanced indentation: what is not printed on one line closes
at the depth that it was opened at, and the page ends at the depth that it began with. -/

namespace PatternBridge.Markup

variable {o : Options}

namespace Draft

theorem adds_contentElement (slice close : Text) {body : Text} (hbody : ¬Text.isBlankText body)
    (d : Draft) :
    ∃ d', d'.depth = d.depth ∧
      (∀ o, ((d.page o).flush o).contentElement o slice body close = d'.page o) ∧
      ∃ flow inner, (∀ r ∈ flow, r.At d.depth) ∧ (∀ r ∈ inner, r.AtLeast (d.depth + 1)) ∧
        d.Adds d' (flow ++ .line d.depth slice :: (inner ++ closingRows d.depth close)) := by
  obtain ⟨flow, hAt, hslice⟩ := puts_block slice d
  obtain ⟨d', hdepth, hpage, inner, hlines, hinner⟩ := adds_bodyLines (d.block slice) (dedent body)
  rw [depth_block] at hdepth hinner
  have hopen := hslice.trans hlines
  have hpage' (o : Options) : ((d.page o).flush o |>.emit o slice).bodyLines o (dedent body) =
      d'.page o := by
    rw [← hpage o, ← page_block, Page.block]
  by_cases hclose : close.isEmpty
  · refine ⟨d', hdepth, fun o => ?_, flow, inner, hAt, hinner, ?_⟩
    · rw [Page.contentElement, if_neg hbody, hpage' o]
      exact if_pos hclose
    · simpa [closingRows, hclose] using hopen
  · obtain ⟨n, hlast⟩ := adds_emitAt close d'.depth d'
    rw [hdepth] at hlast
    refine ⟨d'.emitAt d'.depth close, hdepth, fun o => ?_, flow, inner ++ List.replicate n .blank,
      hAt, fun r hr => ?_, ?_⟩
    · rw [Page.contentElement, if_neg hbody, hpage' o, ← page_emit]
      exact if_neg hclose
    · exact (List.mem_append.1 hr).elim (hinner r) fun hr => (Row.forall_at_blanks n _ r hr).atLeast
    · rw [hdepth]
      simpa [closingRows, hclose] using hopen.trans hlast

end Draft

theorem of_isBlockLevel {name : Text} (h : o.isBlockLevel name) : o.isInline name = false ∧
    o.isUnformatted name = false ∧ o.isContentUnformatted name = false := by
  simpa [Options.isBlockLevel, and_assoc] using h

theorem isInline_of_isVerbatim {name : Text} (h : o.isVerbatim name) : o.isInline name = false := by
  simp only [Options.isVerbatim, Bool.and_eq_true, Bool.not_eq_true'] at h
  exact h.1

theorem isInlineToken_of_inlineBody? {name a : Text} {tok : Token} {rest after : List Token}
    (h : inlineBody? o name (tok :: rest) = some (a, after))
    (hclosing : ∀ s, tok ≠ .closing name s) : isInlineToken o tok := by
  obtain ⟨heq, -⟩ | ⟨hinline, -⟩ := inlineBody?_cons_eq_some h
  · exact absurd heq (hclosing a)
  · exact hinline

/-- When an element that is not inline is printed on one line, its body is all leaves. -/
theorem isLeaf_of_inlineBody? (hb : o.indentHandlebars) {name : Text}
    (hname : o.isInline name = false) {b : Bool} {body after after' : List Token} {s a : Text}
    (h : WellNested o b body)
    (hbody : inlineBody? o name (body ++ .closing name s :: after) = some (a, after')) :
    after' = after ∧ (∃ t, a = t ++ s) ∧ ∀ tok ∈ body, tok.isLeaf o := by
  induction h generalizing a with
  | nil =>
    obtain ⟨heq, rfl⟩ | ⟨hinline, -⟩ := inlineBody?_cons_eq_some hbody
    · cases heq
      exact ⟨rfl, ⟨[], rfl⟩, by simp⟩
    · simp [isInlineToken, hname] at hinline
  | @leaf _ tok _ htok _ ih =>
    obtain ⟨rfl, -⟩ | ⟨-, c, hc, rfl⟩ := inlineBody?_cons_eq_some hbody
    · simp [Token.isLeaf, hname] at htok
    · obtain ⟨hafter, ⟨t, rfl⟩, hleaf⟩ := ih hc
      refine ⟨hafter, ⟨tok.flat ++ t, (List.append_assoc ..).symm⟩, fun tok' htok' => ?_⟩
      obtain rfl | htok' := List.mem_cons.1 htok'
      · exact htok
      · exact hleaf tok' htok'
  -- What follows starts with a token that is not inline, so nothing is printed on one line.
  | divider | block =>
    have hinline := isInlineToken_of_inlineBody? hbody (by simp)
    simp [isInlineToken, hb] at hinline
  | element _ _ hname' =>
    have hinline := isInlineToken_of_inlineBody? hbody (by simp)
    simp [isInlineToken, (of_isBlockLevel hname').1] at hinline
  | verbatim _ _ hname' =>
    have hinline := isInlineToken_of_inlineBody? hbody (by simp)
    simp [isInlineToken, isInline_of_isVerbatim hname'] at hinline

theorem leavesLevel_of_isLeaf {tok : Token} (h : tok.isLeaf o) : leavesLevel o tok = false := by
  cases tok with
  | closing name s => simp_all [Token.isLeaf, leavesLevel]
  | tag kind s => cases kind <;> simp_all [Token.isLeaf, leavesLevel]
  | _ => rfl

theorem leavesLevel_eq {o' : Options} (h : o.Reindents o') (tok : Token) :
    leavesLevel o' tok = leavesLevel o tok := by
  obtain ⟨_, _, _, rfl⟩ := h
  cases tok with
  | tag kind s => cases kind <;> rfl
  | _ => rfl

/-- However a level is indented, printing the token makes `d'` of `d` and leaves the tokens `after`. -/
def Draft.Becomes (o : Options) (tok : Token) (rest : List Token) (d d' : Draft)
    (after : List Token) : Prop :=
  ∀ o', o.Reindents o' → printToken o' tok rest (d.page o') = (d'.page o', after)

/-- A leaf is printed at the depth of the page, with no token after it. -/
theorem flows_printToken {tok : Token} (h : tok.isLeaf o) (rest : List Token) (d : Draft) :
    ∃ d', Draft.Becomes o tok rest d d' rest ∧ d.Flows d' := by
  have hinlined (s : Text) : d.Flows { d with line := d.line ++ s } := .refl d
  cases tok with
  | text s =>
    obtain ⟨d', hflows, hpage⟩ := Draft.flows_text (o := o) s d
    exact ⟨d', fun o' ho' => congrArg (·, rest) (hpage o' ho'), hflows⟩
  | comment s =>
    exact ⟨_, fun o' _ => congrArg (·, rest) (d.page_block s), Draft.flows_block s d⟩
  | raw s => exact ⟨_, fun o' _ => rfl, hinlined s⟩
  | opening name s =>
    have hinline : o.isInline name := h
    refine ⟨_, fun o' ho' => ?_, hinlined s⟩
    rw [printToken, openElement, if_pos (by rw [ho'.isInline_eq, hinline])]
    rfl
  | closing name s =>
    have hinline : o.isInline name := h
    refine ⟨_, fun o' ho' => ?_, hinlined s⟩
    rw [printToken, closeElement, if_pos (by rw [ho'.isInline_eq, hinline])]
    rfl
  | void name s =>
    by_cases hinline : o.isInline name
    · refine ⟨_, fun o' ho' => ?_, hinlined s⟩
      rw [printToken, if_pos (by rw [ho'.isInline_eq, hinline])]
      rfl
    · refine ⟨d.block s, fun o' ho' => ?_, Draft.flows_block s d⟩
      rw [printToken, if_neg (by rwa [ho'.isInline_eq]), Draft.page_block]
  | tag kind s =>
    have hkind : kind = .inline := eq_of_beq h
    refine ⟨_, fun o' _ => ?_, hinlined s⟩
    rw [hkind, printToken, templateTag]
    split <;> rfl

structure PrintsLine (o : Options) (d : Draft) (tok : Token) (after : List Token) (level : Nat)
    (d' : Draft) : Prop where
  becomes : Draft.Becomes o tok after d d' after
  leaves : leavesLevel o tok → 0 < d.depth
  puts : d.Puts level tok.slice d'

section
variable (s : Text) (after : List Token) {d : Draft} {level : Nat} {name : Text}

theorem printsLine_opening_tag (hb : o.indentHandlebars) (d : Draft) :
    ∃ d', PrintsLine o d (.tag .opening s) after d.depth d' ∧ d'.depth = d.depth + 1 := by
  refine ⟨{ d.block s with depth := d.depth + 1 }, ⟨fun o' ho' => ?_, by simp [leavesLevel],
    Draft.puts_block s d⟩, rfl⟩
  rw [printToken, templateTag, if_pos (by rw [ho'.indentHandlebars_eq, hb])]
  simp [Draft.page_deeper, Draft.depth_block]

theorem printsLine_closing_tag (hb : o.indentHandlebars) (hd : d.depth = level + 1) :
    ∃ d', PrintsLine o d (.tag .closing s) after level d' ∧ d'.depth = level := by
  refine ⟨_, ⟨fun o' ho' => ?_, fun _ => hd ▸ Nat.succ_pos level, Draft.puts_block_at s level d⟩,
    Draft.depth_block s _⟩
  have hshallower : (d.flush.page o').shallower = { d.flush with depth := level }.page o' := by
    simp [Draft.page_shallower, Draft.depth_flush, hd]
  rw [printToken, templateTag, if_pos (by rw [ho'.indentHandlebars_eq, hb])]
  simp [hshallower]

theorem printsLine_divider (hb : o.indentHandlebars) (hd : d.depth = level + 1) :
    ∃ d', PrintsLine o d (.tag .divider s) after level d' ∧ d'.depth = d.depth := by
  refine ⟨_, ⟨fun o' ho' => ?_, fun _ => hd ▸ Nat.succ_pos level, Draft.puts_emitAt s level d⟩,
    Draft.depth_flush d⟩
  have hlevel : (d.flush.page o').depth - 1 = level := by
    simp [Draft.page, Draft.depth_flush, hd]
  rw [printToken, templateTag, if_pos (by rw [ho'.indentHandlebars_eq, hb])]
  simp [hlevel]

theorem printsLine_opening (hname : o.isBlockLevel name) (hbody : inlineBody? o name after = none)
    (d : Draft) : ∃ d', PrintsLine o d (.opening name s) after d.depth d' ∧
      d'.depth = d.depth + childStep o name := by
  obtain ⟨hinline, hunformatted, hcontent⟩ := of_isBlockLevel hname
  refine ⟨{ d.block s with depth := d.depth + childStep o name }, ⟨fun o' ho' => ?_,
    by simp [leavesLevel], Draft.puts_block s d⟩, rfl⟩
  have hopen : openElement o' name s after (d.page o') =
      (if indentsChildren o name then ((d.block s).page o').deeper else (d.block s).page o',
        after) := by
    simp [openElement, ho'.isInline_eq, ho'.isUnformatted_eq, ho'.isContentUnformatted_eq,
      ho'.inlineBody?_eq, ho'.indentsChildren_eq, hinline, hunformatted, hcontent, hbody]
  rw [printToken, hopen]
  by_cases hchildren : indentsChildren o name <;>
    simp [childStep, hchildren, Page.deeper, Draft.page, Draft.depth_block]

theorem printsLine_closing (hname : o.isInline name = false)
    (hd : d.depth = level + childStep o name) :
    ∃ d', PrintsLine o d (.closing name s) after level d' ∧ d'.depth = level := by
  refine ⟨_, ⟨fun o' ho' => ?_, fun hleaves => ?_, Draft.puts_block_at s level d⟩,
    Draft.depth_block s _⟩
  · have hlevel : (if indentsChildren o name then (d.flush.page o').shallower else d.flush.page o') =
        { d.flush with depth := level }.page o' := by
      by_cases hchildren : indentsChildren o name <;>
        simp_all [childStep, Page.shallower, Draft.page, Draft.depth_flush]
    simp [printToken, closeElement, ho'.isInline_eq, ho'.indentsChildren_eq, hname, hlevel]
  · have hchildren : indentsChildren o name := by simp_all [leavesLevel]
    simp [hd, childStep, hchildren]

end

/-- However a level is indented, printing leads from the page of `d` to that of `d'`. -/
def Draft.Prints (o : Options) (d : Draft) (toks : List Token) (d' : Draft) (rest : List Token) :
    Prop :=
  ∀ o', o.Reindents o' → Markup.Prints o' (d.page o') toks (d'.page o') rest

namespace Draft.Prints
variable {d d' d'' : Draft} {toks toks' toks'' : List Token}

theorem step {tok : Token} (hlevel : leavesLevel o tok → 0 < d.depth)
    (hbecomes : Draft.Becomes o tok toks d d' toks') (h : Draft.Prints o d' toks' d'' toks'') :
    Draft.Prints o d (tok :: toks) d'' toks'' := fun o' ho' =>
  .step (by rwa [leavesLevel_eq ho']) (hbecomes o' ho') (h o' ho')

theorem trans (h : Draft.Prints o d toks d' toks') (h' : Draft.Prints o d' toks' d'' toks'') :
    Draft.Prints o d toks d'' toks'' := fun o' ho' => (h o' ho').trans (h' o' ho')

end Draft.Prints

/-- Printing the tokens at the head leads to `d'`, at the depth of `d`, and adds the rows, which are
laid out by the nesting. -/
structure Lays (o : Options) (inBlock : Bool) (d : Draft) (toks rest : List Token) (d' : Draft)
    (rows : List Row) : Prop where
  prints : Draft.Prints o d (toks ++ rest) d' rest
  depth_eq : d'.depth = d.depth
  adds : d.Adds d' rows
  laidOut : LaidOut o inBlock d.depth toks rows

/-- Printing `tok` takes the tokens after it as far as `after` and adds rows, of which those in
`flow` are at the depth of the page. -/
structure Steps (o : Options) (d : Draft) (tok : Token) (taken after : List Token) (d' : Draft)
    (flow new : List Row) : Prop where
  becomes : Draft.Becomes o tok (taken ++ after) d d' after
  depth_eq : d'.depth = d.depth
  leaves : leavesLevel o tok → 0 < d.depth
  flow_at : ∀ r ∈ flow, r.At d.depth
  adds : d.Adds d' (flow ++ new)

/-- From every draft at the level, the tokens are laid out. -/
def LaysAt (o : Options) (inBlock : Bool) (level : Nat) (toks rest : List Token) : Prop :=
  ∀ d : Draft, d.depth = level → ∃ d' rows, Lays o inBlock d toks rest d' rows

namespace LaysAt
variable {b b' : Bool} {level : Nat} {tok : Token} {toks body rest : List Token}

theorem step (taken : List Token)
    (hstep : ∀ d : Draft, d.depth = level → ∃ d' flow new,
      Steps o d tok taken (toks ++ rest) d' flow new ∧ ∀ rows, LaidOut o b level toks rows →
        LaidOut o b level (tok :: (taken ++ toks)) (new ++ rows))
    (h : LaysAt o b level toks rest) : LaysAt o b level (tok :: (taken ++ toks)) rest := by
  rintro d rfl
  obtain ⟨d', flow, new, hsteps, hlaid⟩ := hstep d rfl
  obtain ⟨last, rows, hrest⟩ := h d' hsteps.depth_eq
  have hrows := hrest.laidOut
  rw [hsteps.depth_eq] at hrows
  refine ⟨last, flow ++ (new ++ rows), ?_, hrest.depth_eq.trans hsteps.depth_eq, ?_,
    (hlaid rows hrows).flows hsteps.flow_at⟩
  · rw [List.cons_append, List.append_assoc]
    exact .step hsteps.leaves hsteps.becomes hrest.prints
  · rw [← List.append_assoc]
    exact hsteps.adds.trans hrest.adds

theorem leaf (htok : tok.isLeaf o) (h : LaysAt o b level toks rest) :
    LaysAt o b level (tok :: toks) rest := by
  refine step [] (fun d hd => ?_) h
  obtain ⟨d', hbecomes, hdepth, flow, hflow, hAt⟩ := flows_printToken htok (toks ++ rest) d
  have hleaves : leavesLevel o tok → 0 < d.depth := by simp [leavesLevel_of_isLeaf htok]
  rw [← List.append_nil flow] at hflow
  exact ⟨d', flow, [], ⟨hbecomes, hdepth, hleaves, hAt, hflow⟩,
    fun rows hrows => .leaf htok hrows⟩

theorem divider (hb : o.indentHandlebars) (s : Text) (h : LaysAt o true (level + 1) toks rest) :
    LaysAt o true (level + 1) (.tag .divider s :: toks) rest := by
  refine step [] (fun d hd => ?_) h
  obtain ⟨d', hline, hdepth⟩ := printsLine_divider s (toks ++ rest) hb hd
  obtain ⟨flow, hAt, hadds⟩ := hline.puts
  exact ⟨d', flow, [.line level s], ⟨hline.becomes, hdepth, hline.leaves, hAt, hadds⟩,
    fun rows hrows => .divider s hrows⟩

/-- What opens and what closes stand on lines of their own at the level, with the body between. -/
theorem enclosed {opener closer : Token} {step : Nat}
    (hopen : ∀ d : Draft, d.depth = level → ∃ d₁, PrintsLine o d opener
      (body ++ closer :: (toks ++ rest)) level d₁ ∧ d₁.depth = level + step)
    (hbody : LaysAt o b' (level + step) body (closer :: (toks ++ rest)))
    (hclose : ∀ d : Draft, d.depth = level + step → ∃ d₁,
      PrintsLine o d closer (toks ++ rest) level d₁ ∧ d₁.depth = level)
    (h : LaysAt o b level toks rest)
    (hlaid : ∀ inner rows, LaidOut o b' (level + step) body inner → LaidOut o b level toks rows →
      LaidOut o b level (opener :: (body ++ closer :: toks))
        (.line level opener.slice :: (inner ++ .line level closer.slice :: rows))) :
    LaysAt o b level (opener :: (body ++ closer :: toks)) rest := by
  rintro d rfl
  obtain ⟨d₁, hopens, hdepth₁⟩ := hopen d rfl
  obtain ⟨d₂, inner, hinner⟩ := hbody d₁ hdepth₁
  have hdepth₂ := hinner.depth_eq.trans hdepth₁
  obtain ⟨d₃, hcloses, hdepth₃⟩ := hclose d₂ hdepth₂
  obtain ⟨last, rows, hrest⟩ := h d₃ hdepth₃
  obtain ⟨flow, hAt, hs⟩ := hopens.puts
  obtain ⟨flow', hAt', hs'⟩ := hcloses.puts
  have hprints := hinner.prints.trans (.step hcloses.leaves hcloses.becomes hrest.prints)
  have hlaidBody := hinner.laidOut
  have hlaidRest := hrest.laidOut
  rw [hdepth₁] at hlaidBody
  rw [hdepth₂] at hAt'
  rw [hdepth₃] at hlaidRest
  -- What was current at the end of the body still belongs to it.
  have hrows := hlaid _ rows (hlaidBody.concat_flows hAt') hlaidRest
  refine ⟨last, _, ?_, hrest.depth_eq.trans hdepth₃, ?_, hrows.flows hAt⟩
  · rw [List.cons_append, List.append_assoc]
    exact .step hopens.leaves hopens.becomes hprints
  · simpa using ((hs.trans hinner.adds).trans hs').trans hrest.adds

theorem block (hb : o.indentHandlebars) (s s' : Text)
    (hbody : LaysAt o true (level + 1) body (.tag .closing s' :: (toks ++ rest)))
    (h : LaysAt o b level toks rest) :
    LaysAt o b level (.tag .opening s :: (body ++ .tag .closing s' :: toks)) rest := by
  refine enclosed (fun d hd => ?_) hbody (fun _ => printsLine_closing_tag s' _ hb) h
    fun inner rows hinner hrows => .block s s' hinner (fun r hr => ?_) hrows
  · rw [← hd]
    exact printsLine_opening_tag s _ hb d
  · obtain hdeep | ⟨-, hdivider⟩ := hinner.atLeast_or_divider hr
    · exact .inl hdeep
    · exact .inr hdivider

variable {name : Text}

theorem oneLine {s t s' : Text} (hprint : ∀ o', o.Reindents o' → ∀ p : Page,
      printToken o' (.opening name s) (body ++ .closing name s' :: (toks ++ rest)) p =
        (p.block o' (s ++ (t ++ s')), toks ++ rest))
    (hbody : ∀ tok ∈ body, tok.isLeaf o) (h : LaysAt o b level toks rest) :
    LaysAt o b level (.opening name s :: (body ++ .closing name s' :: toks)) rest := by
  have hline :
      LaysAt o b level (.opening name s :: ((body ++ [.closing name s']) ++ toks)) rest := by
    refine step _ (fun d hd => ?_) h
    obtain ⟨flow, hAt, hadds⟩ := Draft.puts_block (s ++ (t ++ s')) d
    refine ⟨_, flow, _, ⟨fun o' ho' => ?_, Draft.depth_block _ d, by simp [leavesLevel], hAt, hadds⟩,
      ?_⟩
    · simpa using hprint o' ho' (d.page o')
    · simpa [hd] using fun rows hrows => LaidOut.oneLine s t s' hbody hrows
  simpa using hline

theorem element (hb : o.indentHandlebars) (hname : o.isBlockLevel name) (s s' : Text)
    (hwell : WellNested o false body)
    (hbody : LaysAt o false (level + childStep o name) body (.closing name s' :: (toks ++ rest)))
    (h : LaysAt o b level toks rest) :
    LaysAt o b level (.opening name s :: (body ++ .closing name s' :: toks)) rest := by
  obtain ⟨hinline, hunformatted, hcontent⟩ := of_isBlockLevel hname
  cases hone : inlineBody? o name (body ++ .closing name s' :: (toks ++ rest)) with
  | none =>
    refine enclosed (fun d hd => ?_) hbody (fun _ => printsLine_closing s' _ hinline) h
      fun inner rows hinner hrows => .element s s' hinner (fun r hr => ?_) hrows
    · rw [← hd]
      exact printsLine_opening s _ hname hone d
    · obtain hdeep | ⟨hfalse, -⟩ := hinner.atLeast_or_divider hr
      · exact hdeep
      · cases hfalse
  | some line =>
    obtain ⟨a, after⟩ := line
    obtain ⟨rfl, ⟨t, rfl⟩, hleaf⟩ := isLeaf_of_inlineBody? hb hinline hwell hone
    refine oneLine (t := t) (fun o' ho' p => ?_) hleaf h
    simp [printToken, openElement, ho'.isInline_eq, ho'.isUnformatted_eq,
      ho'.isContentUnformatted_eq, ho'.inlineBody?_eq, hinline, hunformatted, hcontent, hone,
      Page.block]

theorem content (hname : o.isContentUnformatted name) (hinline : o.isInline name = false)
    (hunformatted : o.isUnformatted name = false) (s s' : Text) {t : Text}
    (ht : ¬Text.isBlankText t) (h : LaysAt o b level toks rest) :
    LaysAt o b level (.opening name s :: .raw t :: .closing name s' :: toks) rest := by
  refine step [.raw t, .closing name s'] (fun d hd => ?_) h
  obtain ⟨d', hdepth, hpage, flow, inner, hAt, hinner, hadds⟩ := Draft.adds_contentElement s s' ht d
  refine ⟨d', flow, _, ⟨fun o' ho' => ?_, hdepth, by simp [leavesLevel], hAt, hadds⟩, ?_⟩
  · rw [← hpage o']
    simp [printToken, openElement, ho'.isInline_eq, ho'.isUnformatted_eq,
      ho'.isContentUnformatted_eq, hinline, hunformatted, hname, rawBody, closingTag]
  · rw [hd] at hinner
    simpa [hd] using fun rows hrows => LaidOut.content s t s' hinner hrows

theorem verbatim (hname : o.isVerbatim name) (s s' : Text)
    (hbody : body = [] ∨ ∃ t, body = [.raw t]) (h : LaysAt o b level toks rest) :
    LaysAt o b level (.opening name s :: (body ++ .closing name s' :: toks)) rest := by
  have hinline := isInline_of_isVerbatim hname
  have hleaf : ∀ tok ∈ body, tok.isLeaf o := by
    obtain rfl | ⟨t, rfl⟩ := hbody <;> simp [Token.isLeaf]
  by_cases hunformatted : o.isUnformatted name
  · refine oneLine (t := slices body) (fun o' ho' p => ?_) hleaf h
    obtain rfl | ⟨t, rfl⟩ := hbody <;>
      simp [printToken, openElement, ho'.isInline_eq, ho'.isUnformatted_eq, hinline, hunformatted,
        Markup.verbatim, Token.slice, Page.block]
  · have hcontent : o.isContentUnformatted name := by
      simpa [Options.isVerbatim, hinline, hunformatted] using hname
    have hblank {o' : Options} (p : Page) {t : Text} (ht : Text.isBlankText t) :
        (p.flush o').contentElement o' s t s' = p.block o' (s ++ s') := by
      simp [Page.contentElement, ht, Page.block]
    obtain rfl | ⟨t, rfl⟩ := hbody
    · refine oneLine (t := []) (fun o' ho' p => ?_) hleaf h
      simp [printToken, openElement, ho'.isInline_eq, ho'.isUnformatted_eq,
        ho'.isContentUnformatted_eq, hinline, hunformatted, hcontent, rawBody, closingTag,
        hblank p (t := []) rfl]
    by_cases ht : Text.isBlankText t
    · refine oneLine (t := []) (fun o' ho' p => ?_) hleaf h
      simp [printToken, openElement, ho'.isInline_eq, ho'.isUnformatted_eq,
        ho'.isContentUnformatted_eq, hinline, hunformatted, hcontent, rawBody, closingTag,
        hblank p ht]
    · exact content hcontent hinline (by simpa using hunformatted) s s' ht h

theorem of_wellNested (hb : o.indentHandlebars) (h : WellNested o b toks)
    (hlevel : b → 0 < level) (rest : List Token) : LaysAt o b level toks rest := by
  induction h generalizing level rest with
  | nil b => exact fun d hd => ⟨d, [], fun o' _ => .done _ rest, rfl, .refl d, hd ▸ .nil b level⟩
  | leaf htok _ ih => exact leaf htok (ih hlevel rest)
  | divider s _ ih =>
    obtain ⟨outer, rfl⟩ := Nat.exists_eq_add_of_lt (hlevel rfl)
    exact divider hb s (ih hlevel rest)
  | block s s' _ _ ihbody ih => exact block hb s s' (ihbody (by simp) _) (ih hlevel rest)
  | element s s' hname hbody _ ihbody ih =>
    exact element hb hname s s' hbody (ihbody (by simp) _) (ih hlevel rest)
  | verbatim s s' hname hbody _ ih => exact verbatim hname s s' hbody (ih hlevel rest)

end LaysAt

/-- Well-nested tokens are printed without leaving a level at depth 0, end at depth 0, and their
lines are laid out by their nesting, by the same rows however a level is indented. -/
theorem printed_laidOut (hb : o.indentHandlebars) {toks : List Token}
    (h : WellNested o false toks) :
    ∃ rows, LaidOut o false 0 toks rows ∧ ∀ o', o.Reindents o' → ∃ p,
      Prints o' {} toks p [] ∧ printed o' toks = p.flush o' ∧ (printed o' toks).depth = 0 ∧
      (printed o' toks).lines.toList = rows.map (Row.text o') := by
  have hlaysAt : LaysAt o false 0 toks [] := .of_wellNested hb h (by simp) []
  obtain ⟨d, rows, hlays⟩ := hlaysAt {} rfl
  obtain ⟨hdepth, flow, hflush, hAt⟩ := Draft.flows_flush d
  rw [hlays.depth_eq] at hdepth hAt
  have hadds := hlays.adds.trans hflush
  refine ⟨rows ++ flow, hlays.laidOut.concat_flows hAt, fun o' ho' => ?_⟩
  have hprints := hlays.prints o' ho'
  rw [List.append_nil] at hprints
  have hprinted : printed o' toks = (d.page o').flush o' := by
    have hstart : ({} : Page) = ({} : Draft).page o' := rfl
    rw [printed, hstart, hprints.printTokens_eq, printTokens]
  refine ⟨d.page o', hprints, hprinted, ?_, ?_⟩
  · rw [hprinted, Draft.page_flush]
    exact hdepth
  · rw [hprinted, Draft.page_flush, Draft.page, hadds]
    rfl

/-- A list with a line for when there are no items. -/
theorem printed_laidOut_each : ∃ rows,
    let toks : List Token := [.opening "ul" "<ul>", .tag .opening "\x7b\x7b#each items\x7d\x7d",
      .opening "li" "<li>", .comment "<!-- item -->", .closing "li" "</li>",
      .tag .divider "\x7b\x7belse\x7d\x7d", .text "None",
      .tag .closing "\x7b\x7b/each\x7d\x7d", .closing "ul" "</ul>"]
    LaidOut {} false 0 toks rows ∧ ∀ o', Options.Reindents {} o' → ∃ p,
      Prints o' {} toks p [] ∧ printed o' toks = p.flush o' ∧ (printed o' toks).depth = 0 ∧
      (printed o' toks).lines.toList = rows.map (Row.text o') := by
  have hli : Options.isBlockLevel {} "li" := by decide
  have hul : Options.isBlockLevel {} "ul" := by decide
  have hitem : WellNested {} false [.comment "<!-- item -->"] := .leaf rfl (.nil false)
  have hnone : WellNested {} true [.text "None"] := .leaf rfl (.nil true)
  have helse : WellNested {} true _ := .divider "\x7b\x7belse\x7d\x7d" hnone
  have hitems := WellNested.element "<li>" "</li>" hli hitem helse
  have heach := WellNested.block "\x7b\x7b#each items\x7d\x7d" "\x7b\x7b/each\x7d\x7d" hitems
    (.nil false)
  exact printed_laidOut rfl (.element "<ul>" "</ul>" hul heach (.nil false))

end PatternBridge.Markup
