import Mathlib.Data.List.TakeWhile
import PatternBridge.Markup.Render
import PatternBridge.Proofs.Markup.Moving
import PatternBridge.Proofs.Markup.Slices

/-! What printing keeps of a class of characters that has no ASCII white space in it. A page holds
them in its lines and its current line; printing a token adds those of the slices that it takes,
whatever following tokens it takes with it. Only the white space at the line ends of a body that is
laid out anew is left out, so rendering keeps every character that is no white space, each once and in
order. -/

namespace PatternBridge.Markup
open Text

/-- The body without the white space at the ends of its lines. -/
def withoutLineEnds (body : Text) : Text := ['\n'].intercalate ((body.splitOn '\n').map trimEnd)

/-- Whether the content of an element is laid out anew, line by line. -/
def laysOutContent (o : Options) (name : Text) : Bool :=
  !o.isInline name && !o.isUnformatted name && o.isContentUnformatted name

/-- The tokens without the white space at the line ends of bodies that are laid out anew. -/
def trimBodies (o : Options) : List Token → List Token
  | [] => []
  | .opening name s :: .raw body :: rest =>
    .opening name s :: .raw (if laysOutContent o name then withoutLineEnds body else body) ::
      trimBodies o rest
  | tok :: rest => tok :: trimBodies o rest

theorem flatten_dropWhile_isEmpty (lines : List Text) :
    (lines.dropWhile List.isEmpty).flatten = lines.flatten := by
  induction lines with
  | nil => rfl
  | cons line lines ih =>
    rw [List.dropWhile_cons]
    split
    · next h => rw [ih, List.flatten_cons, List.isEmpty_iff.1 h, List.nil_append]
    · rfl

theorem flatten_dropEndWhile_isEmpty (lines : List Text) :
    (dropEndWhile List.isEmpty lines).flatten = lines.flatten := by
  have h := congrArg List.flatten (dropEndWhile_append_dropped List.isEmpty lines)
  rwa [List.flatten_append,
    List.flatten_eq_nil_iff (L := (lines.reverse.takeWhile _).reverse) |>.2, List.append_nil] at h
  intro line hline
  exact List.isEmpty_iff.1 (List.all_eq_true.1 List.all_takeWhile line (List.mem_reverse.1 hline))

theorem commonIndent_le {lines : List Text} {line : Text} (h : line ∈ lines) (hne : line ≠ []) :
    commonIndent lines ≤ leadingBlanks line := by
  unfold commonIndent
  have hmem : leadingBlanks line ∈ (lines.filter (!·.isEmpty)).map leadingBlanks :=
    List.mem_map_of_mem (List.mem_filter.2 ⟨h, by simpa using hne⟩)
  cases hmin : ((lines.filter (!·.isEmpty)).map leadingBlanks).min? with
  | none => simp [List.min?_eq_none_iff.1 hmin] at hmem
  | some k => exact (List.min?_eq_some_iff.1 hmin).2 _ hmem

theorem trimEnd_eq_nil {s : Text} (h : isBlankText s) : trimEnd s = [] := by
  have hrest : s.reverse.dropWhile isBlank = [] := by
    apply List.dropWhile_eq_nil_iff.2
    intro c hc
    exact List.all_eq_true.1 h c (List.mem_reverse.1 hc)
  rw [trimEnd, dropEndWhile, hrest]
  rfl

theorem trimEnd_line_eq_nil {body line : Text} (h : isBlankText body)
    (hline : line ∈ body.splitOn '\n') : trimEnd line = [] := by
  apply trimEnd_eq_nil
  apply List.all_eq_true.2
  intro c hc
  have hbody : ['\n'].intercalate (body.splitOn '\n') = body := List.intercalate_splitOn '\n'
  rw [isBlankText, ← hbody] at h
  exact List.all_eq_true.1 h c (subset_intercalate hline hc)

section
variable {keep : Char → Bool} (hk : ∀ c, isAsciiBlank c → keep c = false)
include hk

theorem filter_collapseFrom (inSpace : Bool) (s : Text) :
    (collapseFrom inSpace s).filter keep = s.filter keep := by
  have hdrop {c : Char} (hc : isAsciiBlank c) (s : Text) : (c :: s).filter keep = s.filter keep :=
    List.filter_cons_of_neg (by rw [hk c hc]; exact Bool.false_ne_true)
  fun_induction collapseFrom inSpace s with
  | case1 => rfl
  | case2 c s hc ih => rw [ih, hdrop hc]
  | case3 inSpace c s hc _ ih => rw [hdrop rfl, ih, hdrop hc]
  | case4 inSpace c s _ ih => rw [List.filter_cons, List.filter_cons, ih]

theorem filter_flat (tok : Token) : tok.flat.filter keep = tok.slice.filter keep := by
  cases tok with
  | text s => exact filter_collapseFrom hk false s
  | _ => rfl

theorem filter_lineBreak : ['\n'].filter keep = [] := by
  rw [List.filter_cons_of_neg (by rw [hk '\n' rfl]; exact Bool.false_ne_true)]
  rfl

theorem filter_withoutLineEnds (body : Text) :
    (withoutLineEnds body).filter keep = ((body.splitOn '\n').map trimEnd).flatten.filter keep :=
  filter_intercalate (filter_lineBreak hk) _

theorem filter_withoutLineEnds_of_isBlankText {body : Text} (h : isBlankText body) :
    (withoutLineEnds body).filter keep = [] := by
  have hlines : ((body.splitOn '\n').map trimEnd).flatten = [] := by
    apply List.flatten_eq_nil_iff.2
    intro line hline
    obtain ⟨s, hs, rfl⟩ := List.mem_map.1 hline
    exact trimEnd_line_eq_nil h hs
  rw [filter_withoutLineEnds hk, hlines]
  rfl

theorem filter_drop_of_le_leadingBlanks {k : Nat} {line : Text} (h : k ≤ leadingBlanks line) :
    (line.drop k).filter keep = line.filter keep := by
  have hsplit := congrArg (List.filter keep) (List.take_append_drop k line)
  rwa [List.filter_append, filter_eq_nil_of_all hk, List.nil_append] at hsplit
  have htaken : line.take k <+: line.takeWhile isAsciiBlank :=
    List.prefix_of_prefix_length_le (List.take_prefix k line) (List.takeWhile_prefix _)
      (Nat.le_trans (List.length_take_le k line) h)
  exact List.all_eq_true.2 fun c hc =>
    List.all_eq_true.1 List.all_takeWhile c (htaken.subset hc)

theorem filter_dedent (body : Text) :
    (dedent body).flatten.filter keep = (withoutLineEnds body).filter keep := by
  have hlines : (bodyLines body).flatten = ((body.splitOn '\n').map trimEnd).flatten := by
    rw [bodyLines, trimWith, flatten_dropEndWhile_isEmpty, flatten_dropWhile_isEmpty]
  rw [filter_withoutLineEnds hk, ← hlines]
  refine filter_flatten_map fun line h => ?_
  by_cases hne : line = []
  · simp [hne]
  · exact filter_drop_of_le_leadingBlanks hk (commonIndent_le h hne)

end

namespace Page
variable {o : Options} {keep : Char → Bool}

def kept (keep : Char → Bool) (p : Page) : Text :=
  p.lines.toList.flatten.filter keep ++ p.line.filter keep

@[simp] theorem line_flush (p : Page) : (p.flush o).line = [] := by
  unfold flush
  dsimp only
  split <;> rfl

@[simp] theorem kept_deeper (p : Page) : p.deeper.kept keep = p.kept keep := rfl

@[simp] theorem kept_shallower (p : Page) : p.shallower.kept keep = p.kept keep := rfl

@[simp] theorem kept_inline (s : Text) (p : Page) :
    (p.inline s).kept keep = p.kept keep ++ s.filter keep := by
  simp [kept, inline]

section
variable (hu : o.indentUnit.filter keep = [])
include hu

theorem filter_indented (depth : Nat) (s : Text) :
    (indented o depth s).filter keep = s.filter keep := by
  have hunits : (List.replicate depth o.indentUnit).flatten.filter keep = [] := by
    rw [List.filter_flatten, List.flatten_eq_nil_iff]
    intro u hmem
    rw [List.map_replicate, hu] at hmem
    exact List.eq_of_mem_replicate hmem
  rw [indented, List.filter_append, hunits, List.nil_append]

theorem kept_emitAt (depth : Nat) (s : Text) {p : Page} (h : p.line = []) :
    (p.emitAt o depth s).kept keep = p.kept keep ++ s.filter keep := by
  unfold kept emitAt
  dsimp only
  split <;> simp [h, filter_indented hu]

theorem kept_emit (s : Text) {p : Page} (h : p.line = []) :
    (p.emit o s).kept keep = p.kept keep ++ s.filter keep := kept_emitAt hu p.depth s h

theorem kept_bodyLines (lines : List Text) {p : Page} (h : p.line = []) :
    (p.bodyLines o lines).kept keep = p.kept keep ++ lines.flatten.filter keep ∧
      (p.bodyLines o lines).line = [] := by
  unfold bodyLines
  induction lines generalizing p with
  | nil => exact ⟨by simp, h⟩
  | cons line lines ih =>
    rw [List.foldl_cons]
    split
    · next he =>
      have hskip : ({ p with lines := p.lines.push [] } : Page).kept keep = p.kept keep := by
        simp [kept]
      obtain ⟨hkept, hline⟩ := ih (p := { p with lines := p.lines.push [] }) h
      refine ⟨?_, hline⟩
      rw [hkept, hskip, List.flatten_cons, List.isEmpty_iff.1 he, List.nil_append]
    · obtain ⟨hkept, hline⟩ := ih (p := p.emitAt o (p.depth + 1) line) h
      refine ⟨?_, hline⟩
      rw [hkept, kept_emitAt hu _ _ h, List.flatten_cons, List.filter_append, List.append_assoc]

variable (hk : ∀ c, isAsciiBlank c → keep c = false)
include hk

theorem kept_flush (p : Page) : (p.flush o).kept keep = p.kept keep := by
  have htrim := filter_trimWith hk p.line
  unfold flush
  dsimp only
  split
  · next h => simp [kept, ← htrim, List.isEmpty_iff.1 h]
  · rw [kept_emit hu _ rfl, htrim]
    simp [kept]

theorem kept_block (s : Text) (p : Page) :
    (p.block o s).kept keep = p.kept keep ++ s.filter keep := by
  rw [block, kept_emit hu _ (line_flush p), kept_flush hu hk]

theorem kept_text (s : Text) (p : Page) :
    (p.text o s).kept keep = p.kept keep ++ s.filter keep := by
  unfold text
  split
  · next h =>
    rw [filter_eq_nil_of_all hk h, List.append_nil]
    split
    · exact kept_flush hu hk p
    · split
      · rfl
      · rw [kept_inline, filter_eq_nil_of_all hk rfl, List.append_nil]
  · rw [kept_inline, collapse, filter_collapseFrom hk]

theorem kept_contentElement (slice body close : Text) {p : Page} (h : p.line = []) :
    (p.contentElement o slice body close).kept keep = p.kept keep ++
      (slice.filter keep ++ ((withoutLineEnds body).filter keep ++ close.filter keep)) := by
  unfold contentElement
  split
  · next hb =>
    rw [kept_emit hu _ h, List.filter_append, filter_withoutLineEnds_of_isBlankText hk hb,
      List.nil_append]
  · have hemit := kept_emit hu slice h
    obtain ⟨hkept, hline⟩ := kept_bodyLines hu (dedent body) (p := p.emit o slice) h
    rw [hemit, filter_dedent hk] at hkept
    dsimp only
    split
    · next hc =>
      rw [hkept, List.isEmpty_iff.1 hc]
      simp
    · rw [kept_emit hu _ hline, hkept]
      simp

end
end Page

section
variable {o : Options}

theorem trimBodies_cons_of_not_opening {tok : Token} (h : ∀ name s, tok ≠ .opening name s)
    (rest : List Token) : trimBodies o (tok :: rest) = tok :: trimBodies o rest := by
  cases tok with
  | opening name s => exact absurd rfl (h name s)
  | _ => rfl

theorem trimBodies_opening {name : Text} (h : laysOutContent o name = false) (s : Text)
    (rest : List Token) :
    trimBodies o (.opening name s :: rest) = .opening name s :: trimBodies o rest := by
  cases rest with
  | nil => rfl
  | cons tok rest =>
    cases tok with
    | raw body =>
      rw [trimBodies, h, if_neg Bool.false_ne_true,
        trimBodies_cons_of_not_opening (fun _ _ => Token.noConfusion)]
    | _ => rfl

theorem slices_verbatim (toks : List Token) :
    (verbatim toks).1 ++ slices (trimBodies o (verbatim toks).2) = slices (trimBodies o toks) := by
  fun_induction verbatim toks with
  | case1 s rest a after h ih =>
    rw [h] at ih
    rw [trimBodies_cons_of_not_opening (fun _ _ => Token.noConfusion), slices_cons, ← ih,
      List.append_assoc]
    rfl
  | case2 n s rest => rfl
  | case3 toks => rfl

theorem slices_closingTag (name : Text) (toks : List Token) :
    (closingTag name toks).1 ++ slices (trimBodies o (closingTag name toks).2) =
      slices (trimBodies o toks) := by
  fun_cases closingTag name toks <;> rfl

theorem slices_rawBody {name : Text} (h : laysOutContent o name) (s : Text) (toks : List Token) :
    slices (trimBodies o (.opening name s :: toks)) =
      s ++ (withoutLineEnds (rawBody toks).1 ++ slices (trimBodies o (rawBody toks).2)) := by
  fun_cases rawBody toks with
  | case1 body rest =>
    rw [trimBodies, if_pos h]
    rfl
  | case2 _ hraw =>
    have hskip : trimBodies o (.opening name s :: toks) = .opening name s :: trimBodies o toks := by
      cases toks with
      | nil => rfl
      | cons tok rest =>
        cases tok with
        | raw body => exact absurd rfl (hraw body rest)
        | _ => rfl
    rw [hskip]
    rfl

theorem trimBodies_cons_of_isInlineToken {tok : Token} (h : isInlineToken o tok)
    (rest : List Token) : trimBodies o (tok :: rest) = tok :: trimBodies o rest := by
  cases tok with
  | opening name s =>
    have hinline : o.isInline name := h
    exact trimBodies_opening (by simp [laysOutContent, hinline]) s rest
  | _ => rfl

end

section
variable {o : Options} {keep : Char → Bool} (hk : ∀ c, isAsciiBlank c → keep c = false)
include hk

theorem filter_inlineBody? {name a : Text} {toks after : List Token}
    (h : inlineBody? o name toks = some (a, after)) :
    a.filter keep ++ (slices (trimBodies o after)).filter keep =
      (slices (trimBodies o toks)).filter keep := by
  induction toks generalizing a with
  | nil => simp [inlineBody?] at h
  | cons tok rest ih =>
    obtain ⟨rfl, rfl⟩ | ⟨hinline, b, hb, rfl⟩ := inlineBody?_cons_eq_some h
    · rw [trimBodies_cons_of_not_opening (fun _ _ => Token.noConfusion), slices_cons,
        List.filter_append]
      rfl
    · rw [trimBodies_cons_of_isInlineToken hinline, slices_cons, List.filter_append,
        List.filter_append, filter_flat hk, List.append_assoc, ih hb]

variable (hu : o.indentUnit.filter keep = [])
include hu

theorem kept_templateTag (kind : TagKind) (slice : Text) (p : Page) :
    (templateTag o kind slice p).kept keep = p.kept keep ++ slice.filter keep := by
  unfold templateTag
  split
  · cases kind with
    | opening => exact p.kept_block hu hk slice
    | closing =>
      rw [Page.kept_block hu hk, Page.kept_shallower, Page.kept_flush hu hk]
    | divider => rw [Page.kept_emitAt hu _ _ (p.line_flush), Page.kept_flush hu hk]
    | inline => exact p.kept_inline slice
  · exact p.kept_inline slice

theorem kept_closeElement (name slice : Text) (p : Page) :
    (closeElement o name slice p).kept keep = p.kept keep ++ slice.filter keep := by
  unfold closeElement
  split
  · exact p.kept_inline slice
  · dsimp only
    split
    · rw [Page.kept_block hu hk, Page.kept_shallower, Page.kept_flush hu hk]
    · rw [Page.kept_block hu hk, Page.kept_flush hu hk]

theorem kept_openElement (name slice : Text) (rest : List Token) (p : Page) :
    (openElement o name slice rest p).1.kept keep ++
        (slices (trimBodies o (openElement o name slice rest p).2)).filter keep =
      p.kept keep ++ (slices (trimBodies o (.opening name slice :: rest))).filter keep := by
  have hself (h : laysOutContent o name = false) :
      (slices (trimBodies o (.opening name slice :: rest))).filter keep =
        slice.filter keep ++ (slices (trimBodies o rest)).filter keep := by
    rw [trimBodies_opening h, slices_cons, List.filter_append]
    rfl
  unfold openElement
  split
  · next hinline =>
    rw [hself (by simp [laysOutContent, hinline]), Page.kept_inline, List.append_assoc]
  split
  · next hverbatim =>
    -- all up to the closing tag is taken as it is
    have hbody := congrArg (List.filter keep) (slices_verbatim (o := o) rest)
    rw [List.filter_append] at hbody
    rw [hself (by simp [laysOutContent, hverbatim]), Page.kept_emit hu _ p.line_flush,
      Page.kept_flush hu hk, List.filter_append, ← hbody]
    simp only [List.append_assoc]
  split
  · next hinline hverbatim hcontent =>
    -- a raw body and the closing tag are taken, each if it is there
    have hlaid : laysOutContent o name := by simp [laysOutContent, hinline, hverbatim, hcontent]
    have hclose := congrArg (List.filter keep) (slices_closingTag (o := o) name (rawBody rest).2)
    rw [List.filter_append] at hclose
    rw [slices_rawBody hlaid, List.filter_append, List.filter_append, ← hclose,
      Page.kept_contentElement hu hk _ _ _ p.line_flush, Page.kept_flush hu hk]
    simp only [List.append_assoc]
  next hcontent =>
  have hlaid : laysOutContent o name = false := by simp [laysOutContent, hcontent]
  split
  · next h =>
    -- a body that fits one line is taken with its closing tag
    rw [hself hlaid, Page.kept_emit hu _ p.line_flush, Page.kept_flush hu hk, List.filter_append,
      ← filter_inlineBody? hk h]
    simp only [List.append_assoc]
  · dsimp only
    rw [hself hlaid]
    split
    · rw [Page.kept_deeper, Page.kept_block hu hk, List.append_assoc]
    · rw [Page.kept_block hu hk, List.append_assoc]

/-- Printing a token moves its slice, and those of the tokens it takes with it, onto the page. -/
theorem kept_printToken (tok : Token) (rest : List Token) (p : Page) :
    (printToken o tok rest p).1.kept keep ++
        (slices (trimBodies o (printToken o tok rest p).2)).filter keep =
      p.kept keep ++ (slices (trimBodies o (tok :: rest))).filter keep := by
  have hself (h : ∀ name s, tok ≠ .opening name s) :
      p.kept keep ++ (slices (trimBodies o (tok :: rest))).filter keep =
        p.kept keep ++ tok.slice.filter keep ++ (slices (trimBodies o rest)).filter keep := by
    rw [trimBodies_cons_of_not_opening h, slices_cons, List.filter_append, List.append_assoc]
  cases tok with
  | opening name s => exact kept_openElement hk hu name s rest p
  | text s =>
    rw [hself fun _ _ => Token.noConfusion]
    exact congrArg (· ++ _) (p.kept_text hu hk s)
  | comment s =>
    rw [hself fun _ _ => Token.noConfusion]
    exact congrArg (· ++ _) (p.kept_block hu hk s)
  | closing name s =>
    rw [hself fun _ _ => Token.noConfusion]
    exact congrArg (· ++ _) (kept_closeElement hk hu name s p)
  | void name s =>
    rw [hself fun _ _ => Token.noConfusion]
    unfold printToken
    dsimp only
    split
    · exact congrArg (· ++ _) (p.kept_inline s)
    · exact congrArg (· ++ _) (p.kept_block hu hk s)
  | raw s =>
    rw [hself fun _ _ => Token.noConfusion]
    exact congrArg (· ++ _) (p.kept_inline s)
  | tag kind s =>
    rw [hself fun _ _ => Token.noConfusion]
    exact congrArg (· ++ _) (kept_templateTag hk hu kind s p)

theorem kept_printTokens (p : Page) (toks : List Token) :
    (printTokens o p toks).kept keep = p.kept keep ++ (slices (trimBodies o toks)).filter keep ∧
      (printTokens o p toks).line = [] := by
  fun_induction printTokens o p toks with
  | case1 p => exact ⟨by rw [p.kept_flush hu hk]; simp [trimBodies], p.line_flush⟩
  | case2 p tok rest next ih => exact ⟨ih.1.trans (kept_printToken hk hu tok rest p), ih.2⟩

theorem filter_beautify (he : o.eol.filter keep = []) (s : Text) :
    (beautify o s).filter keep = (slices (trimBodies o (tokens o s))).filter keep := by
  obtain ⟨hkept, hline⟩ := kept_printTokens hk hu {} (tokens o s)
  have hlines : (printed o (tokens o s)).lines.toList.flatten.filter keep =
      (slices (trimBodies o (tokens o s))).filter keep := by
    simpa [Page.kept, hline, printed] using hkept
  unfold beautify assemble
  split
  · next h => rw [← hlines, List.isEmpty_iff.1 h]; rfl
  · rw [List.filter_append, filter_intercalate he, hlines]
    split <;> simp [he]

end

theorem solid_withoutLineEnds (body : Text) : solid (withoutLineEnds body) = solid body := by
  have hblank (c : Char) (hc : isBlank c) : (!isBlank c) = false := by rw [hc, Bool.not_true]
  have hbreak : ['\n'].filter (fun c => !isBlank c) = [] := by decide
  have hlines : solid ((body.splitOn '\n').map trimEnd).flatten =
      solid (body.splitOn '\n').flatten :=
    filter_flatten_map fun s _ => filter_dropEndWhile hblank s
  rw [solid, withoutLineEnds, filter_intercalate hbreak]
  refine hlines.trans ?_
  rw [solid, ← filter_intercalate hbreak, List.intercalate_splitOn]
  rfl

theorem solid_slices_trimBodies (o : Options) (toks : List Token) :
    solid (slices (trimBodies o toks)) = solid (slices toks) := by
  fun_induction trimBodies o toks with
  | case1 => rfl
  | case2 name s body rest ih =>
    simp only [slices_cons, solid_append, ih, Token.slice]
    split
    · rw [solid_withoutLineEnds]
    · rfl
  | case3 tok rest _ ih => rw [slices_cons, slices_cons, solid_append, solid_append, ih]

section
variable {o : Options} (hu : isBlankText o.indentUnit) (he : isBlankText o.eol)
include hu he

theorem solid_beautify (s : Text) : solid (beautify o s) = solid s := by
  have hk (c : Char) (hc : isAsciiBlank c) : (!isBlank c) = false := by
    rw [isBlank_of_isAsciiBlank hc, Bool.not_true]
  have hbeautify := filter_beautify hk (solid_eq_nil_of_isBlankText hu)
    (solid_eq_nil_of_isBlankText he) s
  have htrim := solid_slices_trimBodies o (tokens o s)
  rw [slices_tokens] at htrim
  exact hbeautify.trans htrim

end

theorem solid_render {o : Options} (hu : isBlankText o.indentUnit) (he : isBlankText o.eol)
    (s : Text) : solid (render o s) = solid s := by
  rw [render, solid_restore, solid_beautify hu he, solid_protect]

theorem solid_render_bundled :
    isBlankText Options.bundled.indentUnit ∧ isBlankText Options.bundled.eol ∧
    solid (render .bundled "<ul>\x7b\x7b#  each items\x7d\x7d<li>a  b</li></ul><!-- c -->") =
      solid "<ul>\x7b\x7b#  each items\x7d\x7d<li>a  b</li></ul><!-- c -->" :=
  ⟨by decide, by decide, solid_render (by decide) (by decide) _⟩

end PatternBridge.Markup
