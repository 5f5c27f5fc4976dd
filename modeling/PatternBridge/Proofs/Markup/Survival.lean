import PatternBridge.Markup.Marker
import PatternBridge.Proofs.Markup.Content

/-! How many markers come through printing. The marker is white space, though no ASCII white space: it
is lost with the line ends of a body that is laid out anew, where all white space is trimmed, and
nowhere else. -/

namespace PatternBridge.Markup
open Text

def laidOutBodies (o : Options) : List Token → List Text
  | [] => []
  | .opening name _ :: .raw body :: rest =>
    if laysOutContent o name then body :: laidOutBodies o rest else laidOutBodies o rest
  | _ :: rest => laidOutBodies o rest

/-- The white space at the ends of the lines of a body. -/
def lineEnds (body : Text) : List Text :=
  (body.splitOn '\n').map fun line => (line.reverse.takeWhile isBlank).reverse

theorem marker_of_isAsciiBlank (c : Char) (h : isAsciiBlank c) : (c == marker) = false := by
  apply beq_eq_false_iff_ne.2
  rintro rfl
  exact absurd h (by decide)

theorem count_append_lineEnds {c : Char} (h : c ≠ '\n') (body : Text) :
    (withoutLineEnds body).count c + (lineEnds body).flatten.count c = body.count c := by
  have hbreak : ['\n'].filter (· == c) = [] := by simp [h.symm]
  have hcount (ss : List Text) : (['\n'].intercalate ss).count c = ss.flatten.count c := by
    rw [List.count_eq_length_filter, List.count_eq_length_filter, filter_intercalate hbreak]
  have hlines (ss : List Text) : (ss.map trimEnd).flatten.count c +
      (ss.map fun line => (line.reverse.takeWhile isBlank).reverse).flatten.count c =
        ss.flatten.count c := by
    induction ss with
    | nil => rfl
    | cons line ss ih =>
      have hline := congrArg (List.count c) (dropEndWhile_append_dropped isBlank line)
      rw [List.count_append] at hline
      simp only [List.map_cons, List.flatten_cons, List.count_append, ← ih, ← hline, trimEnd]
      omega
  rw [withoutLineEnds, lineEnds, hcount, hlines, ← hcount, List.intercalate_splitOn]

theorem count_slices_trimBodies {c : Char} (h : c ≠ '\n') (o : Options) (toks : List Token) :
    (slices (trimBodies o toks)).count c +
        ((laidOutBodies o toks).flatMap lineEnds).flatten.count c = (slices toks).count c := by
  fun_induction trimBodies o toks with
  | case1 => rfl
  | case2 name s body rest ih =>
    have hbody := count_append_lineEnds h body
    rw [laidOutBodies]
    simp only [slices_cons, List.count_append, Token.slice]
    split
    · rw [List.flatMap_cons, List.flatten_append, List.count_append]
      omega
    · omega
  | case3 tok rest hother ih =>
    have hskip : laidOutBodies o (tok :: rest) = laidOutBodies o rest := by
      rw [laidOutBodies]
      exact hother
    rw [hskip, slices_cons, slices_cons, List.count_append, List.count_append]
    omega

/-- The markers that are lost are those at the line ends of bodies that are laid out anew. -/
theorem count_marker_beautify {o : Options} (hu : marker ∉ o.indentUnit) (he : marker ∉ o.eol)
    (s : Text) :
    (beautify o s).count marker +
        ((laidOutBodies o (tokens o s)).flatMap lineEnds).flatten.count marker = s.count marker ∧
      ((beautify o s).count marker = s.count marker ↔
        ∀ body ∈ laidOutBodies o (tokens o s), ∀ ending ∈ lineEnds body, marker ∉ ending) := by
  have hnone {t : Text} (h : marker ∉ t) : t.filter (· == marker) = [] := by
    apply List.filter_eq_nil_iff.2
    intro c hc heq
    exact h (eq_of_beq heq ▸ hc)
  have hkept := filter_beautify marker_of_isAsciiBlank (hnone hu) (hnone he) s
  have hlost := count_slices_trimBodies (show marker ≠ '\n' by decide) o (tokens o s)
  have hcount : (beautify o s).count marker = (slices (trimBodies o (tokens o s))).count marker := by
    rw [List.count_eq_length_filter, hkept, List.count_eq_length_filter]
  rw [slices_tokens, ← hcount] at hlost
  refine ⟨hlost, ?_⟩
  have hall : (∀ body ∈ laidOutBodies o (tokens o s), ∀ ending ∈ lineEnds body, marker ∉ ending) ↔
      ((laidOutBodies o (tokens o s)).flatMap lineEnds).flatten.count marker = 0 := by
    rw [List.count_eq_zero]
    simp only [List.mem_flatten, List.mem_flatMap, not_exists, not_and]
    exact ⟨fun h ending ⟨body, hb, hl⟩ => h body hb ending hl, fun h body hb ending hl =>
      h ending ⟨body, hb, hl⟩⟩
  rw [hall]
  omega

theorem count_marker_beautify_bundled : marker ∉ Options.bundled.indentUnit ∧
    marker ∉ Options.bundled.eol ∧
    (beautify .bundled "<p\u00a0id=a>b \u00a0</p><script>\u00a0c\u00a0d\n\u00a0e</script>").count
        marker =
      ("<p\u00a0id=a>b \u00a0</p><script>\u00a0c\u00a0d\n\u00a0e</script>" : Text).count
        marker :=
  ⟨by decide, by decide, (count_marker_beautify (by decide) (by decide) _).2.2 (by decide +kernel)⟩

theorem marker_lost_at_line_end : marker ∉ ({} : Options).indentUnit ∧
    marker ∉ ({} : Options).eol ∧
    beautify {} "<script>a\u00a0\nb</script>" = "<script>\n    a\n    b\n</script>\n" ∧
    (beautify {} "<script>a\u00a0\nb</script>").count marker ≠
      ("<script>a\u00a0\nb</script>" : Text).count marker := by
  have hprinted : beautify {} "<script>a\u00a0\nb</script>" =
      "<script>\n    a\n    b\n</script>\n" := by decide +kernel
  refine ⟨by decide, by decide, hprinted, ?_⟩
  rw [hprinted]
  decide

end PatternBridge.Markup
