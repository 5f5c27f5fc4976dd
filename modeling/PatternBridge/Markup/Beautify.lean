import PatternBridge.Markup.Printer

/-!
Printing all tokens of a text, and the formatted text.
-/

namespace PatternBridge.Markup

theorem length_verbatim_le (toks : List Token) : (verbatim toks).2.length ≤ toks.length := by
  fun_induction verbatim toks with
  | case1 s rest a after h ih => simp [h] at ih ⊢; omega
  | case2 => simp
  | case3 => simp

theorem length_rawBody_le (toks : List Token) : (rawBody toks).2.length ≤ toks.length := by
  fun_cases rawBody toks <;> simp

theorem length_closingTag_le (name : Text) (toks : List Token) :
    (closingTag name toks).2.length ≤ toks.length := by
  fun_cases closingTag name toks <;> simp

theorem length_inlineBody?_le {o : Options} {name a : Text} {toks after : List Token}
    (h : inlineBody? o name toks = some (a, after)) : after.length ≤ toks.length := by
  induction toks generalizing a with
  | nil => simp [inlineBody?] at h
  | cons tok rest ih =>
    rw [List.length_cons]
    obtain ⟨-, rfl⟩ | ⟨-, b, hb, -⟩ := inlineBody?_cons_eq_some h
    · exact Nat.le_succ _
    · exact Nat.le_succ_of_le (ih hb)

theorem length_openElement_le (o : Options) (name slice : Text) (rest : List Token) (p : Page) :
    (openElement o name slice rest p).2.length ≤ rest.length := by
  unfold openElement
  split
  · simp
  split
  · exact length_verbatim_le rest
  split
  · exact Nat.le_trans (length_closingTag_le _ _) (length_rawBody_le rest)
  split
  · next h => exact length_inlineBody?_le h
  · simp

theorem length_printToken_le (o : Options) (tok : Token) (rest : List Token) (p : Page) :
    (printToken o tok rest p).2.length ≤ rest.length := by
  cases tok with
  | opening name s => exact length_openElement_le o name s rest p
  | _ => simp [printToken]

def printTokens (o : Options) (p : Page) (toks : List Token) : Page :=
  match toks with
  | [] => p.flush o
  | tok :: rest =>
    let next := printToken o tok rest p
    printTokens o next.1 next.2
termination_by toks.length
decreasing_by
  have := length_printToken_le o tok rest p
  simp only [List.length_cons]
  omega

def printed (o : Options) (toks : List Token) : Page := printTokens o {} toks

/-- The lines with line ends between them, and one after the last where the options ask for it. Text
without lines has no line end. -/
def assemble (o : Options) (lines : List Text) : Text :=
  if lines.isEmpty then []
  else o.eol.intercalate lines ++ (if o.endWithNewline then o.eol else [])

def beautify (o : Options) (s : Text) : Text :=
  assemble o (printed o (tokens o s)).lines.toList

end PatternBridge.Markup
