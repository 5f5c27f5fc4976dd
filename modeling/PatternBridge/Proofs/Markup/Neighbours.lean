import Mathlib.Data.List.Chain
import PatternBridge.Proofs.Markup.Reads

/-! Neighbouring tokens of a text. Text is never cut between two tokens, and verbatim content stands
only behind the opening tag that it belongs to. -/

namespace PatternBridge.Markup
open Text

variable {o : Options} {toks : List Token} {a b tok : Token}

/-- Whether `b` may be the next token behind `a`. -/
structure MayFollow (o : Options) (a b : Token) : Prop where
  text : ∀ s t, a = .text s → b ≠ .text t
  raw : ∀ body, b = .raw body → ∃ name, a.opensRaw o = some name

theorem mayFollow_of_isMark (h : b.isMark) (a : Token) : MayFollow o a b :=
  ⟨fun _ t _ => (ne_of_isMark h).2 t, fun body heq => absurd heq ((ne_of_isMark h).1 body)⟩

theorem mayFollow_text (h : ∀ s, a ≠ .text s) (t : Text) : MayFollow o a (.text t) :=
  ⟨fun s _ heq => absurd heq (h s), fun _ heq => by cases heq⟩

/-- The tokens may stand behind any token but text. They do not start with verbatim content, since
that would have to belong to the token before it. -/
def Arranged (o : Options) (toks : List Token) : Prop :=
  ∀ tok, (∀ s, tok ≠ .text s) → (tok :: toks).IsChain (MayFollow o)

namespace Arranged

theorem nil (o : Options) : Arranged o [] := fun tok _ => .singleton tok

theorem cons (h : Arranged o toks) (htok : tok.isMark) : Arranged o (tok :: toks) := fun a _ =>
  .cons_cons (mayFollow_of_isMark htok a) (h tok (ne_of_isMark htok).2)

theorem cons_raw {name : Text} (h : Arranged o toks) (hopens : tok.opensRaw o = some name)
    (htok : tok.isMark) (body : Text) : Arranged o (tok :: .raw body :: toks) := by
  intro a _
  have hraw : MayFollow o tok (.raw body) :=
    ⟨fun s _ heq => absurd heq ((ne_of_isMark htok).2 s), fun _ _ => ⟨name, hopens⟩⟩
  exact .cons_cons (mayFollow_of_isMark htok a) (.cons_cons hraw (h _ fun _ heq => by cases heq))

theorem addText (h : Arranged o toks) (c : Char) : Arranged o (addText c toks) := by
  intro a ha
  -- behind a token that opens nothing, so that verbatim content cannot come first
  have hfirst := h (.comment []) fun _ heq => by cases heq
  cases toks with
  | nil => exact .cons_cons (mayFollow_text ha [c]) (.singleton _)
  | cons first rest =>
    obtain ⟨hnext, hrest⟩ := List.isChain_cons_cons.1 hfirst
    have hraw (body : Text) : first ≠ .raw body := fun heq => by
      obtain ⟨name, hname⟩ := hnext.raw body heq
      cases hname
    cases first with
    | text s =>
      refine .cons_cons (mayFollow_text ha (c :: s)) ?_
      cases rest with
      | nil => exact .singleton _
      | cons second rest =>
        obtain ⟨⟨htext, hbody⟩, hrest⟩ := List.isChain_cons_cons.1 hrest
        exact .cons_cons ⟨fun _ t _ => htext s t rfl, hbody⟩ hrest
    | raw body => exact absurd rfl (hraw body)
    | _ => exact .cons_cons (mayFollow_text ha [c]) (.cons_cons (mayFollow_of_isMark rfl _) hrest)

end Arranged

theorem arranged_tokens (o : Options) (s : Text) : Arranged o (tokens o s) := by
  fun_induction tokens o s with
  | case1 => exact .nil o
  | case2 c s hread ih => exact ih.addText c
  | case3 c s tok rest hread name hname split ih =>
    have hmark := isMark_of_readToken? hread
    unfold rawToken
    split
    · exact ih.cons hmark
    · exact ih.cons_raw hname hmark _
  | case4 c s tok rest hread hname ih => exact ih.cons (isMark_of_readToken? hread)

theorem isChain_tokens (o : Options) (s : Text) :
    (Token.comment [] :: tokens o s).IsChain (MayFollow o) :=
  arranged_tokens o s _ fun _ heq => by cases heq

theorem mayFollow_of_tokens_eq_append {s : Text} {front back : List Token}
    (h : tokens o s = front ++ a :: b :: back) : MayFollow o a b := by
  have hchain := (isChain_tokens o s).tail
  rw [List.tail_cons, h] at hchain
  exact (List.isChain_append_cons_cons.1 hchain).2.1

theorem listed_of_opensRaw {name : Text} (h : tok.opensRaw o = some name) :
    ∃ slice, tok = .opening name slice ∧
      ∃ listed ∈ o.unformatted ++ o.contentUnformatted, sameLetters listed name := by
  obtain ⟨slice, rfl⟩ := exists_opening_of_opensRaw h
  refine ⟨slice, rfl, ?_⟩
  obtain ⟨hlisted, -⟩ := Option.ite_none_right_eq_some.1 h
  rw [Options.isUnformatted, Options.isContentUnformatted, ← List.any_append,
    List.any_eq_true] at hlisted
  exact hlisted

/-- The tokens make up the text: nothing is lost or read twice, none is empty, text is in one piece,
and verbatim content stands directly behind the opening tag of an element listed for it. -/
theorem tokens_partition (o : Options) (s : Text) :
    (tokens o s).flatMap Token.slice = s ∧ (∀ tok ∈ tokens o s, tok.slice ≠ []) ∧
    (∀ front t u back, tokens o s ≠ front ++ .text t :: .text u :: back) ∧
    ∀ front body back, tokens o s = front ++ .raw body :: back →
      ∃ before name slice, front = before ++ [.opening name slice] ∧
        ∃ listed ∈ o.unformatted ++ o.contentUnformatted, sameLetters listed name := by
  refine ⟨slices_tokens o s, fun _ => slice_ne_nil_of_mem_tokens, fun front t u back h => ?_,
    fun front body back h => ?_⟩
  · exact (mayFollow_of_tokens_eq_append h).text t u rfl rfl
  · obtain rfl | ⟨before, a, rfl⟩ := List.eq_nil_or_concat front
    · have hchain := isChain_tokens o s
      rw [h] at hchain
      obtain ⟨name, hname⟩ := (List.isChain_cons_cons.1 hchain).1.raw body rfl
      cases hname
    · rw [List.concat_eq_append, List.append_assoc, List.singleton_append] at h
      obtain ⟨name, hname⟩ := (mayFollow_of_tokens_eq_append h).raw body rfl
      obtain ⟨slice, rfl, hlisted⟩ := listed_of_opensRaw hname
      exact ⟨before, name, slice, List.concat_eq_append, hlisted⟩

/-- The name is listed in lower case only, and neither the `<` nor the braces start a token. -/
theorem tokens_partition_verbatim :
    let o : Options := {}
    let s : Text := "a < b<PRE>c</pre>\x7b\x7b"
    let front : List Token := [.text "a < b", .opening "pre" "<PRE>"]
    let back : List Token := [.closing "pre" "</pre>", .text "\x7b\x7b"]
    tokens o s = front ++ .raw "c" :: back ∧
      ∃ before name slice, front = before ++ [.opening name slice] ∧
        ∃ listed ∈ o.unformatted ++ o.contentUnformatted, sameLetters listed name := by
  intro o s front back
  have htokens : tokens o s = front ++ .raw "c" :: back := by decide +kernel
  exact ⟨htokens, (tokens_partition o s).2.2.2 front "c" back htokens⟩

end PatternBridge.Markup
