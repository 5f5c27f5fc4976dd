import PatternBridge.OptionsFile
import PatternBridge.Proofs.Json.Distinct

/-! Options written as an object: what each option is, and when there are any, hangs on the values
that the object has once its `html` section lies over it. -/

namespace PatternBridge

namespace Json

namespace Members
variable {ms upper : Members}

theorem find?_cons (key : Text) (m : Text × Value) (ms : Members) :
    find? key (m :: ms) = if key = m.1 then some m.2 else ms.find? key := by
  rw [find?, List.lookup_cons]
  by_cases h : key = m.1
  · rw [if_pos h, beq_iff_eq.2 h]
  · rw [if_neg h, beq_eq_false_iff_ne.2 h, find?]

theorem find?_put (key : Text) (v : Value) (ms : Members) (k : Text) :
    (ms.put key v).find? k = if k = key then some v else ms.find? k := by
  induction ms with
  | nil => exact find?_cons k (key, v) []
  | cons m ms ih =>
    rw [put]
    split
    · next hm =>
      rw [find?_cons, find?_cons, eq_of_beq hm]
      split <;> rfl
    · next hm =>
      have hm : m.1 ≠ key := fun h => hm (beq_iff_eq.2 h)
      rw [find?_cons, find?_cons, ih]
      by_cases hk : k = m.1
      · simp only [hk, hm, if_true, if_false]
      · simp only [hk, if_false]

theorem find?_erase (key : Text) (ms : Members) (k : Text) :
    (ms.erase key).find? k = if k = key then none else ms.find? k := by
  induction ms with
  | nil => exact (ite_self none).symm
  | cons m ms ih =>
    rw [erase, List.filter_cons, ← erase, find?_cons]
    by_cases hm : m.1 = key
    · rw [if_neg (by simp [hm]), ih, hm]
      split <;> rfl
    · rw [if_pos (by simp [hm]), find?_cons, ih]
      by_cases hk : k = m.1
      · simp only [hk, hm, if_true, if_false]
      · simp only [hk, if_false]

theorem mem_of_find?_eq_some {key : Text} {v : Value} (h : ms.find? key = some v) :
    (key, v) ∈ ms := by
  induction ms with
  | nil => cases h
  | cons m ms ih =>
    rw [find?_cons] at h
    split at h
    · next hm => exact List.mem_cons.2 (.inl (Prod.ext hm (Option.some.inj h).symm))
    · exact List.mem_cons_of_mem _ (ih h)

theorem find?_overlay (h : upper.Distinct) (ms : Members) (key : Text) :
    (ms.overlay upper).find? key = (upper.find? key).or (ms.find? key) := by
  induction upper generalizing ms with
  | nil => rfl
  | cons m upper ih =>
    obtain ⟨hm, hupper⟩ := List.nodup_cons.1 h
    have hstep : ms.overlay (m :: upper) = (ms.put m.1 m.2).overlay upper := rfl
    rw [hstep, ih hupper, find?_put, find?_cons]
    by_cases hkey : key = m.1
    · -- the keys are distinct, so nothing that is put later takes this one's place
      have hnone : find? key upper = none := Option.eq_none_iff_forall_ne_some.2 fun v hv =>
        hm (List.mem_map.2 ⟨_, mem_of_find?_eq_some hv, hkey⟩)
      rw [hnone, if_pos hkey, if_pos hkey]
      rfl
    · rw [if_neg hkey, if_neg hkey]

theorem find?_map (f : Text → Value → Value) (ms : Members) (key : Text) :
    find? key (ms.map fun m => (m.1, f m.1 m.2)) = (ms.find? key).map (f key) := by
  induction ms with
  | nil => rfl
  | cons m ms ih =>
    rw [List.map_cons, find?_cons, find?_cons, ih]
    split
    · next hkey => rw [hkey, Option.map_some]
    · rfl

end Members

namespace Value
variable {v : Value}

theorem natural?_eq_some_iff {n : Nat} : v.natural? = some n ↔ v = .number (.natural n) := by
  constructor
  · intro h
    unfold natural? at h
    split at h
    · rw [Option.some.inj h]
    · cases h
  · rintro rfl
    rfl

theorem bool?_eq_some_iff {b : Bool} : v.bool? = some b ↔ v = .bool b := by
  cases v <;> simp [bool?]

theorem string?_eq_some_iff {s : Text} : v.string? = some s ↔ v = .string s := by
  cases v <;> simp [string?]

theorem strings?_eq_some_iff {ss : List Text} :
    v.strings? = some ss ↔ v = .array (ss.map .string) := by
  cases v with
  | array items =>
    rw [strings?, array.injEq]
    induction items generalizing ss with
    | nil => cases ss <;> simp
    | cons item items ih =>
      cases ss with
      | nil => simp [List.mapM_cons, Option.bind_eq_some_iff]
      | cons s ss => simp [List.mapM_cons, Option.bind_eq_some_iff, string?_eq_some_iff, ih]
  | _ => simp [strings?]

end Value
end Json

namespace Markup.Options
open Json

/-- The value that a key has in an object without its `html` entry, under the members of that entry
where it is an object itself. -/
def effective (ms : Members) (key : Text) : Option Value :=
  (((ms.find? "html").bind Value.members?).bind (·.find? key)).or
    (if key = "html" then none else ms.find? key)

theorem find?_flatten {ms : Members} (h : (Value.object ms).Distinct) (key : Text) :
    (flatten ms).find? key = effective ms key := by
  unfold flatten effective
  split
  · next inner hhtml =>
    have hinner : (Value.object inner).Distinct :=
      h.members _ (Members.mem_of_find?_eq_some hhtml)
    rw [Members.find?_overlay hinner.keys, Members.find?_erase, hhtml]
    rfl
  · next hhtml =>
    have hnone : (ms.find? "html").bind Value.members? = none := by
      refine Option.bind_eq_none_iff.2 fun v hv => ?_
      cases v with
      | object inner => exact absurd hv (hhtml inner)
      | _ => rfl
    rw [hnone, Members.find?_erase]
    rfl

def members (o : Options) : Members :=
  let natural (n : Nat) : Value := .number (.natural n)
  let names (ns : List Text) : Value := .array (ns.map .string)
  [("indent_size", natural o.indentSize), ("indent_char", .string o.indentChar),
    ("indent_with_tabs", .bool o.indentWithTabs), ("eol", .string o.eol),
    ("end_with_newline", .bool o.endWithNewline), ("preserve_newlines", .bool o.preserveNewlines),
    ("max_preserve_newlines", natural o.maxPreserveNewlines),
    ("indent_inner_html", .bool o.indentInnerHtml), ("indent_handlebars", .bool o.indentHandlebars),
    ("inline", names o.inlineNames), ("unformatted", names o.unformatted),
    ("content_unformatted", names o.contentUnformatted)]

/-- Some options have the value under the key, so it is of that option's type. -/
def Fits (key : Text) (v : Value) : Prop := ∃ o : Options, o.members.find? key = some v

/-- Every value that is given for an option is of the option's type. -/
def WellTyped (given : Text → Option Value) : Prop :=
  ∀ key ∈ keys, ∀ v, given key = some v → Fits key v

section
variable {α : Type} {read : Value → Option α} {write : α → Value} {ms : Members} {key : Text}

theorem member_eq_some_iff (hread : ∀ {v a}, read v = some a ↔ v = write a) {d a : α} :
    member ms key read d = some a ↔ write a = (ms.find? key).getD (write d) := by
  unfold member
  cases ms.find? key with
  | some v => exact hread.trans eq_comm
  | none =>
    have hwrite (a : α) : read (write a) = some a := hread.2 rfl
    constructor
    · rintro ⟨⟩
      rfl
    · intro h
      rw [← hwrite d, ← hwrite a]
      exact congrArg read h.symm

theorem exists_member (hread : ∀ {v a}, read v = some a ↔ v = write a) {pick : Options → α}
    (hpick : ∀ o : Options, o.members.find? key = some (write (pick o)))
    (hfits : ∀ v, ms.find? key = some v → Fits key v) (d : α) :
    ∃ a, member ms key read d = some a := by
  unfold member
  cases h : ms.find? key with
  | none => exact ⟨d, rfl⟩
  | some v =>
    obtain ⟨o, ho⟩ := hfits v h
    exact ⟨pick o, hread.2 (Option.some.inj (ho.symm.trans (hpick o)))⟩

end

theorem ofMembers?_eq_some_iff {ms : Members} {o : Options} :
    ofMembers? ms = some o ↔
      o.members = ({} : Options).members.map fun m => (m.1, (ms.find? m.1).getD m.2) := by
  simp only [ofMembers?, Option.bind_eq_bind, Option.bind_eq_some_iff,
    member_eq_some_iff Value.natural?_eq_some_iff, member_eq_some_iff Value.bool?_eq_some_iff,
    member_eq_some_iff Value.string?_eq_some_iff, member_eq_some_iff Value.strings?_eq_some_iff]
  simp only [members, List.map_cons, List.map_nil, List.cons.injEq, Prod.mk.injEq, true_and,
    and_true]
  constructor
  · rintro ⟨_, h₁, _, h₂, _, h₃, _, h₄, _, h₅, _, h₆, _, h₇, _, h₈, _, h₉, _, h₁₀, _, h₁₁, _, h₁₂, ⟨⟩⟩
    exact ⟨h₁, h₂, h₃, h₄, h₅, h₆, h₇, h₈, h₉, h₁₀, h₁₁, h₁₂⟩
  · rintro ⟨h₁, h₂, h₃, h₄, h₅, h₆, h₇, h₈, h₉, h₁₀, h₁₁, h₁₂⟩
    exact ⟨_, h₁, _, h₂, _, h₃, _, h₄, _, h₅, _, h₆, _, h₇, _, h₈, _, h₉, _, h₁₀, _, h₁₁, _, h₁₂, rfl⟩

theorem exists_ofMembers? {ms : Members} (hfits : WellTyped (ms.find? ·)) :
    ∃ o, ofMembers? ms = some o := by
  let d : Options := {}
  simp only [WellTyped, keys, List.forall_mem_cons] at hfits
  obtain ⟨h₁, h₂, h₃, h₄, h₅, h₆, h₇, h₈, h₉, h₁₀, h₁₁, h₁₂, -⟩ := hfits
  obtain ⟨_, h₁⟩ := exists_member Value.natural?_eq_some_iff (fun _ => rfl) h₁ d.indentSize
  obtain ⟨_, h₂⟩ := exists_member Value.string?_eq_some_iff (fun _ => rfl) h₂ d.indentChar
  obtain ⟨_, h₃⟩ := exists_member Value.bool?_eq_some_iff (fun _ => rfl) h₃ d.indentWithTabs
  obtain ⟨_, h₄⟩ := exists_member Value.string?_eq_some_iff (fun _ => rfl) h₄ d.eol
  obtain ⟨_, h₅⟩ := exists_member Value.bool?_eq_some_iff (fun _ => rfl) h₅ d.endWithNewline
  obtain ⟨_, h₆⟩ := exists_member Value.bool?_eq_some_iff (fun _ => rfl) h₆ d.preserveNewlines
  obtain ⟨_, h₇⟩ := exists_member Value.natural?_eq_some_iff (fun _ => rfl) h₇ d.maxPreserveNewlines
  obtain ⟨_, h₈⟩ := exists_member Value.bool?_eq_some_iff (fun _ => rfl) h₈ d.indentInnerHtml
  obtain ⟨_, h₉⟩ := exists_member Value.bool?_eq_some_iff (fun _ => rfl) h₉ d.indentHandlebars
  obtain ⟨_, h₁₀⟩ := exists_member Value.strings?_eq_some_iff (fun _ => rfl) h₁₀ d.inlineNames
  obtain ⟨_, h₁₁⟩ := exists_member Value.strings?_eq_some_iff (fun _ => rfl) h₁₁ d.unformatted
  obtain ⟨_, h₁₂⟩ := exists_member Value.strings?_eq_some_iff (fun _ => rfl) h₁₂ d.contentUnformatted
  simp only [ofMembers?, Option.bind_eq_bind, Option.bind_eq_some_iff]
  exact ⟨_, _, h₁, _, h₂, _, h₃, _, h₄, _, h₅, _, h₆, _, h₇, _, h₈, _, h₉, _, h₁₀, _, h₁₁, _, h₁₂, rfl⟩

theorem wellTyped_of_ofMembers? {ms : Members} {o : Options} (h : ofMembers? ms = some o) :
    WellTyped (ms.find? ·) := by
  intro key hkey v hv
  have hdefault : ∀ key ∈ keys, ∃ d, ({} : Options).members.find? key = some d := by
    simp only [keys, List.forall_mem_cons]
    exact ⟨⟨_, rfl⟩, ⟨_, rfl⟩, ⟨_, rfl⟩, ⟨_, rfl⟩, ⟨_, rfl⟩, ⟨_, rfl⟩, ⟨_, rfl⟩, ⟨_, rfl⟩, ⟨_, rfl⟩,
      ⟨_, rfl⟩, ⟨_, rfl⟩, ⟨_, rfl⟩, nofun⟩
  obtain ⟨d, hd⟩ := hdefault key hkey
  refine ⟨o, ?_⟩
  rw [ofMembers?_eq_some_iff.1 h,
    Members.find?_map (fun key d => (ms.find? key).getD d) ({} : Options).members, hd]
  exact congrArg (fun found : Option Value => some (found.getD d)) hv

section
variable {s : Text} {ms : Members}

theorem parse?_of_object (h : Json.parse? s = some (.object ms)) :
    parse? s = ofMembers? (flatten ms) := by
  rw [parse?, h]
  rfl

theorem exists_parse?_iff (h : Json.parse? s = some (.object ms)) :
    (∃ o, parse? s = some o) ↔ WellTyped (effective ms) := by
  have heffective : (fun key => (flatten ms).find? key) = effective ms :=
    funext (find?_flatten (Value.distinct_of_parse? h))
  rw [parse?_of_object h, ← heffective]
  exact ⟨fun ⟨_, ho⟩ => wellTyped_of_ofMembers? ho, exists_ofMembers?⟩

theorem parse?_eq_some_iff (h : Json.parse? s = some (.object ms)) {o : Options} :
    parse? s = some o ↔
      o.members = ({} : Options).members.map fun m => (m.1, (effective ms m.1).getD m.2) := by
  rw [parse?_of_object h, ofMembers?_eq_some_iff]
  simp only [find?_flatten (Value.distinct_of_parse? h)]

/-- Text that is an object gives options exactly when every value that it gives for an option is of
the option's type once the `html` section lies over the rest; otherwise a file with the text is
refused. Then each option is the value of its key, or its default where the key has none. Nothing
else has a part in that: no other key, and no value that the section replaces. -/
theorem options_overlaid (h : Json.parse? s = some (.object ms)) :
    ((∃ o, parse? s = some o) ↔ WellTyped (effective ms)) ∧
    (∀ o, parse? s = some o ↔
      o.members = ({} : Options).members.map fun m => (m.1, (effective ms m.1).getD m.2)) ∧
    (∀ (t : Tree) (p : Path), t.read (OptionsFile.keyPath t p) = .ok s → ¬ WellTyped (effective ms) →
      OptionsFile.optionsIn t p = .error (.invalid p)) ∧
    ∀ (s' : Text) (ms' : Members), Json.parse? s' = some (.object ms') →
      (∀ key ∈ keys, effective ms' key = effective ms key) → parse? s' = parse? s := by
  refine ⟨exists_parse?_iff h, fun o => parse?_eq_some_iff h, fun t p hread hill => ?_,
    fun s' ms' h' hsame => Option.ext fun o => ?_⟩
  · have hnone : parse? s = none := Option.eq_none_iff_forall_ne_some.2 fun o ho =>
      hill ((exists_parse?_iff h).1 ⟨o, ho⟩)
    rw [OptionsFile.optionsIn, hread]
    dsimp only
    rw [hnone]
  · rw [parse?_eq_some_iff h, parse?_eq_some_iff h']
    have hvalues : ({} : Options).members.map (fun m => (m.1, (effective ms' m.1).getD m.2)) =
        ({} : Options).members.map fun m => (m.1, (effective ms m.1).getD m.2) := by
      refine List.map_congr_left fun m hm => ?_
      have hkey : m.1 ∈ keys := List.mem_map_of_mem hm (f := Prod.fst)
      rw [hsame m.1 hkey]
    rw [hvalues]

end

def overlaidText : Text :=
  "\x7b\"indent_char\": null, \"eol\": \"\\r\\n\", \"js\": \x7b\"eol\": null\x7d, \"html\":
    \x7b\"indent_char\": \".\", \"indent_char\": \"\\t\", \"html\": \x7b\"eol\": null\x7d\x7d\x7d"

def overlaidMembers : Members :=
  [("indent_char", .null), ("eol", .string "\r\n"), ("js", .object [("eol", .null)]),
    ("html", .object [("indent_char", .string "\t"), ("html", .object [("eol", .null)])])]

set_option maxRecDepth 4096 in
theorem options_overlaid_nested :
    Json.parse? overlaidText = some (.object overlaidMembers) ∧
      WellTyped (effective overlaidMembers) ∧
      parse? overlaidText = some { indentChar := "\t", eol := "\r\n" } := by
  have hobject : Json.parse? overlaidText = some (.object overlaidMembers) := rfl
  obtain ⟨hexists, hoptions, -⟩ := options_overlaid hobject
  have hparse := (hoptions { indentChar := "\t", eol := "\r\n" }).2 rfl
  exact ⟨hobject, hexists.1 ⟨_, hparse⟩, hparse⟩

end Markup.Options
end PatternBridge
