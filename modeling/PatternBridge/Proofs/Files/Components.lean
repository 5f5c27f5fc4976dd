import PatternBridge.Files.Path
import PatternBridge.Proofs.Text.Solid

/-! Components of joined paths, of parents and of renamed files. The components of a path depend on
its segments alone, and joining puts segments behind each other. -/

namespace PatternBridge.Path
open Text

def componentsOf : List Text → List Component
  | [] :: s :: segments => .root :: (s :: segments).filterMap Component.ofSegment?
  | ['.'] :: segments => .stay :: segments.filterMap Component.ofSegment?
  | segments => segments.filterMap Component.ofSegment?

@[simp] theorem ofSegment?_nil : Component.ofSegment? [] = none := rfl

theorem segments_ne_nil (p : Path) : p.segments ≠ [] := List.splitOn_ne_nil _ _

theorem segments_of_head {p : Path} {s : Text} (h : p.text = '/' :: s) :
    p.segments = [] :: s.splitOn '/' := by
  rw [segments, h, List.splitOn_cons_eq_if_modifyHead]
  rfl

theorem segments_ne_of_head {p : Path} (h : ∀ s, p.text ≠ '/' :: s) (s : Text) (ss : List Text) :
    p.segments ≠ [] :: s :: ss := by
  intro hs
  have ht : ['/'].intercalate (p.text.splitOn '/') = p.text := List.intercalate_splitOn '/'
  rw [show p.text.splitOn '/' = [] :: s :: ss from hs, List.intercalate_cons_cons] at ht
  exact h _ ht.symm

theorem anchor_cases (p : Path) :
    (p.anchor = .root ∧ p.segments = [] :: p.body ∧ p.body ≠ []) ∨
    (p.anchor = .stay ∧ p.segments = ['.'] :: p.body) ∨
    p.anchor = .none ∧ p.segments = p.body ∧ (∀ s ss, p.body ≠ [] :: s :: ss) ∧
      ∀ ss, p.body ≠ ['.'] :: ss := by
  by_cases habs : p.isAbsolute
  · obtain ⟨s, hs⟩ := List.head?_eq_some_iff.1 (beq_iff_eq.1 habs)
    have hanchor : p.anchor = .root := by rw [anchor, if_pos habs]
    have hbody : p.body = s.splitOn '/' := by
      rw [body, hanchor, segments_of_head hs]
      rfl
    rw [hbody]
    exact .inl ⟨hanchor, segments_of_head hs, List.splitOn_ne_nil _ _⟩
  · cases hdot : p.segments.head? == some ['.'] with
    | true =>
      have hanchor : p.anchor = .stay := by rw [anchor, if_neg habs, hdot]; rfl
      obtain ⟨ss, hss⟩ := List.head?_eq_some_iff.1 (beq_iff_eq.1 hdot)
      refine .inr (.inl ⟨hanchor, ?_⟩)
      rw [body, hanchor, hss]
      rfl
    | false =>
      have hanchor : p.anchor = .none := by rw [anchor, if_neg habs, hdot]; rfl
      have hbody : p.body = p.segments := by rw [body, hanchor]
      rw [hbody]
      refine .inr (.inr ⟨hanchor, rfl, ?_, fun ss hss => ?_⟩)
      · apply segments_ne_of_head
        intro s hs
        simp [isAbsolute, hs] at habs
      · simp [hss] at hdot

theorem components_eq (p : Path) : p.components = componentsOf p.segments := by
  unfold components
  obtain ⟨hanchor, hsegments, hbody⟩ | ⟨hanchor, hsegments⟩ | ⟨hanchor, hsegments, hroot, hdot⟩ :=
    p.anchor_cases
  · obtain ⟨s, ss, hcons⟩ := List.exists_cons_of_ne_nil hbody
    rw [hanchor, hsegments, hcons]
    rfl
  · rw [hanchor, hsegments]
    rfl
  · rw [hanchor, hsegments, componentsOf]
    · rfl
    · exact hroot
    · exact hdot

def trail (p : Path) : List Component := p.segments.filterMap Component.ofSegment?

theorem exists_segments (p : Path) :
    ∃ idle, (∀ s ∈ idle, isIdle s) ∧ p.segments = idle ++ p.body := by
  obtain ⟨-, hsegments, -⟩ | ⟨-, hsegments⟩ | ⟨-, hsegments, -⟩ := p.anchor_cases
  · exact ⟨[[]], by simp [isIdle], hsegments⟩
  · exact ⟨[['.']], by simp [isIdle], hsegments⟩
  · exact ⟨[], by simp, hsegments⟩

theorem filterMap_idle {idle : List Text} (h : ∀ s ∈ idle, isIdle s) :
    idle.filterMap Component.ofSegment? = [] :=
  List.filterMap_eq_nil_iff.2 fun s hs => by rw [Component.ofSegment?, if_pos (h s hs)]

theorem components_eq_trail (p : Path) : p.components = p.anchor.components ++ p.trail := by
  obtain ⟨idle, hidle, hsegments⟩ := p.exists_segments
  rw [components, trail, hsegments, List.filterMap_append, filterMap_idle hidle, List.nil_append]

/-- Segments behind others only add components, unless the others are those of the empty text. -/
theorem componentsOf_append {init : List Text} (hi : init ≠ []) (hroot : init ≠ [[]])
    (tail : List Text) :
    componentsOf (init ++ tail) = componentsOf init ++ tail.filterMap Component.ofSegment? := by
  have happend (ss : List Text) (cs : List Component) :
      cs ++ (ss ++ tail).filterMap Component.ofSegment? =
        (cs ++ ss.filterMap Component.ofSegment?) ++ tail.filterMap Component.ofSegment? := by
    rw [List.filterMap_append, List.append_assoc]
  match init with
  | [[]] => exact absurd rfl hroot
  | [] :: s :: ss => exact happend (s :: ss) [.root]
  | (c :: d :: s) :: ss =>
    have hlong (ts : List Text) : componentsOf ((c :: d :: s) :: ts) =
        ((c :: d :: s) :: ts).filterMap Component.ofSegment? := by simp [componentsOf]
    rw [List.cons_append, hlong, hlong]
    exact happend ((c :: d :: s) :: ss) []
  | [c] :: ss =>
    by_cases hc : c = '.'
    · subst hc
      exact happend ss [.stay]
    · have hlong (ts : List Text) : componentsOf ([c] :: ts) =
          ([c] :: ts).filterMap Component.ofSegment? := by simp [componentsOf, hc]
      rw [List.cons_append, hlong, hlong]
      exact happend ([c] :: ss) []

/-- A name that a directory can hold. -/
structure IsName (n : Text) : Prop where
  ne_nil : n ≠ []
  ne_stay : n ≠ ['.']
  ne_up : n ≠ ['.', '.']
  noSlash : '/' ∉ n

theorem IsName.ofSegment? {n : Text} (h : IsName n) : Component.ofSegment? n = some (.name n) := by
  have hidle : isIdle n = false := by simp [isIdle, h.ne_nil, h.ne_stay]
  simp [Component.ofSegment?, hidle, h.ne_up]

theorem IsName.segments {n : Text} (h : IsName n) : (Path.mk n).segments = [n] :=
  List.splitOn_eq_singleton h.noSlash

theorem IsName.isAbsolute {n : Text} (h : IsName n) : (Path.mk n).isAbsolute = false := by
  cases n with
  | nil => rfl
  | cons c n =>
    have hc : c ≠ '/' := fun hc => h.noSlash (by simp [hc])
    simpa [Path.isAbsolute] using hc

theorem isName_append {stem ext : Text} (hstem : '/' ∉ stem) (hext : '/' ∉ ext)
    (hlong : 2 < ext.length) : IsName (stem ++ ext) := by
  have hne (s : Text) (hs : s.length ≤ 2) : stem ++ ext ≠ s := by
    intro h
    have hlen := congrArg List.length h
    rw [List.length_append] at hlen
    omega
  exact ⟨hne [] (by simp), hne _ (by simp), hne _ (by simp), by simp [hstem, hext]⟩

theorem componentsOf_singleton {n : Text} (h : IsName n) : componentsOf [n] = [.name n] := by
  rw [componentsOf, List.filterMap_cons, h.ofSegment?]
  · rfl
  · simp
  · intro ss hss
    exact h.ne_stay (List.cons.inj hss).1

theorem text_div (p : Path) {q : Path} (hq : q.isAbsolute = false) :
    (p / q).text =
      if p.text.isEmpty || p.text.getLast? == some '/' then p.text ++ q.text
      else p.text ++ '/' :: q.text := by
  show (join p q).text = _
  rw [join, hq]
  simp only [Bool.false_eq_true, if_false]
  split <;> rfl

theorem isAbsolute_div (p : Path) {q : Path} (hq : q.isAbsolute = false) :
    (p / q).isAbsolute = p.isAbsolute := by
  have htext := text_div p hq
  unfold isAbsolute at hq ⊢
  rw [htext]
  cases hp : p.text with
  | nil => simpa using hq
  | cons c s => split <;> rfl

theorem filterMap_of_seam {β : Type} {f : Text → Option β} (hf : f [] = none) {ss init : List Text}
    (h : ss = init ∨ ss = init ++ [[]]) : ss.filterMap f = init.filterMap f := by
  rcases h with rfl | rfl
  · rfl
  · rw [List.filterMap_append, List.filterMap_cons, hf]
    exact List.append_nil _

theorem segments_join (p : Path) {q : Path} (hq : q.isAbsolute = false) :
    ∃ init, (p.segments = init ∨ p.segments = init ++ [[]]) ∧ (p / q).segments = init ++ q.segments := by
  unfold segments
  rw [text_div p hq]
  split
  · next h =>
    rcases Bool.or_eq_true_iff.1 h with h | h
    · rw [List.isEmpty_iff.1 h]
      exact ⟨[], .inr rfl, rfl⟩
    · obtain ⟨init, hinit⟩ := List.getLast?_eq_some_iff.1 (beq_iff_eq.1 h)
      rw [hinit, List.append_assoc, List.singleton_append, List.splitOn_append_cons_self,
        List.splitOn_append_cons_self]
      exact ⟨init.splitOn '/', .inr rfl, rfl⟩
  · exact ⟨p.text.splitOn '/', .inl rfl, List.splitOn_append_cons_self ..⟩

theorem components_div_name (p : Path) {n : Text} (hn : IsName n) :
    (p / ⟨n⟩).components = p.components ++ [.name n] := by
  have hname : [n].filterMap Component.ofSegment? = [.name n] := by simp [hn.ofSegment?]
  have htext := text_div p hn.isAbsolute
  rw [components_eq, components_eq, segments, htext]
  split
  · next h =>
    rcases Bool.or_eq_true_iff.1 h with h | h
    · -- the name is the whole text
      have hempty : p.segments = [[]] := by
        rw [segments, List.isEmpty_iff.1 h]
        rfl
      rw [List.isEmpty_iff.1 h, List.nil_append, List.splitOn_eq_singleton hn.noSlash, hempty]
      exact (componentsOf_singleton hn).trans rfl
    · -- the name takes the place of the empty segment behind the last slash
      obtain ⟨init, hinit⟩ := List.getLast?_eq_some_iff.1 (beq_iff_eq.1 h)
      have hsplit : p.segments = init.splitOn '/' ++ [[]] := by
        rw [segments, hinit, List.splitOn_append_cons_self]
        rfl
      rw [hinit, List.append_assoc, List.singleton_append, List.splitOn_append_cons_self,
        List.splitOn_eq_singleton hn.noSlash, hsplit]
      by_cases hroot : init.splitOn '/' = [[]]
      · rw [hroot]
        show Component.root :: [n].filterMap Component.ofSegment? = _
        rw [hname]
        rfl
      · rw [componentsOf_append (List.splitOn_ne_nil _ _) hroot,
          componentsOf_append (List.splitOn_ne_nil _ _) hroot, hname]
        simp
  · next h =>
    rw [List.splitOn_append_cons_self, List.splitOn_eq_singleton hn.noSlash,
      componentsOf_append (List.splitOn_ne_nil _ _), hname]
    · rfl
    · intro hs
      have hnil : ['/'].intercalate (p.text.splitOn '/') = p.text := List.intercalate_splitOn '/'
      rw [hs] at hnil
      simp [← hnil] at h

theorem componentsOf_idle {s : Text} {ss : List Text} (h : isIdle s = false) :
    componentsOf (s :: ss) = (s :: ss).filterMap Component.ofSegment? := by
  rw [componentsOf]
  · rintro t ts hcons
    rw [(List.cons.inj hcons).1] at h
    exact absurd h (by decide)
  · rintro ts hcons
    rw [(List.cons.inj hcons).1] at h
    exact absurd h (by decide)

theorem components_ofBody {a : Anchor} {body : List Text} (hb : ∀ s ∈ body, '/' ∉ s)
    (hhead : a = .none → ∀ s ∈ body.head?, isIdle s = false) :
    (ofBody a body).components = a.components ++ body.filterMap Component.ofSegment? := by
  rw [components_eq]
  cases body with
  | nil => cases a <;> rfl
  | cons s ss =>
    have hsplit := List.splitOn_intercalate '/' hb (List.cons_ne_nil s ss)
    cases a with
    | root =>
      rw [segments_of_head (p := ofBody .root (s :: ss)) rfl, hsplit]
      rfl
    | stay =>
      have hdot : ('.' :: '/' :: ['/'].intercalate (s :: ss)).splitOn '/' =
          ['.'] :: (['/'].intercalate (s :: ss)).splitOn '/' :=
        List.splitOn_append_cons_self_of_not_mem (show '/' ∉ ['.'] by simp) _
      rw [hsplit] at hdot
      rw [show (ofBody .stay (s :: ss)).segments = ['.'] :: (s :: ss) from hdot]
      rfl
    | none =>
      rw [show (ofBody .none (s :: ss)).segments = s :: ss from hsplit]
      exact componentsOf_idle (hhead rfl s rfl)

theorem filterMap_dropEndWhile_isIdle (ss : List Text) :
    (dropEndWhile isIdle ss).filterMap Component.ofSegment? =
      ss.filterMap Component.ofSegment? := by
  have h := congrArg (List.filterMap Component.ofSegment?) (dropEndWhile_append_dropped isIdle ss)
  rwa [List.filterMap_append,
    List.filterMap_eq_nil_iff (l := (ss.reverse.takeWhile _).reverse) |>.2, List.append_nil] at h
  intro s hs
  have hidle := List.all_eq_true.1 List.all_takeWhile s (List.mem_reverse.1 hs)
  rw [Component.ofSegment?, if_pos hidle]

theorem isIdle_of_dropEndWhile {ss init : List Text} {s : Text}
    (h : dropEndWhile isIdle ss = init ++ [s]) : isIdle s = false := by
  have hrev : ss.reverse.dropWhile isIdle = s :: init.reverse := by
    have := congrArg List.reverse h
    simpa [dropEndWhile] using this
  have hhead := List.head?_dropWhile_not isIdle ss.reverse
  rw [hrev] at hhead
  simpa using hhead

theorem mem_segments_of_mem_body {p : Path} {s : Text} (h : s ∈ p.body) : s ∈ p.segments := by
  unfold body at h
  split at h
  · exact h
  · exact List.mem_of_mem_tail h

theorem noSlash_of_mem_body {p : Path} {s : Text} (h : s ∈ p.body) : '/' ∉ s :=
  notMem_of_mem_splitOn (mem_segments_of_mem_body h)

theorem isIdle_head_body {p : Path} (ha : p.anchor = .none) (hc : p.components ≠ []) {s : Text}
    (hs : s ∈ p.body.head?) : isIdle s = false := by
  obtain ⟨ss, hss⟩ := List.head?_eq_some_iff.1 (Option.mem_def.1 hs)
  obtain ⟨hroot, -⟩ | ⟨hstay, -⟩ | ⟨-, hsegments, hroot, hdot⟩ := p.anchor_cases
  · rw [ha] at hroot
    cases hroot
  · rw [ha] at hstay
    cases hstay
  have hne : s ≠ ['.'] := by
    rintro rfl
    exact hdot ss hss
  have hnil : s ≠ [] := by
    rintro rfl
    cases ss with
    | nil =>
      rw [components_eq, hsegments, hss] at hc
      exact hc rfl
    | cons u us => exact hroot u us hss
  simp [isIdle, hne, hnil]

theorem prefix_dropEndWhile {α : Type} (p : α → Bool) (s : List α) : dropEndWhile p s <+: s :=
  ⟨_, dropEndWhile_append_dropped p s⟩

theorem components_ofBody_anchor {p : Path} {body : List Text} (h : body <+: p.body)
    (hc : p.components ≠ []) :
    (ofBody p.anchor body).components =
      p.anchor.components ++ body.filterMap Component.ofSegment? := by
  apply components_ofBody
  · intro s hs
    exact noSlash_of_mem_body (h.subset hs)
  · intro ha s hs
    obtain ⟨rest, hrest⟩ := h
    apply isIdle_head_body ha hc
    rw [← hrest, List.head?_append, Option.mem_def.1 hs]
    rfl

theorem Component.ofSegment?_cases {s : Text} {c : Component} (h : ofSegment? s = some c) :
    c = .up ∨ ∃ n, c = .name n := by
  unfold ofSegment? at h
  split at h
  · cases h
  · split at h
    · exact .inl (Option.some.inj h).symm
    · exact .inr ⟨s, (Option.some.inj h).symm⟩

theorem mem_body_of_name {p : Path} {n : Text} (h : .name n ∈ p.components) :
    n ∈ p.body ∧ Component.ofSegment? n = some (.name n) := by
  rcases List.mem_append.1 h with h | h
  · cases ha : p.anchor <;> simp [ha, Anchor.components] at h
  · obtain ⟨s, hs, hcomp⟩ := List.mem_filterMap.1 h
    obtain rfl : s = n := by
      unfold Component.ofSegment? at hcomp
      split at hcomp
      · cases hcomp
      split at hcomp
      · cases hcomp
      · simpa using hcomp
    exact ⟨hs, hcomp⟩

theorem isName_of_mem_components {p : Path} {n : Text} (h : .name n ∈ p.components) : IsName n := by
  obtain ⟨hn, hcomp⟩ := mem_body_of_name h
  have hslash : '/' ∉ n := noSlash_of_mem_body hn
  unfold Component.ofSegment? at hcomp
  split at hcomp
  · cases hcomp
  next hidle =>
  split at hcomp
  · cases hcomp
  next hup =>
  simp only [isIdle, Bool.or_eq_true, beq_iff_eq, not_or] at hidle hup
  exact ⟨hidle.1, hidle.2, hup, hslash⟩

theorem components_of_parent? {p q : Path} (h : p.parent? = some q) :
    ∃ c, p.components = q.components ++ [c] := by
  have hparts : p.components = p.anchor.components ++ p.body.filterMap Component.ofSegment? := rfl
  rcases List.eq_nil_or_concat (p.body.filterMap Component.ofSegment?) with hbody | ⟨cs, c, hbody⟩
  · -- only the anchor is there
    rw [hbody, List.append_nil] at hparts
    cases ha : p.anchor with
    | root => simp [parent?, hparts, ha, Anchor.components] at h
    | none => simp [parent?, hparts, ha, Anchor.components] at h
    | stay =>
      refine ⟨.stay, ?_⟩
      have hq : q = ⟨[]⟩ := by simpa [parent?, hparts, ha, Anchor.components] using h.symm
      rw [hq, hparts, ha]
      rfl
  · rw [List.concat_eq_append] at hbody
    rw [hbody, ← List.append_assoc] at hparts
    have hq : ofBody p.anchor (dropEndWhile isIdle (dropEndWhile isIdle p.body).dropLast) = q := by
      have hc : c ∈ p.body.filterMap Component.ofSegment? := by simp [hbody]
      obtain ⟨s, -, hs⟩ := List.mem_filterMap.1 hc
      rcases Component.ofSegment?_cases hs with rfl | ⟨n, rfl⟩ <;>
        simpa [parent?, hparts] using h
    refine ⟨c, ?_⟩
    -- behind the idle segments comes the last one with a component, which is the one that goes
    have hkept := filterMap_dropEndWhile_isIdle p.body
    have hcut := prefix_dropEndWhile isIdle p.body
    rcases List.eq_nil_or_concat (dropEndWhile isIdle p.body) with hdrop | ⟨kept, s, hdrop⟩
    · simp [hdrop, hbody] at hkept
    rw [List.concat_eq_append] at hdrop
    obtain ⟨d, hd⟩ : ∃ d, Component.ofSegment? s = some d := by
      rw [Component.ofSegment?, isIdle_of_dropEndWhile hdrop, if_neg Bool.false_ne_true]
      split <;> exact ⟨_, rfl⟩
    rw [hdrop, hbody, List.filterMap_append, List.filterMap_cons, hd] at hkept
    rw [hdrop] at hcut
    have hcs := (List.append_inj' hkept rfl).1
    have hbelow : dropEndWhile isIdle kept <+: p.body :=
      (prefix_dropEndWhile isIdle kept).trans ((List.prefix_append kept [s]).trans hcut)
    rw [← hq, hdrop, List.dropLast_concat, components_ofBody_anchor hbelow (by simp [hparts]),
      filterMap_dropEndWhile_isIdle, hcs, hparts]

theorem parent?_of_fileName? {p : Path} {n : Text} (h : p.fileName? = some n) :
    ∃ q, p.parent? = some q ∧ p.components = q.components ++ [.name n] := by
  have hlast : p.components.getLast? = some (.name n) := by
    unfold fileName? at h
    split at h
    · next hm => rw [hm, Option.some.inj h]
    · cases h
  obtain ⟨q, hq⟩ : ∃ q, p.parent? = some q := by simp [parent?, hlast]
  obtain ⟨c, hc⟩ := components_of_parent? hq
  rw [hc, List.getLast?_concat] at hlast
  exact ⟨q, hq, by rw [hc, Option.some.inj hlast]⟩

theorem fileName?_of_components {p : Path} {n : Text} {cs : List Component}
    (h : p.components = cs ++ [.name n]) : p.fileName? = some n := by
  rw [fileName?, h, List.getLast?_concat]

theorem components_withFileName {p : Path} {n m : Text} {cs : List Component}
    (h : p.components = cs ++ [.name n]) (hm : IsName m) :
    (p.withFileName m).components = cs ++ [.name m] := by
  have hname := fileName?_of_components h
  obtain ⟨q, hq, hcomp⟩ := parent?_of_fileName? hname
  rw [withFileName, hname, hq]
  show (q / ⟨m⟩).components = _
  rw [components_div_name q hm, (List.append_inj' (hcomp.symm.trans h) rfl).1]

theorem components_prefix_of_mem_ancestorsUpTo {n : Nat} {p q : Path}
    (h : q ∈ ancestorsUpTo n p) : q.components <+: p.components := by
  induction n generalizing p with
  | zero => simp [ancestorsUpTo] at h
  | succ n ih =>
    rcases List.mem_cons.1 h with rfl | h
    · exact List.prefix_rfl
    · cases hp : p.parent? with
      | none => simp [hp] at h
      | some parent =>
        obtain ⟨c, hc⟩ := components_of_parent? hp
        simp only [hp, Option.map_some, Option.getD_some] at h
        rw [hc]
        exact (ih h).trans (List.prefix_append _ _)

end PatternBridge.Path
