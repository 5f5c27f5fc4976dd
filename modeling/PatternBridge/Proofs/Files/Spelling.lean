import PatternBridge.Proofs.Files.Below
import PatternBridge.Proofs.Files.Collected

/-! Spellings of one path. Doubled slashes and single dots are no components, so that paths with the
same components lead to the same directory; and what goes on by names from a spelling of a directory
has just those names below the directory. A path that descends by names from a spelling stands for
the directory and the names, whether or not a slash is at its end. -/

namespace PatternBridge

namespace Path
variable {p q base : Path} {names : List Text}

theorem isAbsolute_iff : p.isAbsolute ↔ .root ∈ p.components := by
  have hbody : .root ∉ p.body.filterMap Component.ofSegment? := by
    intro hmem
    obtain ⟨s, -, hs⟩ := List.mem_filterMap.1 hmem
    rcases Component.ofSegment?_cases hs with h | ⟨n, h⟩ <;> cases h
  rw [components, List.mem_append, or_iff_left hbody, anchor]
  cases p.isAbsolute with
  | true => simp [Anchor.components]
  | false =>
    rw [if_neg Bool.false_ne_true]
    split <;> simp [Anchor.components]

/-- The step of a component; what a path only starts with leads nowhere. -/
def Component.step? : Component → Option Step
  | .root | .stay => none
  | .up => some .up
  | .name n => some (.name n)

theorem filter_ofSegment? (s : Text) :
    (Step.ofSegment? s).filter (· != .stay) = (Component.ofSegment? s).bind Component.step? := by
  by_cases hnil : s = []
  · subst hnil
    rfl
  by_cases hstay : s = ['.']
  · subst hstay
    rfl
  by_cases hup : s = ['.', '.']
  · subst hup
    rfl
  have hidle : isIdle s = false := by simp [isIdle, hnil, hstay]
  rw [Component.ofSegment?, hidle, if_neg Bool.false_ne_true, if_neg (by simpa using hup)]
  simp [Step.ofSegment?, hnil, hstay, hup, Component.step?]

theorem filter_filterMap_ofSegment? (ss : List Text) :
    (ss.filterMap Step.ofSegment?).filter (· != .stay) =
      (ss.filterMap Component.ofSegment?).filterMap Component.step? := by
  rw [List.filter_filterMap, List.filterMap_filterMap]
  exact List.filterMap_congr fun s _ => filter_ofSegment? s

theorem filter_track (p : Path) :
    p.track.filter (· != .stay) = p.components.filterMap Component.step? := by
  rw [components_eq, track]
  generalize p.segments = ss
  fun_cases componentsOf ss with
  | case1 s ss => exact filter_filterMap_ofSegment? (s :: ss)
  | case2 ss => exact filter_filterMap_ofSegment? ss
  | case3 ss => exact filter_filterMap_ofSegment? ss

theorem start_congr (h : p.components = q.components) (here : Place) :
    Tree.start here p = Tree.start here q := by
  have habs : p.isAbsolute = q.isAbsolute := by
    apply Bool.eq_iff_iff.2
    rw [isAbsolute_iff, isAbsolute_iff, h]
  rw [Tree.start, Tree.start, habs]

theorem placeFrom_congr (h : p.components = q.components) {here : Place} :
    p.placeFrom here = q.placeFrom here := by
  rw [placeFrom, placeFrom, h]

theorem exists_ofSegment? {s : Text} (h : ¬ isIdle s) : ∃ c, Component.ofSegment? s = some c := by
  rw [Component.ofSegment?, if_neg h]
  split <;> exact ⟨_, rfl⟩

theorem components_ne_nil (h : p.text ≠ []) : p.components ≠ [] := by
  obtain ⟨s, ss, hs⟩ := List.exists_cons_of_ne_nil p.segments_ne_nil
  rw [components_eq, hs]
  by_cases hidle : isIdle s
  · rcases Bool.or_eq_true_iff.1 hidle with hnil | hdot
    · rw [eq_of_beq hnil] at hs ⊢
      cases ss with
      | nil =>
        have htext : ['/'].intercalate p.segments = p.text := List.intercalate_splitOn '/'
        rw [hs] at htext
        exact absurd htext.symm h
      | cons t ts => exact List.cons_ne_nil _ _
    · rw [eq_of_beq hdot]
      exact List.cons_ne_nil _ _
  · obtain ⟨c, hc⟩ := exists_ofSegment? hidle
    rw [componentsOf_idle (Bool.eq_false_iff.2 hidle), List.filterMap_cons, hc]
    exact List.cons_ne_nil _ _

theorem segments_pathTo (p : Path) (h : ∀ n ∈ names, IsName n) :
    ∃ init, (p.segments = init ∨ p.segments = init ++ [[]]) ∧
      (Tree.pathTo p names).segments = init ++ names := by
  induction names generalizing p with
  | nil => exact ⟨p.segments, .inl rfl, (List.append_nil _).symm⟩
  | cons n names ih =>
    have hn := h n List.mem_cons_self
    obtain ⟨init, hinit, hdiv⟩ := segments_div p hn.noSlash
    obtain ⟨init', hinit', hnames⟩ := ih (p / ⟨n⟩) fun m hm => h m (List.mem_cons_of_mem _ hm)
    refine ⟨init, hinit, ?_⟩
    have hall : init' = init ++ [n] := by
      rcases hinit' with h' | h' <;> rw [hdiv] at h'
      · exact h'.symm
      · exact absurd (List.singleton_inj.1 (List.append_inj' h' rfl).2) hn.ne_nil
    rw [Tree.pathTo_cons, hnames, hall, List.append_assoc]
    rfl

theorem isAbsolute_pathTo (p : Path) (h : ∀ n ∈ names, IsName n) :
    (Tree.pathTo p names).isAbsolute = p.isAbsolute := by
  induction names generalizing p with
  | nil => rfl
  | cons n names ih =>
    have hn := h n List.mem_cons_self
    rw [Tree.pathTo_cons, ih (p / ⟨n⟩) fun m hm => h m (List.mem_cons_of_mem _ hm),
      isAbsolute_div p hn.isAbsolute]

theorem body_pathTo (hne : p.components ≠ []) (h : ∀ n ∈ names, IsName n) :
    (Tree.pathTo p names).anchor = p.anchor ∧
      ∃ init, (p.body = init ∨ p.body = init ++ [[]]) ∧
        (Tree.pathTo p names).body = init ++ names := by
  obtain ⟨init, hinit, hnames⟩ := segments_pathTo p h
  obtain ⟨s, ss, rfl⟩ : ∃ s ss, init = s :: ss := by
    apply List.exists_cons_of_ne_nil
    rintro rfl
    apply hne
    rw [components_eq]
    rcases hinit with hp | hp <;> rw [hp] <;> rfl
  have hhead : (Tree.pathTo p names).segments.head? = p.segments.head? := by
    rw [hnames]
    rcases hinit with hp | hp <;> rw [hp] <;> rfl
  have hanchor : (Tree.pathTo p names).anchor = p.anchor := by
    rw [anchor, anchor, isAbsolute_pathTo p h, hhead]
  refine ⟨hanchor, ?_⟩
  rw [body, body, hanchor, hnames]
  cases p.anchor with
  | none => exact ⟨s :: ss, hinit, rfl⟩
  | root | stay => exact ⟨ss, by rcases hinit with hp | hp <;> simp [hp], rfl⟩

theorem dropNamed_zero (ss : List Text) : dropNamed 0 ss = ss := by cases ss <;> rfl

theorem dropNamed_append (ss names : List Text) :
    ∃ idle, (∀ s ∈ idle, isIdle s) ∧
      dropNamed (ss.filterMap Component.ofSegment?).length (ss ++ names) = idle ++ names := by
  induction ss with
  | nil => exact ⟨[], nofun, dropNamed_zero names⟩
  | cons s ss ih =>
    obtain ⟨idle, hidle, hrest⟩ := ih
    by_cases hs : isIdle s
    · have hnone : Component.ofSegment? s = none := by rw [Component.ofSegment?, if_pos hs]
      rw [List.filterMap_cons, hnone]
      cases hcount : (ss.filterMap Component.ofSegment?).length with
      | zero =>
        rw [hcount, dropNamed_zero] at hrest
        refine ⟨s :: idle, List.forall_mem_cons.2 ⟨hs, hidle⟩, ?_⟩
        rw [dropNamed_zero, List.cons_append, hrest]
        rfl
      | succ n =>
        rw [hcount] at hrest
        refine ⟨idle, hidle, ?_⟩
        rw [List.cons_append, dropNamed, if_pos hs]
        exact hrest
    · obtain ⟨c, hc⟩ := exists_ofSegment? hs
      refine ⟨idle, hidle, ?_⟩
      rw [List.filterMap_cons, hc, List.length_cons, List.cons_append, dropNamed, if_neg hs]
      exact hrest

theorem IsName.isIdle {n : Text} (hn : IsName n) : isIdle n = false := by
  simp [Path.isIdle, hn.ne_nil, hn.ne_stay]

theorem dropWhile_names (h : ∀ n ∈ names, IsName n) : names.dropWhile isIdle = names := by
  cases names with
  | nil => rfl
  | cons n names =>
    have hn := (h n List.mem_cons_self).isIdle
    exact List.dropWhile_cons_of_neg (Bool.eq_false_iff.1 hn)

theorem trimWith_names {idle : List Text} (hidle : ∀ s ∈ idle, isIdle s)
    (h : ∀ n ∈ names, IsName n) : Text.trimWith isIdle (idle ++ names) = names := by
  rw [Text.trimWith, List.dropWhile_append_of_pos hidle, dropWhile_names h, Text.dropEndWhile,
    dropWhile_names fun n hn => h n (List.mem_reverse.1 hn), List.reverse_reverse]

/-- Below a directory stand the names by which a path goes on from a spelling of it. -/
theorem below?_pathTo (hp : p.components = base.components) (hne : base.components ≠ [])
    (h : ∀ n ∈ names, IsName n) :
    (Tree.pathTo p names).below? base = some ⟨['/'].intercalate names⟩ := by
  have hstarts : (Tree.pathTo p names).startsWith base := by
    rw [startsWith, components_pathTo p h, hp, List.isPrefixOf_iff_prefix]
    exact List.prefix_append _ _
  obtain ⟨hanchor, init, hinit, hbody⟩ := body_pathTo (hp ▸ hne) h
  have hcount : base.components.length - (Tree.pathTo p names).anchor.components.length =
      (init.filterMap Component.ofSegment?).length := by
    have hfilter := filterMap_of_seam ofSegment?_nil hinit
    rw [← hp, hanchor, components, List.length_append, hfilter]
    omega
  have hlength : (base.components.length == 0) = false := by simpa using hne
  obtain ⟨idle, hidle, hdrop⟩ := dropNamed_append init names
  rw [below?, if_pos hstarts]
  dsimp only
  rw [hlength, if_neg Bool.false_ne_true, hcount, hbody, hdrop, trimWith_names hidle h]
  rfl

end Path

namespace Tree
variable {t : Tree} {p q : Path} {names : List Text}

namespace Leads
variable {dir : Place} {step : Step} {steps : List Step} {spot : Spot}

theorem idle_iff (h : ∀ n, step ≠ .name n) :
    t.Leads dir (step :: steps) spot ↔ t.Leads (step.move dir) steps spot := by
  constructor
  · intro hlead
    cases hlead with
    | idle _ hrest => exact hrest
    | enter => exact absurd rfl (h _)
    | last => exact absurd rfl (h _)
  · exact .idle h

theorem filter_stay_iff (he : spot.entry = some .directory) :
    t.Leads dir (steps.filter (· != .stay)) spot ↔ t.Leads dir steps spot := by
  induction steps generalizing dir with
  | nil => rfl
  | cons step steps ih =>
    cases step with
    | stay =>
      rw [idle_iff (by simp)]
      exact ih
    | up =>
      rw [List.filter_cons_of_pos rfl, idle_iff (by simp), idle_iff (by simp)]
      exact ih
    | slash =>
      rw [List.filter_cons_of_pos rfl, idle_iff (by simp), idle_iff (by simp)]
      exact ih
    | name n =>
      rw [List.filter_cons_of_pos rfl]
      constructor
      · intro hlead
        cases hlead with
        | idle h => exact absurd rfl (h n)
        | enter hname hdir hrest => exact .enter hname hdir (ih.1 hrest)
        | last _ hentry => exact absurd he hentry
      · intro hlead
        cases hlead with
        | idle h => exact absurd rfl (h n)
        | enter hname hdir hrest => exact .enter hname hdir (ih.2 hrest)
        | last _ hentry => exact absurd he hentry

end Leads

theorem opens_congr (h : p.components = q.components) : t.Opens p ↔ t.Opens q := by
  have hleads (x : Path) : t.Opens x ↔
      t.Leads (start t.here x) (x.components.filterMap Path.Component.step?)
        { place := x.placeFrom t.here, entry := some .directory } := by
    rw [← Path.filter_track]
    exact (Leads.filter_stay_iff rfl).symm
  rw [hleads, hleads, Path.start_congr h, Path.placeFrom_congr h, h]

theorem status_directory_iff (hl : t.LinkFree) :
    t.status p = .ok (p.placeFrom t.here, .directory) ↔ pathFault? p = none ∧ t.Opens p := by
  constructor
  · exact fun h => ⟨(leads_of_status hl h).1, opens_of_status hl h⟩
  · rintro ⟨hfault, hopens⟩
    have hsteps : t.Leads (start t.here p) p.steps
        { place := p.placeFrom t.here, entry := some .directory } := by
      rw [Path.steps_eq_track]
      refine Leads.append hopens rfl ?_
      split
      · exact .idle (by simp) (.stop _)
      · exact .stop _
    exact status_of_leads hl hfault hsteps rfl (.inl rfl)

theorem status_pathTo_iff (hl : t.LinkFree) (hw : t.WellFormed) (hne : names ≠ [])
    (h : ∀ n ∈ names, Path.IsName n) {r : Place × Entry} :
    t.status (pathTo p names) = .ok r ↔ pathFault? (pathTo p names) = none ∧ t.Opens p ∧
      (∀ n ∈ names, Text.byteLength n ≤ maxNameBytes) ∧ r.1 = p.placeFrom t.here ++ names ∧
      t.get? r.1 = some r.2 := by
  have hgoes := Path.goesOn_pathTo p hne h
  constructor
  · intro hstatus
    obtain ⟨hfault, spot, hlead, -⟩ := leads_of_status hl hstatus
    obtain ⟨hplace, hget⟩ := get?_of_status hl hw hstatus
    rw [Path.placeFrom_pathTo t.here p h] at hplace
    refine ⟨hfault, opens_of_goesOn hl hgoes hstatus, fun n hn => ?_, hplace, hget⟩
    apply hlead.byteLength_le
    rw [hgoes.steps]
    simp [hn]
  · rintro ⟨hfault, hopens, hlength, hplace, hget⟩
    obtain ⟨place, e⟩ := r
    obtain rfl : place = p.placeFrom t.here ++ names := hplace
    have hall := Leads.append hopens rfl (Leads.of_get? hw hne hget hlength)
    have hsteps : (pathTo p names).steps = p.track ++ names.map .name := hgoes.steps
    rw [← hgoes.start, ← hsteps] at hall
    exact status_of_leads hl hfault hall rfl (.inr rfl)

theorem opens_pathTo_iff (hw : t.WellFormed) (h : ∀ n ∈ names, Path.IsName n)
    (hlength : ∀ n ∈ names, Text.byteLength n ≤ maxNameBytes) :
    t.Opens (pathTo p names) ↔
      t.Opens p ∧ t.get? (p.placeFrom t.here ++ names) = some .directory := by
  have hplace := Path.placeFrom_pathTo t.here p h
  have htrack := Path.track_pathTo p h
  have hstart := Path.start_pathTo t.here p h
  constructor
  · intro hopens
    have hdir := Leads.get?_eq hw hopens (hw.start _)
    rw [hplace] at hdir
    refine ⟨?_, hdir.symm⟩
    rw [Opens, hstart, htrack] at hopens
    have hbefore := hopens.of_append_directory rfl
    rwa [foldl_move_track] at hbefore
  · rintro ⟨hopens, hdir⟩
    rw [Opens, hstart, htrack, hplace]
    refine Leads.append hopens rfl ?_
    cases names with
    | nil => rw [List.append_nil]; exact .stop _
    | cons n names => exact Leads.of_get? hw (List.cons_ne_nil n names) hdir hlength

theorem isPrefixOf?_append (a b c : List Text) :
    (a ++ b).isPrefixOf? c = (a.isPrefixOf? c).bind b.isPrefixOf? := by
  induction a generalizing c with
  | nil => rfl
  | cons x a ih =>
    cases c with
    | nil => rfl
    | cons y c =>
      rw [List.cons_append, List.isPrefixOf?, List.isPrefixOf?]
      split
      · exact ih c
      · rfl

theorem below_append (t : Tree) (dir names : Place) :
    (t.below (dir ++ names)).map (fun x => (names ++ x.1, x.2)) =
      (t.below dir).filter fun x => names.isPrefixOf x.1 && x.1 != names := by
  unfold below
  rw [List.map_filterMap, List.filter_filterMap]
  apply List.filterMap_congr
  rintro ⟨q, e⟩ -
  rw [isPrefixOf?_append]
  dsimp only
  cases dir.isPrefixOf? q with
  | none => rfl
  | some rest =>
    rw [Option.bind_some]
    cases hr : names.isPrefixOf? rest with
    | none =>
      -- what the names do not lead to is left out on both sides
      have hprefix : names.isPrefixOf rest = false := by
        apply Bool.eq_false_iff.2
        intro hprefix
        obtain ⟨ns, hns⟩ := List.isPrefixOf_iff_prefix.1 hprefix
        rw [List.isPrefixOf?_eq_some_iff_append_eq.2 hns] at hr
        cases hr
      cases rest with
      | nil => rfl
      | cons m ms => simp [Option.filter, hprefix]
    | some left =>
      obtain rfl := List.append_eq_of_isPrefixOf?_eq_some hr
      cases left with
      | nil =>
        rw [List.append_nil]
        cases names with
        | nil => rfl
        | cons m ms => simp [Option.filter]
      | cons n ns =>
        cases names with
        | nil => simp [Option.filter]
        | cons m ms => simp [Option.filter]

theorem below_eq_nil (hw : t.WellFormed) {dir : Place} (h : t.get? dir ≠ some .directory) :
    t.below dir = [] := by
  apply List.eq_nil_iff_forall_not_mem.2
  rintro ⟨ns, e⟩ hmem
  obtain ⟨hne, hget⟩ := mem_below.1 hmem
  obtain ⟨n, ns, rfl⟩ := List.exists_cons_of_ne_nil hne
  exact h (hw.above hget)

theorem foundBelow_of_opens (hl : t.LinkFree) (hfault : pathFault? p = none) (h : t.Opens p) :
    t.foundBelow p = (t.listedBelow p (p.placeFrom t.here)).map fun (names, e) =>
      { path := pathTo p names, name := names.getLast?.getD [], entry := e } := by
  rw [foundBelow, (status_directory_iff hl).2 ⟨hfault, h⟩]

theorem foundBelow_eq_nil (hl : t.LinkFree) (h : ¬ t.Opens p) : t.foundBelow p = [] := by
  unfold foundBelow
  split
  · next hstatus => exact absurd (opens_of_status hl hstatus) h
  · rfl

/-- The directories at and below the place of a path have paths that are refused behind both of two
paths or behind none. -/
def RefusedAlike (t : Tree) (p q : Path) : Prop :=
  ∀ names, t.get? (p.placeFrom t.here ++ names) = some .directory →
    (pathFault? (pathTo p names) = none ↔ pathFault? (pathTo q names) = none)

theorem RefusedAlike.isListed_eq {q : Path} (h : t.RefusedAlike p q) (hw : t.WellFormed)
    {x : List Text × Entry} (hx : x ∈ t.below (p.placeFrom t.here)) :
    isListed p x.1 = isListed q x.1 := by
  obtain ⟨hne, hget⟩ := mem_below.1 hx
  obtain ⟨init, n, hn⟩ := (List.eq_nil_or_concat x.1).resolve_left hne
  rw [List.concat_eq_append] at hn
  rw [hn, ← List.append_assoc] at hget
  rw [hn]
  apply Bool.eq_iff_iff.2
  rw [isListed_iff, isListed_iff, List.dropLast_concat]
  exact h init (hw.above hget)

end Tree

namespace Path

structure Usable (p : Path) : Prop where
  fault : Tree.pathFault? p = none
  names : ∀ s ∈ p.segments, Text.byteLength s ≤ Tree.maxNameBytes

theorem Usable.components_ne_nil {p : Path} (h : p.Usable) : p.components ≠ [] := by
  apply Path.components_ne_nil
  intro hnil
  have hfault := h.fault
  rw [Tree.pathFault?, hnil] at hfault
  cases hfault

/-- The path is a spelling of a directory with names behind it, and at most a slash behind these. -/
structure DescendsBy (p base q : Path) (names : List Text) : Prop where
  spelled : q.components = base.components
  named : ∀ n ∈ names, IsName n
  text : p = Tree.pathTo q names ∨ names ≠ [] ∧ p.text = (Tree.pathTo q names).text ++ ['/']

namespace DescendsBy
variable {p base q : Path} {names : List Text}

theorem text_pathTo (hne : names ≠ []) (h : ∀ n ∈ names, IsName n) :
    ((Tree.pathTo q names).text.isEmpty ||
      (Tree.pathTo q names).text.getLast? == some '/') = false := by
  obtain ⟨init, n, rfl⟩ := (List.eq_nil_or_concat names).resolve_left hne
  rw [List.concat_eq_append] at h ⊢
  have hn := h n (by simp)
  have hlast := getLast?_div (Tree.pathTo q init) hn
  rw [Tree.pathTo_concat, hlast, Bool.or_eq_false_iff]
  constructor
  · apply List.isEmpty_eq_false_iff.2
    intro hnil
    rw [hnil] at hlast
    exact hn.ne_nil (List.getLast?_eq_none_iff.1 hlast.symm)
  · exact beq_eq_false_iff_ne.2 fun h => hn.noSlash (List.mem_of_getLast? h)

theorem components_eq (h : p.DescendsBy base q names) :
    p.components = (Tree.pathTo q names).components := by
  rcases h.text with rfl | ⟨hne, htext⟩
  · rfl
  · have hsegments : p.segments = (Tree.pathTo q names).segments ++ [[]] := by
      rw [segments, htext, List.splitOn_append_cons_self]
      rfl
    rw [Path.components_eq, Path.components_eq, hsegments,
      componentsOf_append (segments_ne_nil _), List.filterMap_cons, ofSegment?_nil,
      List.filterMap_nil, List.append_nil]
    intro hnil
    have hjoin : ['/'].intercalate (Tree.pathTo q names).segments = (Tree.pathTo q names).text :=
      List.intercalate_splitOn '/'
    have hlong := text_pathTo (q := q) hne h.named
    rw [← hjoin, hnil] at hlong
    cases hlong

theorem pathTo_eq (h : p.DescendsBy base q names) {ns : List Text} (hne : ns ≠ [])
    (hns : ∀ n ∈ ns, IsName n) : Tree.pathTo p ns = Tree.pathTo q (names ++ ns) := by
  have happend : Tree.pathTo q (names ++ ns) = Tree.pathTo (Tree.pathTo q names) ns :=
    List.foldl_append
  rw [happend]
  rcases h.text with rfl | ⟨hnames, htext⟩
  · rfl
  · obtain ⟨n, ns, rfl⟩ := List.exists_cons_of_ne_nil hne
    have hn := (hns n List.mem_cons_self).isAbsolute
    have htexts : (p / ⟨n⟩).text = (Tree.pathTo q names / ⟨n⟩).text := by
      rw [text_div p hn, text_div _ hn, text_pathTo hnames h.named, if_neg Bool.false_ne_true,
        htext, List.getLast?_concat]
      simp
    have hfirst : p / ⟨n⟩ = Tree.pathTo q names / ⟨n⟩ := congrArg Path.mk htexts
    exact congrArg (Tree.pathTo · ns) hfirst

theorem placeFrom_eq (h : p.DescendsBy base q names) (here : Place) :
    p.placeFrom here = base.placeFrom here ++ names := by
  rw [placeFrom_congr h.components_eq, placeFrom_pathTo here q h.named, placeFrom_congr h.spelled]

theorem byteLength_le (h : p.DescendsBy base q names) (hp : p.Usable) :
    ∀ n ∈ names, Text.byteLength n ≤ Tree.maxNameBytes := by
  intro n hn
  have hmem : .name n ∈ p.components := by
    rw [h.components_eq, components_pathTo q h.named]
    exact List.mem_append_right _ (List.mem_map_of_mem hn)
  exact hp.names n (mem_segments_of_mem_body (mem_body_of_name hmem).1)

theorem opens_iff {t : Tree} (h : p.DescendsBy base q names) (hw : t.WellFormed) (hp : p.Usable) :
    t.Opens p ↔ t.Opens base ∧ t.get? (p.placeFrom t.here) = some .directory := by
  rw [Tree.opens_congr h.components_eq, Tree.opens_pathTo_iff hw h.named (h.byteLength_le hp),
    Tree.opens_congr h.spelled, h.placeFrom_eq, placeFrom_congr h.spelled]

end DescendsBy

end Path

end PatternBridge
