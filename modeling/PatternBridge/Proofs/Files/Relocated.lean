import PatternBridge.Proofs.Files.DepthFirst
import PatternBridge.Proofs.Files.Resolved

/-! One path put behind two others. What it has below a third path that is put behind the same two
is told by its own text; and where the two others lead to directories with the same in them, it
leads to the same entry behind both. -/

namespace PatternBridge

namespace Path
variable {p q r base : Path}

/-- What comes between a text and a relative path that is put behind it. -/
def seam (s : Text) : Text := if s.isEmpty || s.getLast? == some '/' then [] else ['/']

theorem text_join (p : Path) (hq : q.isAbsolute = false) :
    (p / q).text = p.text ++ (seam p.text ++ q.text) := by
  rw [text_div p hq, seam]
  split <;> rfl

theorem seam_append (s t : Text) : seam (s ++ (seam s ++ t)) = seam t := by
  obtain rfl | ⟨init, c, rfl⟩ := t.eq_nil_or_concat
  · rw [List.append_nil]
    by_cases h : s.isEmpty || s.getLast? == some '/'
    · have hseam : seam s = [] := if_pos h
      rw [hseam, List.append_nil, hseam]
      rfl
    · have hseam : seam s = ['/'] := if_neg h
      rw [hseam, seam, List.getLast?_concat]
      simp [seam]
  · have hlast : (s ++ (seam s ++ init.concat c)).getLast? = (init.concat c).getLast? := by
      rw [List.concat_eq_append, ← List.append_assoc, ← List.append_assoc, List.getLast?_concat,
        List.getLast?_concat]
    have hempty : (s ++ (seam s ++ init.concat c)).isEmpty = (init.concat c).isEmpty := by
      rw [List.isEmpty_eq_false_iff.2 (by simp), List.isEmpty_eq_false_iff.2 (by simp)]
    generalize s ++ (seam s ++ init.concat c) = u at hlast hempty
    rw [seam, seam, hlast, hempty]

theorem join_of_isAbsolute (p : Path) (hq : q.isAbsolute = true) : p / q = q := by
  show join p q = q
  rw [join, if_pos hq]

theorem join_assoc (p q r : Path) : p / q / r = p / (q / r) := by
  cases hr : r.isAbsolute with
  | true => rw [join_of_isAbsolute _ hr, join_of_isAbsolute _ hr, join_of_isAbsolute _ hr]
  | false =>
    have hqr := isAbsolute_div q hr
    cases hq : q.isAbsolute with
    | true =>
      rw [hq] at hqr
      rw [join_of_isAbsolute _ hq, join_of_isAbsolute _ hqr]
    | false =>
      rw [hq] at hqr
      have htext : (p / q / r).text = (p / (q / r)).text := by
        rw [text_join _ hr, text_join p hqr, text_join p hq, text_join q hr, seam_append]
        simp only [List.append_assoc]
      exact congrArg Path.mk htext

theorem pathTo_join (p q : Path) (names : List Text) :
    Tree.pathTo (p / q) names = p / Tree.pathTo q names := by
  induction names generalizing q with
  | nil => rfl
  | cons n names ih =>
    rw [Tree.pathTo_cons, Tree.pathTo_cons, join_assoc, ih]

theorem fileName?_pathTo (p : Path) {names : List Text} (hne : names ≠ [])
    (h : ∀ n ∈ names, IsName n) : (Tree.pathTo p names).fileName? = names.getLast? := by
  obtain ⟨init, n, rfl⟩ := (List.eq_nil_or_concat names).resolve_left hne
  rw [List.concat_eq_append] at h ⊢
  rw [Tree.pathTo_concat, fileName?_of_components (components_div_name _ (h n (by simp))),
    List.getLast?_concat]

theorem anchor_eq (p : Path) : p.anchor = match p.components.head? with
    | some .root => .root
    | some .stay => .stay
    | _ => .none := by
  rw [components_eq_trail]
  cases p.anchor with
  | root | stay => rfl
  | none =>
    cases htrail : p.trail with
    | nil => rfl
    | cons c cs => rcases trail_cases (htrail ▸ List.mem_cons_self) with rfl | ⟨n, rfl⟩ <;> rfl

theorem dropNamed_add (m n : Nat) (ss : List Text) :
    dropNamed (m + n) ss = dropNamed n (dropNamed m ss) := by
  induction ss generalizing m with
  | nil => cases m <;> cases n <;> rfl
  | cons s ss ih =>
    cases m with
    | zero => rw [Nat.zero_add, dropNamed_zero]
    | succ m =>
      rw [Nat.add_right_comm, dropNamed, dropNamed]
      split
      · rw [← ih (m + 1), Nat.add_right_comm]
      · exact ih m

theorem trimWith_dropNamed {idle : List Text} (h : ∀ s ∈ idle, isIdle s) (n : Nat)
    (ss : List Text) :
    Text.trimWith isIdle (dropNamed n (idle ++ ss)) = Text.trimWith isIdle (dropNamed n ss) := by
  cases n with
  | zero =>
    rw [dropNamed_zero, dropNamed_zero, Text.trimWith, Text.trimWith,
      List.dropWhile_append_of_pos h]
  | succ n =>
    induction idle with
    | nil => rfl
    | cons s idle ih =>
      rw [List.cons_append, dropNamed, if_pos (h s List.mem_cons_self)]
      exact ih fun t ht => h t (List.mem_cons_of_mem _ ht)

theorem startsWith_of_components {cs : List Component} (h : q.startsWith base)
    (hp : p.components = q.components ++ cs) : p.startsWith base := by
  refine List.isPrefixOf_iff_prefix.2 ((List.isPrefixOf_iff_prefix.1 h).trans ?_)
  rw [hp]
  exact List.prefix_append _ _

theorem below?_of_startsWith (h : p.startsWith base) (hne : base.components ≠ []) :
    p.below? base = some (ofBody .none
      (Text.trimWith isIdle (dropNamed base.trail.length p.segments))) := by
  obtain ⟨rest, hrest⟩ := List.isPrefixOf_iff_prefix.1 h
  have hanchor : p.anchor = base.anchor := by
    obtain ⟨c, cs, hcs⟩ := List.exists_cons_of_ne_nil hne
    rw [anchor_eq, anchor_eq, ← hrest, hcs]
    rfl
  have hcount : base.components.length - p.anchor.components.length = base.trail.length := by
    rw [hanchor, components_eq_trail, List.length_append, Nat.add_sub_cancel_left]
  have hlength : (base.components.length == 0) = false := by simpa using hne
  obtain ⟨idle, hidle, hsegments⟩ := p.exists_segments
  rw [below?, if_pos h]
  dsimp only
  rw [hlength, if_neg Bool.false_ne_true, hcount, hsegments, trimWith_dropNamed hidle]

theorem below?_join (root : Path) {base : Path} (hp : p.isAbsolute = false)
    (hbase : base.isAbsolute = false) (hne : base.text ≠ [])
    (h : (root / p).startsWith (root / base)) :
    (root / p).below? (root / base) = some (ofBody .none
      (Text.trimWith isIdle (dropNamed base.trail.length p.segments))) := by
  have hcomponents : (root / base).components ≠ [] := by
    refine components_ne_nil ?_
    rw [text_join root hbase]
    simp [hne]
  obtain ⟨init, hinit, hsegments⟩ := segments_join root hp
  have htrail : root.trail = init.filterMap Component.ofSegment? := filterMap_of_seam rfl hinit
  obtain ⟨idle, hidle, hdrop⟩ := dropNamed_append init p.segments
  rw [below?_of_startsWith h hcomponents, trail_div root hbase, List.length_append, hsegments,
    dropNamed_add, htrail, hdrop, trimWith_dropNamed hidle]

/-- A path that leads down from whatever directory it is put behind. -/
structure IsLocal (p : Path) : Prop where
  relative : p.isAbsolute = false
  noUp : .up ∉ p.components

def names (p : Path) : List Text := p.segments.filter fun s => !isIdle s

theorem IsLocal.trail_eq (h : p.IsLocal) : p.trail = p.names.map .name := by
  refine trail_of_notMem fun hup => h.noUp ?_
  rw [components_eq_trail]
  exact List.mem_append_right _ (List.mem_filterMap.2 ⟨['.', '.'], hup, rfl⟩)

theorem IsLocal.filter_track (h : p.IsLocal) :
    p.track.filter (· != .stay) = p.names.map .name := by
  rw [track, filter_filterMap_ofSegment?, ← trail, h.trail_eq, List.filterMap_map]
  exact congrFun (List.filterMap_eq_map (f := Step.name)) p.names

theorem placeFrom_join (here : Place) (p : Path) (hq : q.IsLocal) :
    (p / q).placeFrom here = p.placeFrom here ++ q.names := by
  have hnames (dir : Place) (ns : List Text) :
      (ns.map Component.name).foldl Component.move dir = dir ++ ns := by
    induction ns generalizing dir with
    | nil => exact (List.append_nil dir).symm
    | cons n ns ih =>
      rw [List.map_cons, List.foldl_cons, ih, Component.move, List.append_assoc]
      rfl
  rw [← Tree.foldl_move_track, track_join p hq.relative, start_join here p hq.relative,
    List.foldl_append,
    Tree.foldl_move_track, track, Step.foldl_move_filterMap, ← trail, hq.trail_eq, hnames]

end Path

namespace Tree
variable {t u : Tree} {p q : Path}

theorem opens_join_iff (hw : t.WellFormed) (hq : q.IsLocal) :
    t.Opens (p / q) ↔ t.Opens p ∧ (∀ n ∈ q.names, Text.byteLength n ≤ maxNameBytes) ∧
      t.get? (p.placeFrom t.here ++ q.names) = some .directory := by
  have hplace := Path.placeFrom_join t.here p hq
  have hstart := Path.start_join t.here p hq.relative
  constructor
  · intro hopens
    have hdir := Leads.get?_eq hw hopens (hw.start _)
    rw [hplace] at hdir
    refine ⟨?_, fun n hn => ?_, hdir.symm⟩
    · rw [Opens, hstart, Path.track_join p hq.relative] at hopens
      have hbefore := hopens.of_append_directory rfl
      rwa [foldl_move_track] at hbefore
    · refine Leads.byteLength_le hopens ?_
      rw [Path.track_join p hq.relative, List.mem_append]
      refine .inr (List.mem_of_mem_filter (p := (· != .stay)) ?_)
      rw [hq.filter_track]
      exact List.mem_map_of_mem hn
  · rintro ⟨hopens, hlength, hdir⟩
    rw [Opens, hstart, Path.track_join p hq.relative, hplace]
    refine Leads.append hopens rfl ((Leads.filter_stay_iff rfl).1 ?_)
    rw [hq.filter_track]
    cases hnames : q.names with
    | nil => rw [List.append_nil]; exact .stop _
    | cons n ns =>
      rw [hnames] at hlength hdir
      exact Leads.of_get? hw (List.cons_ne_nil n ns) hdir hlength

theorem entry?_pathTo_iff (hl : t.LinkFree) (hw : t.WellFormed) {names : List Text}
    (hne : names ≠ []) (h : ∀ n ∈ names, Path.IsName n) {e : Entry} :
    t.entry? (pathTo p names) = some e ↔ pathFault? (pathTo p names) = none ∧ t.Opens p ∧
      (∀ n ∈ names, Text.byteLength n ≤ maxNameBytes) ∧
      t.get? (p.placeFrom t.here ++ names) = some e := by
  constructor
  · intro he
    unfold entry? at he
    cases hstatus : t.status (pathTo p names) with
    | error f => rw [hstatus] at he; cases he
    | ok r =>
      rw [hstatus] at he
      obtain ⟨hfault, hopens, hlength, hplace, hget⟩ := (status_pathTo_iff hl hw hne h).1 hstatus
      rw [hplace, show r.2 = e from Option.some.inj he] at hget
      exact ⟨hfault, hopens, hlength, hget⟩
  · rintro ⟨hfault, hopens, hlength, hget⟩
    have hstatus := (status_pathTo_iff hl hw hne h (r := (p.placeFrom t.here ++ names, e))).2
      ⟨hfault, hopens, hlength, rfl, hget⟩
    rw [ entry?, hstatus]
    rfl

/-- Both paths lead to directories, and these have the same in them. -/
structure HoldSame (t u : Tree) (p q : Path) : Prop where
  opens : t.Opens p
  opens' : u.Opens q
  below : t.below (p.placeFrom t.here) = u.below (q.placeFrom u.here)

namespace HoldSame
variable (h : HoldSame t u p q)
include h

theorem get?_eq (hw : t.WellFormed) (hwu : u.WellFormed) (names : List Text) :
    t.get? (p.placeFrom t.here ++ names) = u.get? (q.placeFrom u.here ++ names) := by
  by_cases hne : names = []
  · have hdir := Leads.get?_eq hw h.opens (hw.start _)
    have hdir' := Leads.get?_eq hwu h.opens' (hwu.start _)
    rw [hne, List.append_nil, List.append_nil, ← hdir, ← hdir']
  · refine Option.ext fun e => ?_
    have hmem := congrArg ((names, e) ∈ ·) h.below
    simpa only [mem_below, ne_eq, hne, not_false_eq_true, true_and, eq_iff_iff] using hmem

theorem opens_join (hw : t.WellFormed) (hwu : u.WellFormed) {r : Path} (hr : r.IsLocal) :
    t.Opens (p / r) ↔ u.Opens (q / r) := by
  rw [opens_join_iff hw hr, opens_join_iff hwu hr, h.get?_eq hw hwu]
  simp only [h.opens, h.opens']

theorem join (hw : t.WellFormed) (hwu : u.WellFormed) {r : Path} (hr : r.IsLocal)
    (hopens : t.Opens (p / r)) : HoldSame t u (p / r) (q / r) where
  opens := hopens
  opens' := (h.opens_join hw hwu hr).1 hopens
  below := by
    refine (below_pairwise _ _).eq_of_mem_iff (below_pairwise _ _) fun ⟨names, e⟩ => ?_
    rw [mem_below, mem_below, Path.placeFrom_join _ _ hr, Path.placeFrom_join _ _ hr,
      List.append_assoc, List.append_assoc, h.get?_eq hw hwu]

theorem entry?_eq (hl : t.LinkFree) (hlu : u.LinkFree) (hw : t.WellFormed) (hwu : u.WellFormed)
    {names : List Text} (hne : names ≠ []) (hnames : ∀ n ∈ names, Path.IsName n)
    (hfault : pathFault? (pathTo p names) = none ↔ pathFault? (pathTo q names) = none) :
    t.entry? (pathTo p names) = u.entry? (pathTo q names) := by
  refine Option.ext fun e => ?_
  rw [ entry?_pathTo_iff hl hw hne hnames, entry?_pathTo_iff hlu hwu hne hnames, hfault,
    h.get?_eq hw hwu]
  simp only [h.opens, h.opens']

end HoldSame

end Tree
end PatternBridge
