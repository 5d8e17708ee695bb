import LostUpdate.Proofs.Walk.LoopedEdges
import LostUpdate.Proofs.Walk.Loops

namespace LostUpdate

namespace Event

def segmentId? : Event → Option SegmentId
  | .segment s => some s.id
  | _ => none

theorem map_id_segments (events : List Event) :
    (segments events).map (·.id) = events.filterMap segmentId? := by
  induction events with
  | nil => rfl
  | cons e events ih => cases e <;> simp [segments, List.filterMap_cons, segmentId?, ih]

end Event

namespace Trail

open Event

variable {events done first later rest : List Event} {s q next : Segment} {x y : Node}

theorem segment_split_unique (he : empty.AllowsAll events)
    (hs : events = done ++ .segment s :: later) (hq : events = first ++ .segment q :: rest)
    (h : s.id = q.id) : done = first ∧ s = q ∧ later = rest := by
  have distinct := (knows_empty.after consistent_empty he).nodup
  rw [List.nil_append, map_id_segments, hs] at distinct
  obtain ⟨same, hsq, hlater⟩ := split_unique distinct (hs.symm.trans hq) rfl (congrArg some h.symm)
  exact ⟨same, Event.segment.inj hsq, hlater⟩

theorem id_of_next (he : empty.AllowsAll (done ++ .segment next :: later))
    (hs : (empty.after done).segment? = some s) : next.id = ⟨s.id.path, s.id.number + 1⟩ := by
  obtain ⟨hdone, hnext⟩ := allowsAll_append.1 he
  obtain ⟨p, rest, hopened, continues⟩ := hnext.1
  have successive := (consistent_empty.after hdone).successive p (hopened ▸ List.mem_cons_self)
  obtain ⟨earlier, hsegments⟩ : ∃ earlier, p.segments = s :: earlier := by
    simpa [segment?, hopened, List.head?_eq_some_iff] using hs
  rw [hsegments] at successive continues
  rw [continues.id, successive.1.id, List.length_cons]

theorem started_of_segment? (he : empty.AllowsAll done) (hs : (empty.after done).segment? = some s) :
    .segment s ∈ done := by
  obtain ⟨p, hopened, hp⟩ := Option.bind_eq_some_iff.1 hs
  have own := (knows_empty.after consistent_empty he).own p (List.mem_of_mem_head? hopened) s
  rw [List.nil_append, mem_segments] at own
  exact (own.1 (List.mem_of_mem_head? hp)).1

theorem started_of_leftIn (he : empty.AllowsAll events) (hs : LeftIn events x s) :
    .segment s ∈ events := by
  obtain ⟨done, later, rfl, running⟩ := hs
  exact List.mem_append_left _ (started_of_segment? (allowsAll_append.1 he).1 running)

theorem started_of_endedBy (he : empty.AllowsAll events) (hs : EndedBy events s x) :
    .segment s ∈ events := by
  obtain ⟨done, next, later, rfl, running⟩ := hs
  exact List.mem_append_left _ (started_of_segment? (allowsAll_append.1 he).1 running)

theorem endedBy_injective (he : empty.AllowsAll events) (hs : EndedBy events s x)
    (hq : EndedBy events q y) (h : s.id = q.id) : x = y := by
  obtain ⟨done, next, later, hdone, running⟩ := hs
  obtain ⟨first, last, rest, hfirst, before⟩ := hq
  have same : next.id = last.id := by
    have here : next.id = ⟨s.id.path, s.id.number + 1⟩ := id_of_next (hdone ▸ he) running
    have there : last.id = ⟨q.id.path, q.id.number + 1⟩ := id_of_next (hfirst ▸ he) before
    rw [here, there, h]
  obtain ⟨-, -, hlater⟩ := segment_split_unique he hdone hfirst same
  exact Event.exit.inj (List.head_eq_of_cons_eq hlater)

end Trail

namespace Node

open LostUpdate.Flow Walk Event

variable {t : GrammaticalTree} {m f x L : Node} {l : Loop}

/-- `z` starts as the first segment behind `L`: nothing but leaving `L` comes in between. -/
def ComesBehind (events : List Event) (L : Node) (z : Segment) : Prop :=
  ∃ done later, events = done ++ .segment z :: .exit L :: later

/-- The places from which control goes on behind the loop `L`, with what runs there: the end of the part
after its body, for which `L` itself stands, and each `break` that it binds. -/
inductive LeavesAt (events : List Event) (L : Node) : Node → Segment → Prop
  | elseEnd {l : Loop} {s : Segment} (h : L.loop? = some l) (hs : l.ElseEndsAt events L s) :
      LeavesAt events L L s
  | jump {l : Loop} {x : Node} {s : Segment} (h : L.loop? = some l) (hx : l.Binds .breakLoop x)
      (hs : EndedBy events s x) : LeavesAt events L x s

theorem TurnsAt.started {events : List Event} {y : Node} {s : Segment}
    (he : Trail.empty.AllowsAll events) (h : L.TurnsAt events y s) : .segment s ∈ events := by
  cases h with
  | jump _ _ hs => exact Trail.started_of_endedBy he hs
  | @bodyEnd l _ hl hs =>
    cases hlast : l.body.getLast? with
    | some x => exact Trail.started_of_leftIn he (hs.last x hlast)
    | none =>
      obtain ⟨done, later, rfl⟩ := hs.empty (by simpa using hlast)
      simp

theorem head_mem_children (hl : L.loop? = some l) : l.head ∈ L.children := by
  cases hform : L.form <;> simp only [loop?, hform, Option.some.injEq, reduceCtorEq] at hl
  all_goals
    subst hl
    simp [children, hform, Form.children]

theorem body_subset_children (hl : L.loop? = some l) : l.body ⊆ L.children := by
  cases hform : L.form <;> simp only [loop?, hform, Option.some.injEq, reduceCtorEq] at hl
  all_goals
    subst hl
    intro c hc
    simp [children, hform, Form.children, hc]

/-- The parts that the code path of a node walks. -/
def code (f : Node) : List Node := if f.isFunctionLike then f.ownCode else [f]

theorem catchesIn_programFlow (hm : m ∈ t.nodes)
    (h : f.isGrammatical = true) : CatchesIn m.events f.code f.programFlow := by
  have parts {l : List Node} (hl : ∀ c ∈ l, c.isGrammatical = true) :
      ∀ c ∈ l, CatchesIn m.events [c] c.placedFlow :=
    fun c hc => catchesIn_placedFlow hm (hl c hc)
  unfold code programFlow
  split_ifs with hf
  · refine (walks_bodyFlow h hf).catchesIn (parts fun c hc => ?_)
    exact isGrammatical_of_part h (List.mem_append_right _ hc)
  · by_cases hclause : f.isClause = true
    · obtain ⟨target, iterable, conditions, isAsync, hn⟩ :=
        exists_clause (isClause_eq_true_iff.1 hclause)
      have plain := isClause_of_field h (k := .expression) (l := target :: iterable :: conditions)
        (by simp [hn, Form.fields]) (by simp)
      have below : f.inPlace = target :: iterable :: conditions := by
        rw [inPlace_of_plain (by simpa using hf)]
        simp [children, hn, Form.children]
      rw [← below] at plain
      have row := (Walks.enter f).seq ((Walks.plain plain).seq (.exit f))
      rw [List.nil_append, List.append_nil] at row
      rw [flow_eq, innerFlow_clause hn, ← below]
      refine fun _ _ _ here hevents => catches_of_parts h (by simp [loop?, hn])
        (by simp [loopJump?, hn]) (row.catchesIn (parts fun c hc => ?_) here hevents)
      rw [inPlace_of_plain (by simpa using hf)] at hc
      exact isGrammatical_child h hc
    · have placed := catchesIn_placedFlow hm h
      rwa [placedFlow, if_neg hclause] at placed

theorem runs_iff_placed (h : f.isGrammatical = true) (hx : x.loop? ≠ none) :
    f.Runs (fun _ _ => True) x ↔ Placed (fun _ _ => True) f.code x := by
  unfold Runs code
  split_ifs
  · rfl
  · rw [placed_loop h hx, partOf_iff]
    simp [Placed]

end Node

theorem Tree.eq_of_startsAt {t : Tree} {n L M : Node} {l m : Loop} {s q : Segment} (hL : L ∈ t.nodes)
    (hM : M ∈ t.nodes) (hl : L.loop? = some l) (hm : M.loop? = some m) (hs : l.StartsAt n.events s)
    (hq : m.StartsAt n.events q) (h : s.id = q.id) : L = M := by
  obtain ⟨done, later, hdone⟩ := hs
  obtain ⟨first, rest, hfirst⟩ := hq
  obtain ⟨-, -, hlater⟩ := Trail.segment_split_unique n.events_allowed.1 hdone hfirst h
  have head : l.head = m.head := Event.enter.inj (List.head_eq_of_cons_eq hlater)
  exact parent_unique hL hM (Node.head_mem_children hl) (head ▸ Node.head_mem_children hm)

namespace CodePath

open LostUpdate.Flow Node Walk Event

variable {t : GrammaticalTree} {n L : Node} {p : CodePath} {l : Loop} {j k : SegmentId}
  {s target : Segment}

/-- What the graph of a path has of the loop `L`, whose head starts in `first` and behind which comes
`behind`. Every end and every jump is there; edges lead back just from the places that turn back and
can be reached, each from a segment of its own, and on just from those that leave. -/
structure Joins (p : CodePath) (events : List Event) (L : Node) (l : Loop) (first behind : Segment) :
    Prop where
  starts : l.StartsAt events first ∧ first.id.path = p.id
  comes : ComesBehind events L behind ∧ behind.id.path = p.id
  bodyEnd : ∃ s, l.BodyEndsAt events s ∧ s.id.path = p.id
  elseEnd : ∃ s, l.ElseEndsAt events L s ∧ s.id.path = p.id
  jumps : ∀ k x, l.Binds k x → ∃ s, EndedBy events s x ∧ s.id.path = p.id
  back : ∀ j, (j, first.id) ∈ p.loopedEdges ↔
    ∃ y s, L.TurnsAt events y s ∧ s.isReachable = true ∧ s.id = j
  apart : ∀ y z s r, L.TurnsAt events y s → L.TurnsAt events z r → s.id = r.id → y = z
  forth : ∀ j, p.Leads j behind.id ↔ ∃ y s, L.LeavesAt events y s ∧ s.isReachable = true ∧ s.id = j

section Spots

variable {done : List Event} {around : Surroundings} {q : Spot} (hn : n ∈ t.nodes)
  (hl : L.loop? = some l) (plain : ∀ c ∈ l.body, c.isClause = false) (here : At done around q)

include hn hl plain here

/-- What comes behind a loop comes behind the places that leave it. -/
theorem mem_previous_loopAfter (hevents : done ++ ((l.flow.walk around q).1 ++ [.exit L]) <+: n.events)
    (caught : CatchesLoop n.events around l q) :
    k ∈ ((l.flow.walk around q).2).current.previous ↔
      ∃ y s, L.LeavesAt n.events y s ∧ s.isReachable = true ∧ s.id = k := by
  have elseEnds := elseEndsAt_loopElse here hevents
  let elseEnd := (loopElse around l.head.flow (Flow.sequence (l.body.map Node.flow))
    (Flow.sequence (l.orelse.map Node.flow)) q).current
  let broken := (loopEnd around l.head.flow (Flow.sequence (l.body.map Node.flow)) q).broken
  have joined : k ∈ ((l.flow.walk around q).2).current.previous ↔
      ∃ s ∈ elseEnd :: broken, s.isReachable = true ∧ s.id = k := mem_previous_startSegment
  have leaves (s : Segment) : (∃ y, L.LeavesAt n.events y s) ↔ s ∈ elseEnd :: broken := by
    rw [List.mem_cons, caught.body.broken]
    change _ ↔ _ ∨ s ∈ [] ∨ _
    rw [or_iff_right List.not_mem_nil]
    constructor
    · rintro ⟨y, leaves⟩
      cases leaves with
      | elseEnd hl' hs =>
        obtain rfl : l = _ := Option.some.inj (hl.symm.trans hl')
        exact .inl (GrammaticalTree.endedBy_unique hn hs.ended elseEnds.ended)
      | jump hl' hx hs =>
        obtain rfl : l = _ := Option.some.inj (hl.symm.trans hl')
        exact .inr ⟨y, (binds_iff_loose plain).1 hx, hs⟩
    · rintro (rfl | ⟨x, hx, hs⟩)
      · exact ⟨L, .elseEnd hl elseEnds⟩
      · exact ⟨x, .jump hl ((binds_iff_loose plain).2 hx) hs⟩
  simp only [joined, ← leaves, ← exists_and_right]
  exact exists_comm

/-- A loop turns back from different segments at different places. -/
theorem turnsAt_injective {y z : Node} {r : Segment}
    (hevents : done ++ (l.flow.walk around q).1 <+: n.events)
    (caught : CatchesLoop n.events around l q) (hy : L.TurnsAt n.events y s)
    (hz : L.TurnsAt n.events z r) (h : s.id = r.id) : y = z := by
  have allowed := n.events_allowed.1
  obtain rfl := Trail.segment_unique allowed (hy.started allowed) (hz.started allowed) h
  have bodyEnds := bodyEndsAt_loopEnd here hevents
  have ended := (at_loopTurn l.head.flow here).walk (Flow.sequence (l.body.map Node.flow))
  -- Up to the end of the body more segments have started than up to a jump in it.
  have other {x : Node} (hx : l.Binds .continueLoop x) (hs : EndedBy n.events s x) :
      ¬ l.BodyEndsAt n.events s := by
    intro atEnd
    obtain ⟨r, jumps, lower⟩ := caught.body.ended .continueLoop x ((binds_iff_loose plain).1 hx)
    obtain rfl := GrammaticalTree.endedBy_unique hn jumps.ended hs
    obtain rfl := GrammaticalTree.bodyEndsAt_unique hn atEnd bodyEnds
    exact absurd (congrArg SegmentId.number ended.current_id) (Nat.ne_of_lt lower)
  rcases (turnsAt_iff hl).1 hy with ⟨rfl, hs⟩ | ⟨hx, hs⟩ <;>
    rcases (turnsAt_iff hl).1 hz with ⟨rfl, hr⟩ | ⟨hw, hr⟩
  · rfl
  · exact absurd hs (other hw hr)
  · exact absurd hr (other hx hs)
  · exact Trail.endedBy_injective allowed hs hr rfl

end Spots

section Program

variable (hn : n ∈ t.nodes) (hp : p ∈ ofEvents n.events)

include hn hp

theorem mem_nodes_of_runs (hL : p.owner.Runs (fun _ _ => True) L) : L ∈ t.nodes := by
  have howner := owner_mem hn hp
  exact Tree.mem_nodes_trans howner (mem_preorder_of_runs hL (t.isGrammatical_of_mem howner))

/-- The looped edges of a code path are the edges back of its loops. -/
theorem mem_loopedEdges_iff : (j, k) ∈ p.loopedEdges ↔ ∃ L s target,
    p.owner.Runs (fun _ _ => True) L ∧ L.TurnsBack n.events s target ∧ s.id = j ∧ target.id = k := by
  have howner := t.isGrammatical_of_mem (owner_mem hn hp)
  obtain ⟨before, upper, paths, later, hevents, hfold⟩ := exists_block hn hp
  have walked := walked_of_block n.events_allowed.1 hevents
  rw [← hfold] at walked
  have here := at_entry n.events_allowed.1 hevents
  have inside : before ++ [.pathStart (.ordinal (paths + 1)) p.owner upper,
      .segment (entry paths).current] ++ (p.owner.walked paths).1 <+: n.events := by
    rw [hevents, Node.ownEvents]
    simp
  have caught := catchesIn_programFlow hn howner here inside
  have within : ∀ e ∈ own 0 (p.owner.walked paths).1, e ∈ n.events := fun e he =>
    inside.subset (List.mem_append_right _ ((own_sublist 0 _).subset he))
  rw [walked.mem_loopedEdges hp within]
  have back (s target : Segment) : .backEdge s target ∈ own 0 (p.owner.walked paths).1 ↔
      ∃ L, p.owner.Runs (fun _ _ => True) L ∧ L.TurnsBack n.events s target := by
    rw [Node.walked, caught.back]
    simp only [alone, reduceCtorEq, false_and, and_false, false_or]
    exact exists_congr fun L => and_congr_left fun turns =>
      (runs_iff_placed howner (loop?_of_turnsBack turns)).symm
  constructor
  · rintro ⟨s, target, hmem, rfl, rfl⟩
    obtain ⟨L, hruns, turns⟩ := (back s target).1 hmem
    exact ⟨L, s, target, hruns, turns, rfl, rfl⟩
  · rintro ⟨L, s, target, hruns, turns, rfl, rfl⟩
    exact ⟨s, target, (back s target).2 ⟨L, hruns, turns⟩, rfl, rfl⟩

theorem exists_at_loop (hruns : p.owner.Runs (fun _ _ => True) L) (hl : L.loop? = some l) :
    ∃ done around q, done ++ ((l.flow.walk around q).1 ++ [.exit L]) <+: n.events ∧
      At done around q ∧ around.path = p.id ∧ CatchesLoop n.events around l q := by
  have hloop := t.isGrammatical_of_mem (mem_nodes_of_runs hn hp hruns)
  obtain ⟨done, around, q, hevents, here, hpath, -⟩ :=
    exists_at_of_runs hn hp (List.nil_subset _) (by simp [HandsOn]) hruns
  obtain ⟨f, before, -, same, -, place⟩ := exists_loopFlow hloop hl
  let r := (f.walk around q).2
  have inner : L.innerFlow.walk around q =
      ((f.walk around q).1 ++ (l.flow.walk around r).1, (l.flow.walk around r).2) := same around q
  rw [walk_flow, inner] at hevents
  have spot : At (done ++ [.enter L] ++ (f.walk around q).1) around r :=
    At.walk (f := f) (here.walk (.enter L))
  have plain := isClause_of_mem_loop hloop hl
  rw [← inPlace_of_plain (isFunctionLike_of_loop? hl)] at plain
  refine ⟨_, around, r, List.IsPrefix.trans ?_ hevents, spot, hpath, ?_⟩
  · simp
  · refine catchesLoop (fun c hc => ?_) spot (List.IsPrefix.trans ?_ hevents)
    · have mem := (place c).2 (List.mem_append_right _ hc)
      have caught := catchesIn_placedFlow hn
        (isGrammatical_of_part hloop (List.mem_append_left _ mem))
      rwa [placedFlow, if_neg (by simp [plain c mem])] at caught
    · simp

/-- A `continue` leads back to the loop that binds it, if it can be reached. -/
theorem turnedBy_of_binds {x : Node} (hruns : p.owner.Runs (fun _ _ => True) L)
    (hl : L.loop? = some l) (hx : l.Binds .continueLoop x) (hs : EndedBy n.events s x)
    (alive : s.isReachable = true) (ht : l.StartsAt n.events target) :
    TurnedBy n.events target x := by
  have hloop := t.isGrammatical_of_mem (mem_nodes_of_runs hn hp hruns)
  have plain : ∀ c ∈ l.body, c.isClause = false :=
    fun c hc => isClause_of_mem_loop hloop hl c (body_subset_children hl hc)
  obtain ⟨done, around, q, hevents, -, -, caught⟩ := exists_at_loop hn hp hruns hl
  have within : done ++ (l.flow.walk around q).1 <+: n.events :=
    List.IsPrefix.trans (by simp) hevents
  obtain rfl := GrammaticalTree.startsAt_unique hn ht (startsAt_loopStart within)
  obtain ⟨r, jumps, -⟩ := caught.body.ended .continueLoop x ((binds_iff_loose plain).1 hx)
  obtain rfl := GrammaticalTree.endedBy_unique hn hs jumps.ended
  exact jumps.turned rfl alive _ rfl

/-- An edge leads to the segment behind a loop just from those that it comes behind. -/
theorem leads_behind_iff {z : Segment} (hz : ComesBehind n.events L z) (hpath : z.id.path = p.id) :
    p.Leads j z.id ↔ j ∈ z.previous := by
  obtain ⟨-, well⟩ := wellDrawn_ofEvents n.events_allowed.1 p hp
  obtain ⟨done, later, hdone⟩ := hz
  have started : .segment z ∈ n.events := by simp [hdone]
  constructor
  · rintro ⟨mark, hmark⟩
    cases mark with
    | false =>
      obtain ⟨s, hs, hid, hj⟩ := (well.forward j z.id).1 hmark
      have mem : .segment s ∈ n.events := mem_segments.1 (List.mem_filter.1 hs).1
      obtain rfl := Trail.segment_unique n.events_allowed.1 mem started hid
      exact hj
    | true =>
      -- An edge back leads to where a head starts, and there nothing is left.
      obtain ⟨M, s, target, -, turns, -, hid⟩ :=
        (mem_loopedEdges_iff hn hp).1 (CodePath.mem_loopedEdges.2 hmark)
      obtain ⟨m, -, first, rest, hfirst⟩ := turns.start
      obtain ⟨-, -, same⟩ := Trail.segment_split_unique n.events_allowed.1 hfirst hdone hid
      exact absurd (List.head_eq_of_cons_eq same) (by simp)
  · intro hj
    have mem : z ∈ created p.id n.events :=
      List.mem_filter.2 ⟨mem_segments.2 started, by simpa using hpath⟩
    exact ⟨false, (well.forward j z.id).2 ⟨z, mem, rfl, hj⟩⟩

theorem exists_joins (hruns : p.owner.Runs (fun _ _ => True) L) (hl : L.loop? = some l) :
    ∃ first behind, p.Joins n.events L l first behind := by
  have hloop := t.isGrammatical_of_mem (mem_nodes_of_runs hn hp hruns)
  have plain : ∀ c ∈ l.body, c.isClause = false :=
    fun c hc => isClause_of_mem_loop hloop hl c (body_subset_children hl hc)
  obtain ⟨done, around, q, hevents, here, hpath, caught⟩ := exists_at_loop hn hp hruns hl
  have within : done ++ (l.flow.walk around q).1 <+: n.events :=
    List.IsPrefix.trans (by simp) hevents
  have start := at_loopStart here
  have bodyEnd := (at_loopTurn l.head.flow here).walk (Flow.sequence (l.body.map Node.flow))
  have elseEnd := (at_loopExit l.head.flow (Flow.sequence (l.body.map Node.flow)) here).walk
    (Flow.sequence (l.orelse.map Node.flow))
  have after := here.walk l.flow
  have path {e : List Event} {a : Surroundings} {r : Spot} (hr : At e a r)
      (ha : a.path = around.path := by rfl) : r.current.id.path = p.id :=
    (congrArg SegmentId.path hr.current_id).trans (ha.trans hpath)
  have starts := startsAt_loopStart within
  have comes : ComesBehind n.events L (l.flow.walk around q).2.current := by
    obtain ⟨later, hlater⟩ := hevents
    obtain ⟨first, hfirst⟩ : ∃ first, (l.flow.walk around q).1 =
        first ++ [.segment (l.flow.walk around q).2.current] :=
      ⟨_, (congrArg Prod.fst (walk_loop ..)).trans rfl⟩
    rw [hfirst] at hlater
    exact ⟨done ++ first, later, hlater.symm.trans (by simp)⟩
  refine ⟨(loopStart around q).current, (l.flow.walk around q).2.current, ⟨starts, path start⟩,
    ⟨comes, path after⟩, ⟨_, bodyEndsAt_loopEnd here within, path bodyEnd⟩,
    ⟨_, elseEndsAt_loopElse here hevents, path elseEnd⟩, fun k x hx => ?_, fun j => ?_,
    fun y z s r => turnsAt_injective hn hl plain here within caught, fun j => ?_⟩
  · obtain ⟨s, jumps, -⟩ := caught.body.ended k x ((binds_iff_loose plain).1 hx)
    exact ⟨s, jumps.ended, jumps.path.trans hpath⟩
  · rw [mem_loopedEdges_iff hn hp]
    constructor
    · rintro ⟨M, s, target, hM, ⟨alive, ⟨m, hm, ht⟩, y, turns⟩, rfl, hid⟩
      obtain rfl := Tree.eq_of_startsAt (mem_nodes_of_runs hn hp hM)
        (mem_nodes_of_runs hn hp hruns) hm hl ht starts hid
      exact ⟨y, s, turns, alive, rfl⟩
    · rintro ⟨y, s, turns, alive, rfl⟩
      exact ⟨L, s, _, hruns, ⟨alive, ⟨l, hl, starts⟩, y, turns⟩, rfl, rfl⟩
  · rw [leads_behind_iff hn hp comes (path after)]
    exact mem_previous_loopAfter hn hl plain here hevents caught

end Program

/-- All edges back of a walk, each once. -/
theorem nodup_flatMap_loopedEdges {events : List Event} (he : Trail.empty.AllowsAll events) :
    ((ofEvents events).flatMap loopedEdges).Nodup := by
  refine List.nodup_flatMap.2 ⟨fun p hp => nodup_loopedEdges he hp, ?_⟩
  have path {p : CodePath} (hp : p ∈ ofEvents events) {e : SegmentId × SegmentId}
      (hmem : e ∈ p.loopedEdges) : e.1.path = p.id := by
    obtain ⟨hc, well⟩ := wellDrawn_ofEvents he p hp
    obtain ⟨v, hv, hid, -⟩ := mem_successors.1 (CodePath.mem_loopedEdges.1 hmem)
    have known : e.1 ∈ (created p.id events).map (·.id) := well.ids ▸ hid ▸ List.mem_map_of_mem hv
    obtain ⟨s, hs, hsid⟩ := List.mem_map.1 known
    exact hsid ▸ hc.successive.path_eq s (List.mem_reverse.2 hs)
  refine (List.pairwise_map.1 (Trail.drawn_ofEvents he).nodup_ids).imp_of_mem ?_
  intro p q hp hq apart e inFirst inSecond
  exact apart ((path hp inFirst).symm.trans (path hq inSecond))

end CodePath

end LostUpdate
