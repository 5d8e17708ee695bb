import LostUpdate.Proofs.Walk.DeadCode
import LostUpdate.Proofs.Walk.Inside
import LostUpdate.Proofs.Walk.Moments

namespace LostUpdate

namespace Walk

/-- Where the walk of a code path starts, when `paths` have started before it. -/
def entry (paths : ℕ) : Spot := ⟨⟨⟨.ordinal (paths + 1), 1⟩, [], true⟩, 1, paths + 1, [], [], []⟩

/-- What surrounds the code of a path: no loop. -/
def alone (paths : ℕ) : Surroundings := ⟨.ordinal (paths + 1), none⟩

end Walk

namespace Node

open Walk

variable {n f : Node}

def walked (f : Node) (paths : ℕ) : List Event × Spot :=
  f.programFlow.walk (alone paths) (entry paths)

/-- What happens in the path of a node's code once it has started. -/
def ownEvents (f : Node) (paths : ℕ) : List Event :=
  .segment (entry paths).current :: (f.walked paths).1 ++
    [.pathEnd (.ordinal (paths + 1)) f (f.walked paths).2.returned (f.walked paths).2.thrown]

theorem walked_moves (f : Node) (paths : ℕ) :
    Moves (entry paths) (f.walked paths).1 (f.walked paths).2 :=
  Flow.walk_moves (alone paths) f.programFlow (entry paths)

theorem ownPath_eq (upper : Option PathId) (f : Node) (paths : ℕ) :
    (ownPath upper f (fun inside => f.programFlow.walk inside) paths).1 =
      .pathStart (.ordinal (paths + 1)) f upper :: f.ownEvents paths :=
  rfl

theorem not_framing_of_functionLike (hl : f.isFunctionLike = true) :
    f.isSignature = false ∧ f.isClause = false := by
  cases hform : f.form <;>
    simp_all [isFunctionLike, Form.isFunctionLike, isSignature, isClause]

section Grammatical

variable (h : n.isGrammatical = true)

include h

/-- The walk of a program enters all its functions, but for those that run before it. -/
theorem exists_enter (hf : f ∈ n.preorder) (hne : f ≠ n) (hl : f.isFunctionLike = true)
    (hh : n.isFunctionLike = true → f ∉ n.heading.flatMap preorder) :
    ∃ owners, (owners, Stop.enter f) ∈ Event.visits [] n.events := by
  have plain := not_framing_of_functionLike hl
  rw [visits_events, programFlow]
  by_cases hn : n.isFunctionLike = true
  · have parts := (preorder_parts h).mem_iff.1 hf
    rw [inPlace, if_pos hn, List.flatMap_append, List.cons_append, List.mem_cons, List.mem_append,
      List.mem_append, List.mem_flatMap, List.mem_flatMap] at parts
    have inside : ∃ c ∈ n.ownCode, f ∈ c.preorder := by
      rcases parts with rfl | hframing | hheading | hown
      · exact absurd rfl hne
      · rcases framing_cases h hframing with hs | hs <;> simp [hs] at plain
      · exact absurd (List.mem_flatMap.2 hheading) (hh hn)
      · exact hown
    obtain ⟨c, hc, hfc⟩ := inside
    obtain ⟨owners, henter, -⟩ := mem_visits_flow [n]
      (isGrammatical_of_part h (List.mem_append_right _ hc)) hfc plain.1
    refine ⟨owners, List.mem_cons_of_mem _ ?_⟩
    rw [if_pos hn, (visits_bodyFlow [n] h hn).mem_iff]
    exact List.mem_append_right _ (List.mem_flatMap.2 ⟨c, hc, henter⟩)
  · obtain ⟨owners, henter, -⟩ := mem_visits_flow [n] h hf plain.1
    refine ⟨owners, List.mem_cons_of_mem _ ?_⟩
    rwa [if_neg hn]

/-- The walk of a program starts a code path for the program itself, and for functions that it
enters. -/
theorem enter_of_start {owners : List Node}
    (hv : (owners, Stop.start f) ∈ Event.visits [] n.events) : f = n ∨ f.isFunctionLike = true ∧
      ∃ os, (os, Stop.enter f) ∈ Event.visits [] n.events := by
  rw [visits_events, List.mem_cons] at hv
  rcases hv with hv | hv
  · exact .inl (by simpa using (Prod.mk.inj hv).2)
  have part {c : Node} (hc : c.isGrammatical = true)
      (hv : (owners, Stop.start f) ∈ c.flow.visits [n]) : f.isFunctionLike = true ∧
        ∃ os, (os, Stop.enter f) ∈ c.flow.visits [n] := by
    have hl := isFunctionLike_of_start hc hv
    obtain ⟨os, henter, -⟩ := mem_visits_flow [n] hc
      (mem_preorder_of_visit Stop.shows_started? hc hv rfl) (not_framing_of_functionLike hl).1
    exact ⟨hl, os, henter⟩
  rw [visits_events, programFlow]
  rw [programFlow] at hv
  by_cases hn : n.isFunctionLike = true
  · rw [if_pos hn] at hv ⊢
    rw [(visits_bodyFlow [n] h hn).mem_iff, List.mem_append, List.mem_flatMap] at hv
    rcases hv with hv | ⟨c, hc, hv⟩
    · simp [clauseVisits] at hv
    · obtain ⟨hl, os, henter⟩ := part (isGrammatical_of_part h (List.mem_append_right _ hc)) hv
      refine .inr ⟨hl, os, List.mem_cons_of_mem _ ?_⟩
      rw [(visits_bodyFlow [n] h hn).mem_iff]
      exact List.mem_append_right _ (List.mem_flatMap.2 ⟨c, hc, henter⟩)
  · rw [if_neg hn] at hv ⊢
    obtain ⟨hl, os, henter⟩ := part h hv
    exact .inr ⟨hl, os, List.mem_cons_of_mem _ henter⟩

/-- Where the walk of a program enters a function, it walks the function's code in one block. -/
theorem exists_own_block (hl : f.isFunctionLike = true) {owners : List Node}
    (henter : (owners, Stop.enter f) ∈ Event.visits [] n.events) :
    ∃ upper paths, .pathStart (.ordinal (paths + 1)) f upper :: f.ownEvents paths <:+: n.events := by
  have piece := (piece_of_enter_events h henter (not_framing_of_functionLike hl).2).trans
    (piece_codePath owners hl)
  obtain ⟨around, p, hblock⟩ := piece.walk_block (alone 0) (entry 0)
  have body : (n.walked 0).1 <:+: n.events := ⟨[_, _], [_], rfl⟩
  refine ⟨some around.path, p.paths, ?_⟩
  rw [← ownPath_eq, programFlow, if_pos hl]
  exact hblock.trans body

end Grammatical

end Node

namespace CodePath

variable {t : GrammaticalTree} {n : Node} {p : CodePath}

theorem started_of_mem_ofEvents (hp : p ∈ ofEvents n.events) :
    p.owner ∈ Event.nodes Stop.started? n.events := by
  obtain ⟨before, id, owner, upper, later, hsplit, rfl⟩ := mem_ofEvents.1 hp
  rw [owner_foldl, hsplit, Event.nodes_append, Event.nodes_cons]
  exact List.mem_append_right _ (List.mem_append_left _ List.mem_cons_self)

theorem owner_mem (hn : n ∈ t.nodes) (hp : p ∈ ofEvents n.events) : p.owner ∈ t.nodes :=
  GrammaticalTree.mem_nodes_of_event hn Stop.shows_started? (started_of_mem_ofEvents hp)

/-- A code path is what the walk of its owner's code makes of it. -/
theorem exists_block (hn : n ∈ t.nodes) (hp : p ∈ ofEvents n.events) :
    ∃ before upper paths later,
      n.events = before ++
        .pathStart (.ordinal (paths + 1)) p.owner upper :: (p.owner.ownEvents paths ++ later) ∧
      p = (p.owner.ownEvents paths ++ later).foldl keep
        (start (.ordinal (paths + 1)) p.owner upper) := by
  have hg := t.isGrammatical_of_mem hn
  have visited := started_of_mem_ofEvents hp
  obtain ⟨before, id, owner, upper, later, hsplit, rfl⟩ := mem_ofEvents.1 hp
  rw [owner_foldl] at visited ⊢
  change owner ∈ _ at visited
  rw [← Event.nodes_visits Stop.started? []] at visited
  obtain ⟨⟨owners, stop⟩, hvisit, hstop⟩ := List.mem_filterMap.1 visited
  obtain rfl : stop = .start owner := by cases stop <;> simp_all [Stop.started?]
  obtain ⟨above, paths, first, last, hblock⟩ : ∃ above paths,
      .pathStart (.ordinal (paths + 1)) owner above :: owner.ownEvents paths <:+: n.events := by
    rcases Node.enter_of_start hg hvisit with rfl | ⟨hl, os, henter⟩
    · exact ⟨none, 0, List.infix_rfl⟩
    · exact Node.exists_own_block hg hl henter
  -- The walk starts the path of a node once only.
  have distinct := GrammaticalTree.nodup_events hn Stop.shows_started?
  rw [hsplit] at distinct hblock
  rw [List.append_assoc, List.cons_append] at hblock
  obtain ⟨-, hstart, rfl⟩ := split_unique distinct hblock.symm rfl rfl
  obtain ⟨rfl, rfl⟩ : id = .ordinal (paths + 1) ∧ upper = above := by simpa using hstart
  exact ⟨before, upper, paths, last, hsplit, rfl⟩

end CodePath

namespace Trail

variable {events : List Event} {s q : Segment}

theorem segment_unique (he : empty.AllowsAll events) (hs : .segment s ∈ events)
    (hq : .segment q ∈ events) (h : s.id = q.id) : s = q := by
  have known := (knows_empty.after consistent_empty he).nodup
  rw [List.nil_append] at known
  exact List.inj_on_of_nodup_map known (Event.mem_segments.2 hs) (Event.mem_segments.2 hq) h

/-- Nothing comes before a segment that cannot be reached. -/
theorem previous_of_dead (he : empty.AllowsAll events) (hs : .segment s ∈ events)
    (hd : s.isReachable = false) : s.previous = [] := by
  obtain ⟨before, later, rfl⟩ := List.append_of_mem hs
  obtain ⟨p, rest, -, continues⟩ := (allowsAll_append.1 he).2.1
  by_contra some
  exact absurd (continues.reachable.2 (.inr some)) (by simp [hd])

/-- An edge back leads from a reachable segment to one of the walk. -/
theorem segment_of_backEdge {source target : Segment} (he : empty.AllowsAll events)
    (hb : .backEdge source target ∈ events) :
    source.isReachable = true ∧ .segment target ∈ events := by
  obtain ⟨before, later, rfl⟩ := List.append_of_mem hb
  obtain ⟨hbefore, hnext⟩ := allowsAll_append.1 he
  obtain ⟨p, rest, earlier, hopened, hsegments, alive, htarget⟩ := hnext.1
  have known := (knows_empty.after consistent_empty hbefore).own p (hopened ▸ List.mem_cons_self)
    target
  have mem := (known.1 (hsegments ▸ List.mem_cons_of_mem _ htarget)).1
  exact ⟨alive, List.mem_append_left _ (Event.mem_segments.1 mem)⟩

/-- An edge leads to a segment that can be reached, if edges back do. -/
theorem isReachable_of_draws {e : Event} {path : PathId} {j : SegmentId}
    (he : empty.AllowsAll events) (hmem : e ∈ events) (hs : .segment s ∈ events)
    (hback : ∀ source target, e = .backEdge source target → target.isReachable = true)
    (hd : e.Draws path j s.id) : s.isReachable = true := by
  cases e with
  | segment t =>
    obtain ⟨-, hid, hprev⟩ := hd
    obtain rfl := segment_unique he hs hmem hid
    by_contra dead
    rw [previous_of_dead he hs (by simpa using dead)] at hprev
    exact absurd hprev List.not_mem_nil
  | backEdge source target =>
    obtain ⟨-, -, -, hid⟩ := hd
    obtain rfl := segment_unique he hs (segment_of_backEdge he hmem).2 hid
    exact hback source s rfl
  | pathStart | enter | exit | pathEnd => exact hd.elim

end Trail

theorem Event.own_sublist (depth : ℕ) (events : List Event) : (own depth events).Sublist events := by
  fun_induction own depth events with
  | case1 => exact List.Sublist.slnil
  | case2 _ _ _ _ _ ih => exact ih.cons _
  | case3 => exact (List.nil_sublist _).cons_cons _
  | case4 _ _ _ _ _ _ ih => exact ih.cons _
  | case5 _ _ _ _ ih => exact ih.cons_cons _
  | case6 _ _ _ _ _ ih => exact ih.cons _

namespace CodePath

open Walk Event

/-- What the walk of a node's code tells of the path that it makes. -/
structure Walked (p : CodePath) (f : Node) (events : List Event) (paths : ℕ) : Prop where
  initial : p.initial? = some (entry paths).current.id
  current : p.current = [(f.walked paths).2.current]
  returned : p.returned = (f.walked paths).2.returned
  thrown : p.thrown = (f.walked paths).2.thrown
  leads : ∀ j k, p.Leads j k ↔ ∃ e ∈ own 0 (f.walked paths).1, e.Draws p.id j k
  belongs : ∀ e ∈ own 0 (f.walked paths).1, e.Belongs p.id
  returns : ∀ source target, .backEdge source target ∈ own 0 (f.walked paths).1 →
    source.isReachable = true
  told : (Point.mk (entry paths).current []).Told (Trail.empty.entered · events)
    (own 0 (f.walked paths).1)
  last : Trail.empty.entered (f.walked paths).2.current.id events =
    ((Point.mk (entry paths).current []).after (own 0 (f.walked paths).1)).names
  dead : ∀ s, .segment s ∈ own 0 (f.walked paths).1 → s.isReachable = false →
    s.id ≠ (entry paths).current.id ∧ ∀ j, ¬ p.Leads j s.id

theorem current_foldl {p : CodePath} {events : List Event} (h : ∀ e ∈ events, e.Belongs p.id)
    {x : Point} (hx : p.current = [x.segment]) :
    (events.foldl keep p).current = [(x.after events).segment] := by
  induction events generalizing p x with
  | nil => exact hx
  | cons e events ih =>
    obtain ⟨here, rest⟩ := List.forall_mem_cons.1 h
    rw [List.foldl_cons]
    refine ih (by simpa using rest) (x := x.record e) ?_
    cases e with
    | segment s =>
      rw [keep, if_pos (Eq.symm here)]
      rfl
    | backEdge source target =>
      simp only [keep, addLoopedEdge]
      split_ifs <;> exact hx
    | pathEnd =>
      simp only [keep]
      split_ifs <;> exact hx
    | pathStart => exact here.elim
    | enter | exit => exact hx

/-- A path that has just started its first segment has no edges. -/
theorem not_leads_first {id : PathId} {owner : Node} {upper : Option PathId} {s : Segment}
    (hs : s.previous = []) (j k : SegmentId) :
    ¬ ((start id owner upper).keep (.segment s)).Leads j k := by
  rw [leads_keep]
  rintro (⟨looped, h⟩ | ⟨-, -, h⟩)
  · simp [start, successors] at h
  · simp [hs] at h

section Block

variable {f : Node} {paths : ℕ} {upper : Option PathId} {before later events : List Event}

/-- The path of a node's code starts, and its first segment. -/
def opening (f : Node) (paths : ℕ) (upper : Option PathId) : List Event :=
  [.pathStart (.ordinal (paths + 1)) f upper, .segment (entry paths).current]

/-- The path of a node's code ends. -/
def closing (f : Node) (paths : ℕ) : Event :=
  .pathEnd (.ordinal (paths + 1)) f (f.walked paths).2.returned (f.walked paths).2.thrown

/-- The path of a node's code as its own events make it, before it ends. -/
def made (f : Node) (paths : ℕ) (upper : Option PathId) : CodePath :=
  (own 0 (f.walked paths).1).foldl keep
    ((start (.ordinal (paths + 1)) f upper).keep (.segment (entry paths).current))

theorem id_made : (made f paths upper).id = .ordinal (paths + 1) :=
  (id_foldl _ _).trans (id_keep _ _)

theorem initial?_made : (made f paths upper).initial? = some (entry paths).current.id :=
  initial?_foldl (by simp [keep, start, startSegment, insert, initial?, touch, entry]) _

theorem current_made (h : ∀ e ∈ own 0 (f.walked paths).1, e.Belongs (.ordinal (paths + 1))) :
    (made f paths upper).current = [(f.walked paths).2.current] := by
  let first := (start (.ordinal (paths + 1)) f upper).keep (.segment (entry paths).current)
  have inFirst : ∀ e ∈ own 0 (f.walked paths).1, e.Belongs first.id :=
    fun e he => (id_keep (start (.ordinal (paths + 1)) f upper) _).symm ▸ h e he
  have last := current_foldl inFirst (x := ⟨(entry paths).current, []⟩)
    (by simp [first, keep, start, entry, startSegment, insert])
  exact last.trans (congrArg ([·]) ((f.walked_moves paths).current _ rfl))

theorem leads_made (j k : SegmentId) : (made f paths upper).Leads j k ↔
    ∃ e ∈ own 0 (f.walked paths).1, e.Draws (.ordinal (paths + 1)) j k := by
  rw [made, leads_foldl, or_iff_right (not_leads_first rfl j k), id_keep]
  rfl

/-- What is open once the first segment of a node's code has started. -/
theorem inside_block : (Trail.empty.after (before ++ opening f paths upper)).Inside
    ⟨.ordinal (paths + 1), f, [(entry paths).current]⟩ 0 :=
  ⟨[], (Trail.empty.after before).opened,
    by simp [opening, Trail.after_append, Trail.record], rfl⟩

theorem own_block : own 0 ((f.walked paths).1 ++ closing f paths :: later) =
    own 0 (f.walked paths).1 ++ [closing f paths] :=
  (f.walked_moves paths).level _

variable (he : Trail.empty.AllowsAll
  ((before ++ opening f paths upper) ++ ((f.walked paths).1 ++ closing f paths :: later)))

include he

theorem belongs_block : ∀ e ∈ own 0 (f.walked paths).1, e.Belongs (.ordinal (paths + 1)) := by
  obtain ⟨hfirst, hnext⟩ := Trail.allowsAll_append.1 he
  have own := inside_block.belongs (Trail.consistent_empty.after hfirst) hnext
  rw [own_block] at own
  exact fun e he => own e (List.mem_append_left _ he)

/-- The path of a block is made of its own events, the last of which tells what has left. -/
theorem foldl_keep_block :
    (f.ownEvents paths ++ later).foldl keep (start (.ordinal (paths + 1)) f upper) =
      { made f paths upper with
        returned := (f.walked paths).2.returned, thrown := (f.walked paths).2.thrown } := by
  obtain ⟨hfirst, hnext⟩ := Trail.allowsAll_append.1 he
  let first := (start (.ordinal (paths + 1)) f upper).keep (.segment (entry paths).current)
  have own := inside_block.foldl_keep (p := first) (Trail.consistent_empty.after hfirst) hnext
    (id_keep _ _)
  rw [own_block] at own
  calc (f.ownEvents paths ++ later).foldl keep (start (.ordinal (paths + 1)) f upper)
      = ((f.walked paths).1 ++ closing f paths :: later).foldl keep first := by
        simp [Node.ownEvents, first, closing]
    _ = (Event.own 0 (f.walked paths).1 ++ [closing f paths]).foldl keep first := own
    _ = (made f paths upper).keep (closing f paths) := List.foldl_append
    _ = _ := if_pos id_made

/-- The names in the segments of a block are those that its own events enter. -/
theorem told_block :
    let contents : Contents := (Trail.empty.entered ·
      ((before ++ opening f paths upper) ++ ((f.walked paths).1 ++ closing f paths :: later)))
    (Point.mk (entry paths).current []).Told contents (own 0 (f.walked paths).1) ∧
      contents (f.walked paths).2.current.id =
        ((Point.mk (entry paths).current []).after (own 0 (f.walked paths).1)).names := by
  intro contents
  let x : Point := ⟨(entry paths).current, []⟩
  have none : Trail.empty.entered x.segment.id (before ++ opening f paths upper) = [] := by
    have split : before ++ opening f paths upper =
        (before ++ [.pathStart (.ordinal (paths + 1)) f upper]) ++ [.segment x.segment] := by
      simp [opening, x]
    rw [split]
    exact Trail.entered_started (split ▸ (Trail.allowsAll_append.1 he).1)
  obtain ⟨told, last⟩ := inside_block.told (x := x) he rfl none.symm fun _ => rfl
  have unchanged : x.after (own 0 (f.walked paths).1 ++ [closing f paths]) =
      x.after (own 0 (f.walked paths).1) := by
    rw [Point.after_append]
    simp [Point.after, Point.record, Event.names, closing]
  rw [own_block] at told last
  rw [unchanged, (f.walked_moves paths).current x rfl] at last
  exact ⟨(Point.told_append.1 told).1, last⟩

end Block

theorem walked_of_block {events before later : List Event} {upper : Option PathId} {f : Node}
    {paths : ℕ} (he : Trail.empty.AllowsAll events) (hevents : events = before ++
      .pathStart (.ordinal (paths + 1)) f upper :: (f.ownEvents paths ++ later)) :
    ((f.ownEvents paths ++ later).foldl keep (start (.ordinal (paths + 1)) f upper)).Walked f
      events paths := by
  have hsplit : events = (before ++ opening f paths upper) ++
      ((f.walked paths).1 ++ closing f paths :: later) := by
    simp [hevents, Node.ownEvents, opening, closing]
  have belongs := belongs_block (hsplit ▸ he)
  have told := told_block (hsplit ▸ he)
  have mem {e : Event} (h : e ∈ own 0 (f.walked paths).1) : e ∈ events := by
    rw [hsplit]
    exact List.mem_append_right _ (List.mem_append_left _ ((own_sublist 0 _).subset h))
  rw [← hsplit] at told
  rw [foldl_keep_block (hsplit ▸ he)]
  refine ⟨initial?_made, current_made belongs, rfl, rfl, fun j k => id_made ▸ leads_made j k,
    fun e he => id_made ▸ belongs e he,
    fun source target hb => (Trail.segment_of_backEdge he (mem hb)).1, told.1, told.2,
    fun r hr hdead => ⟨?_, fun j hj => ?_⟩⟩
  · intro same
    have started : Event.segment (entry paths).current ∈ events := by simp [hsplit, opening]
    obtain rfl := Trail.segment_unique he (mem hr) started same
    simp [entry] at hdead
  · obtain ⟨e, hmem, hdraws⟩ := (leads_made j r.id).1 hj
    have alive := Trail.isReachable_of_draws he (mem hmem) (mem hr) (fun source target same => ?_)
      hdraws
    · rw [alive] at hdead
      cases hdead
    · exact Flow.walk_returnsAlive (alone paths) f.programFlow (entry paths)
        (fun _ t ht => by simp [alone] at ht) source target ((own_sublist 0 _).subset (same ▸ hmem))

theorem exists_walked {t : GrammaticalTree} {n : Node} {p : CodePath} (hn : n ∈ t.nodes)
    (hp : p ∈ ofEvents n.events) :
    ∃ paths, p.Walked p.owner n.events paths := by
  obtain ⟨before, upper, paths, later, hevents, hfold⟩ := exists_block hn hp
  have walked := walked_of_block n.events_allowed.1 hevents
  rw [← hfold] at walked
  exact ⟨paths, walked⟩

end CodePath

end LostUpdate
