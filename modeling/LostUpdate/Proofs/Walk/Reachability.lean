import LostUpdate.Proofs.Walk.Blocks
import LostUpdate.Proofs.Walk.Drawing

namespace LostUpdate

open Relation

namespace Segment.Successive

variable {path : PathId} {segments : List Segment}

theorem isReachable_first (h : Successive path segments) {first : Segment}
    (hf : segments.getLast? = some first) : first.isReachable = true := by
  obtain ⟨later, rfl⟩ := List.getLast?_eq_some_iff.1 hf
  exact h.continues.reachable.2 (.inl rfl)

/-- From segment to segment behind one another, the first leads to each that can be reached. -/
theorem exists_chain (h : Successive path segments) {R : SegmentId → SegmentId → Prop}
    (hR : ∀ s ∈ segments, ∀ j ∈ s.previous, R j s.id) {s : Segment} (hs : s ∈ segments)
    (alive : s.isReachable = true) :
    ∃ first, segments.getLast? = some first ∧ ReflTransGen R first.id s.id := by
  induction segments generalizing s with
  | nil => exact absurd hs List.not_mem_nil
  | cons q earlier ih =>
    obtain ⟨continues, successive⟩ := h
    have before {r : Segment} (hr : r ∈ earlier) (alive : r.isReachable = true) :
        ∃ first, (q :: earlier).getLast? = some first ∧ ReflTransGen R first.id r.id := by
      obtain ⟨first, hfirst, chain⟩ :=
        ih successive (fun t ht => hR t (List.mem_cons_of_mem _ ht)) hr alive
      refine ⟨first, ?_, chain⟩
      rw [List.getLast?_cons_of_ne_nil (List.ne_nil_of_mem hr)]
      exact hfirst
    rcases List.mem_cons.1 hs with rfl | hs
    · rcases continues.reachable.1 alive with rfl | some
      · exact ⟨s, rfl, .refl⟩
      · obtain ⟨j, hj⟩ := List.exists_mem_of_ne_nil _ some
        obtain ⟨r, hr, alive, rfl⟩ := continues.previous j hj
        obtain ⟨first, hfirst, chain⟩ := before hr alive
        exact ⟨first, hfirst, chain.tail (hR s List.mem_cons_self _ hj)⟩
    · exact before hs alive

end Segment.Successive

namespace CodePath

open Event

variable {p : CodePath} {s : Segment} {j k : SegmentId}

/-- An edge leads from a segment that can be reached. -/
theorem WellDrawn.exists_source {created : List Segment} (h : p.WellDrawn created)
    (hl : p.Leads j k) : ∃ q ∈ created, q.isReachable = true ∧ q.id = j := by
  obtain ⟨looped, drawn⟩ := hl
  cases looped with
  | false =>
    obtain ⟨s, hs, -, hj⟩ := (h.forward j k).1 drawn
    obtain ⟨earlier, later, rfl⟩ := List.append_of_mem hs
    obtain ⟨q, hq, alive⟩ := (h.previous earlier s later rfl).2 j hj
    exact ⟨q, List.mem_append_left _ hq, alive⟩
  | true =>
    obtain ⟨earlier, source, later, rfl, alive, hid, -⟩ := h.looped j k drawn
    exact ⟨source, by simp, alive, hid⟩

theorem WellDrawn.initial? {created : List Segment} (h : p.WellDrawn created) :
    p.initial? = created.head?.map (·.id) := by
  rw [CodePath.initial?, ← List.head?_map, h.ids, List.head?_map]

theorem mem_of_mem_created {id : PathId} {events : List Event} (hs : s ∈ created id events) :
    .segment s ∈ events :=
  Event.mem_segments.1 (List.mem_filter.1 hs).1

/-- An edge leads to a segment that can be reached. -/
theorem isReachable_of_leads {events : List Event} (he : Trail.empty.AllowsAll events)
    (hback : ReturnsAlive events) (hp : p ∈ ofEvents events) (hs : .segment s ∈ events)
    (hl : p.Leads j s.id) : s.isReachable = true := by
  obtain ⟨before, id, owner, upper, later, rfl, rfl⟩ := mem_ofEvents.1 hp
  rcases leads_foldl.1 hl with ⟨looped, none⟩ | ⟨e, hmem, hdraws⟩
  · simp [start, successors] at none
  · have mem : e ∈ before ++ .pathStart id owner upper :: later := by simp [hmem]
    exact Trail.isReachable_of_draws he mem hs (fun source target same => hback source target
      (same ▸ mem)) hdraws

/-- At every point of a walk, the segments of a path that can be reached are those to which edges
lead from its first segment; edges back to the head of a loop add none. No edge leads to or from any
other segment. -/
theorem isReachable_iff_chain {n : Node} {done : List Event} (h : done <+: n.events)
    (hp : p ∈ ofEvents done) (hs : s ∈ p.segments) : ∃ first, p.initial? = some first ∧
      (s.isReachable = true ↔ ReflTransGen (fun j k => (k, false) ∈ p.successors j) first s.id) ∧
      (s.isReachable = true ↔ ReflTransGen p.Leads first s.id) ∧
      (s.isReachable = false → p.successors s.id = [] ∧ ∀ j, ¬ p.Leads j s.id) := by
  obtain ⟨later, hlater⟩ := h
  have allowed : Trail.empty.AllowsAll done := by
    have whole := n.events_allowed.1
    rw [← hlater] at whole
    exact (Trail.allowsAll_append.1 whole).1
  have back : ReturnsAlive done := fun source target he =>
    n.events_returnsAlive source target (hlater ▸ List.mem_append_left _ he)
  obtain ⟨⟨-, -, successive⟩, well⟩ := wellDrawn_ofEvents allowed p hp
  rw [well.segments_eq] at hs
  have alive_of_leads {j : SegmentId} (hl : p.Leads j s.id) : s.isReachable = true :=
    isReachable_of_leads allowed back hp (mem_of_mem_created hs) hl
  obtain ⟨first, hfirst⟩ : ∃ first, (created p.id done).head? = some first := by
    cases hc : created p.id done with
    | nil => simp [hc] at hs
    | cons first rest => exact ⟨first, rfl⟩
  have start : (created p.id done).reverse.getLast? = some first := by rwa [List.getLast?_reverse]
  have mem : first ∈ created p.id done := List.mem_of_head? hfirst
  -- Along edges of either kind control comes from the first segment to `s` only if `s` is marked.
  have marked (chain : ReflTransGen p.Leads first.id s.id) : s.isReachable = true := by
    rcases chain.cases_tail with same | ⟨j, -, hl⟩
    · obtain rfl := Trail.segment_unique allowed (mem_of_mem_created hs) (mem_of_mem_created mem) same
      exact successive.isReachable_first start
    · exact alive_of_leads hl
  have forward (alive : s.isReachable = true) :
      ReflTransGen (fun j k => (k, false) ∈ p.successors j) first.id s.id := by
    have drawn : ∀ r ∈ (created p.id done).reverse, ∀ j ∈ r.previous,
        (r.id, false) ∈ p.successors j := fun r hr j hj =>
      (well.forward j r.id).2 ⟨r, List.mem_reverse.1 hr, rfl, hj⟩
    obtain ⟨q, hq, chain⟩ := successive.exists_chain
      (R := fun j k => (k, false) ∈ p.successors j) drawn (List.mem_reverse.2 hs) alive
    obtain rfl := Option.some.inj (start.symm.trans hq)
    exact chain
  have all (chain : ReflTransGen (fun j k => (k, false) ∈ p.successors j) first.id s.id) :
      ReflTransGen p.Leads first.id s.id :=
    ReflTransGen.mono (fun _ _ drawn => ⟨false, drawn⟩) _ _ chain
  refine ⟨first.id, by rw [well.initial?, hfirst]; rfl, ⟨forward, fun chain => marked (all chain)⟩,
    ⟨fun alive => all (forward alive), marked⟩, fun dead => ⟨?_, fun j hl => ?_⟩⟩
  · refine List.eq_nil_iff_forall_not_mem.2 fun e he => ?_
    obtain ⟨q, hq, alive, hid⟩ := well.exists_source (j := s.id) (k := e.1) ⟨e.2, he⟩
    obtain rfl := Trail.segment_unique allowed (mem_of_mem_created hq) (mem_of_mem_created hs) hid
    rw [dead] at alive
    cases alive
  · rw [alive_of_leads hl] at dead
    cases dead

end CodePath

namespace Once

/-- A loop that turns once at most, with code behind its end:

    while ready:
        break
        tick
-/
def root : Node :=
  .mk 0 none (.module [.mk 1 none (.whileLoop (.mk 2 none (.name "ready" .load))
    [.mk 3 none .breakStmt, .mk 4 none (.exprStmt (.mk 5 none (.name "tick" .load)))] [])])

end Once

/-- The code behind `break`, whose segment stands alone, and the end of the program. -/
theorem CodePath.isReachable_iff_chain_once :
    Once.root.events <+: Once.root.events ∧ ∃ p ∈ ofEvents Once.root.events,
      ∃ dead ∈ p.segments, ∃ last ∈ p.segments, ∃ first, p.initial? = some first ∧
        dead.isReachable = false ∧ p.successors dead.id = [] ∧ (∀ j, ¬ p.Leads j dead.id) ∧
        last.isReachable = true ∧
          ReflTransGen (fun j k => (k, false) ∈ p.successors j) first last.id := by
  have shape : (ofEvents Once.root.events).map (·.segments) = [[
      ⟨⟨.ordinal 1, 1⟩, [], true⟩, ⟨⟨.ordinal 1, 2⟩, [⟨.ordinal 1, 1⟩], true⟩,
      ⟨⟨.ordinal 1, 3⟩, [⟨.ordinal 1, 2⟩], true⟩, ⟨⟨.ordinal 1, 4⟩, [], false⟩,
      ⟨⟨.ordinal 1, 5⟩, [⟨.ordinal 1, 2⟩], true⟩,
      ⟨⟨.ordinal 1, 6⟩, [⟨.ordinal 1, 5⟩, ⟨.ordinal 1, 3⟩], true⟩]] := by
    cbv
  obtain ⟨p, rest, hp, hsegments, -⟩ := List.map_eq_cons_iff.1 shape
  have mem : p ∈ ofEvents Once.root.events := hp ▸ List.mem_cons_self
  have dead : ⟨⟨.ordinal 1, 4⟩, [], false⟩ ∈ p.segments := by simp [hsegments]
  have last : ⟨⟨.ordinal 1, 6⟩, [⟨.ordinal 1, 5⟩, ⟨.ordinal 1, 3⟩], true⟩ ∈ p.segments := by
    simp [hsegments]
  obtain ⟨-, -, -, -, alone⟩ := isReachable_iff_chain List.prefix_rfl mem dead
  obtain ⟨first, hfirst, forward, -, -⟩ := isReachable_iff_chain List.prefix_rfl mem last
  exact ⟨List.prefix_rfl, p, mem, _, dead, _, last, first, hfirst, rfl, (alone rfl).1, (alone rfl).2,
    rfl, forward.1 rfl⟩

end LostUpdate
