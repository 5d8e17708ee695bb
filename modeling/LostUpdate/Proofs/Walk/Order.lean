import LostUpdate.Proofs.Walk.Drawing
import LostUpdate.Proofs.Walk.Traversal

namespace LostUpdate

namespace CodePath

open Event

variable {p : CodePath} {created : List Segment}

/-- A path that is well drawn has its segments as vertices, and its forward edges lead to later
ones. -/
theorem WellDrawn.drawn (h : p.WellDrawn created)
    (hp : Segment.Successive p.id created.reverse) : Vertex.Drawn created.reverse p.vertices := by
  refine ⟨by rw [h.ids, List.map_reverse, List.reverse_reverse], fun v hv => ?_, fun v hv e he => ?_⟩
  · have labelled : (v.id, v.segment) ∈ created.map fun s => (s.id, some s) := by
      rw [← h.vertices]
      exact List.mem_map_of_mem hv
    obtain ⟨s, hs, same⟩ := List.mem_map.1 labelled
    obtain ⟨id_eq, segment_eq⟩ := Prod.mk.inj same
    exact ⟨s, List.mem_reverse.2 hs, segment_eq.symm, id_eq⟩
  · obtain ⟨k, mark⟩ := e
    have drawn : (k, mark) ∈ p.successors v.id := mem_successors.2 ⟨v, hv, rfl, he⟩
    rw [h.ids]
    cases mark with
    | false =>
      obtain ⟨s, hs, rfl, hj⟩ := (h.forward v.id k).1 drawn
      have lower := (hp.previous_lt s (List.mem_reverse.2 hs) v.id hj).2
      exact ⟨List.mem_map_of_mem hs, fun _ => lower⟩
    | true =>
      obtain ⟨earlier, source, later, rfl, -, -, target, ht, rfl⟩ := h.looped v.id k drawn
      exact ⟨List.mem_map_of_mem (List.mem_append_left _ ht), fun forward => by cases forward⟩

/-- At every point of a walk, each path that has started is traversed without a fault. All segments
created in it come, reachable or not, each of them once; and a segment comes before all those to which
an edge leads from it that is not looped. There are enough generations for this: with more of them
the order is the same. -/
theorem traverse_topological {n : Node} {done : List Event} (h : done <+: n.events)
    (hp : p ∈ ofEvents done) :
    ∃ l, p.traverse = .ok l ∧ l.Perm p.segments ∧ p.segments = Event.created p.id done ∧
      (l.map (·.id)).Nodup ∧
      (∀ u v, (v, false) ∈ p.successors u → [u, v].Sublist (l.map (·.id))) ∧
      ∀ fuel, p.vertices.length ≤ fuel →
        p.orderFrom fuel p.inDegrees ((p.inDegrees.filter (·.2 = 0)).map (·.1)) = p.order := by
  obtain ⟨later, hlater⟩ := h
  have allowed : Trail.empty.AllowsAll done := by
    have whole := n.events_allowed.1
    rw [← hlater] at whole
    exact (Trail.allowsAll_append.1 whole).1
  obtain ⟨hc, well⟩ := wellDrawn_ofEvents allowed p hp
  have drawn := well.drawn hc.successive
  have distinct : (p.vertices.map (·.id)).Nodup := by
    rw [drawn.ids, List.nodup_reverse]
    exact hc.successive.nodup_ids
  obtain ⟨l, traverses, ids, perm⟩ := exists_traverse drawn distinct
  have ordered := orders_order drawn distinct
  refine ⟨l, traverses, perm, well.segments_eq, ?_, fun u v edge => ?_, fun fuel enough => ?_⟩
  · rw [ids]
    exact ordered.distinct
  · obtain ⟨w, hw, rfl, he⟩ := mem_successors.1 edge
    have target : v ∈ targets w := List.mem_map.2 ⟨_, List.mem_filter.2 ⟨he, rfl⟩, rfl⟩
    rw [ids]
    exact ordered.forward w hw List.not_mem_nil v target
  · have length : (p.remaining []).length ≤ p.vertices.length :=
      Nat.le_trans (List.length_filter_le _ _) (by simp)
    obtain ⟨more, rfl⟩ := Nat.exists_eq_add_of_le enough
    have same := (p.advanced_inDegrees distinct).orderFrom_add drawn distinct _ more length
    rwa [← inDegrees_eq] at same

end CodePath

namespace Skip

/-- A program with an edge back and a segment that is never reached:

    while ready:
        continue
        tick
-/
def root : Node :=
  .mk 0 none (.module [.mk 1 none (.whileLoop (.mk 2 none (.name "ready" .load))
    [.mk 3 none .continueStmt, .mk 4 none (.exprStmt (.mk 5 none (.name "tick" .load)))] [])])

end Skip

/-- The segment behind `continue` comes in the first generation, and the edge back to the test does
not hold the body up. -/
theorem CodePath.traverse_topological_skip :
    let events := Skip.root.events
    events <+: events ∧ ∃ p ∈ ofEvents events, p.order.map (·.number) = [1, 4, 2, 3, 5, 6] ∧
      p.successors ⟨.ordinal 1, 3⟩ = [(⟨.ordinal 1, 2⟩, true)] ∧
      (⟨.ordinal 1, 3⟩, false) ∈ p.successors ⟨.ordinal 1, 2⟩ ∧
      ∃ l, p.traverse = .ok l ∧ l.Perm p.segments ∧
        [⟨.ordinal 1, 2⟩, ⟨.ordinal 1, 3⟩].Sublist (l.map (·.id)) := by
  intro events
  have within : events <+: events := List.prefix_rfl
  let shape : CodePath → List ℕ × List (SegmentId × Bool) × List (SegmentId × Bool) := fun p =>
    (p.order.map (·.number), p.successors ⟨.ordinal 1, 2⟩, p.successors ⟨.ordinal 1, 3⟩)
  have first : (ofEvents events)[0]?.map shape = some ([1, 4, 2, 3, 5, 6],
      [(⟨.ordinal 1, 3⟩, false), (⟨.ordinal 1, 5⟩, false)], [(⟨.ordinal 1, 2⟩, true)]) := by cbv
  obtain ⟨p, hp, hshape⟩ := Option.map_eq_some_iff.1 first
  obtain ⟨order, successors⟩ := Prod.mk.inj hshape
  obtain ⟨test, body⟩ := Prod.mk.inj successors
  have forward : (⟨.ordinal 1, 3⟩, false) ∈ p.successors ⟨.ordinal 1, 2⟩ := by
    rw [test]
    exact List.mem_cons_self
  have mem : p ∈ ofEvents events := List.mem_of_getElem? hp
  obtain ⟨l, traverses, perm, -, -, before, -⟩ := traverse_topological within mem
  exact ⟨within, p, mem, order, body, forward, l, traverses, perm, before _ _ forward⟩

end LostUpdate
