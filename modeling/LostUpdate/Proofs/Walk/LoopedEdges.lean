import LostUpdate.Proofs.Walk.Blocks
import LostUpdate.Proofs.Walk.Order

namespace LostUpdate

namespace CodePath

open Event

/-- No two edges of a vertex lead to the same one. -/
def Vertex.Simple (v : Vertex) : Prop := (v.successors.map (·.1)).Nodup

theorem nodup_setEdge {target : SegmentId} {looped : Bool} {edges : List (SegmentId × Bool)}
    (h : (edges.map (·.1)).Nodup) : ((setEdge target looped edges).map (·.1)).Nodup := by
  unfold setEdge
  split_ifs with known
  · have same : (edges.map fun e => if e.1 = target then (target, looped) else e).map (·.1) =
        edges.map (·.1) := by
      rw [List.map_map]
      refine List.map_congr_left fun e _ => ?_
      by_cases he : e.1 = target <;> simp [he]
    rwa [same]
  · rw [List.map_append, List.nodup_append]
    refine ⟨h, by simp, fun j hj k hk => ?_⟩
    obtain rfl : k = target := by simpa using hk
    rintro rfl
    simp_all

theorem simple_touch {id : SegmentId} {f : Vertex → Vertex} {vertices : List Vertex}
    (hf : ∀ v, Vertex.Simple v → Vertex.Simple (f v)) (h : ∀ v ∈ vertices, Vertex.Simple v) :
    ∀ v ∈ touch id f vertices, Vertex.Simple v := by
  unfold touch
  split_ifs
  · intro w hw
    obtain ⟨v, hv, rfl⟩ := List.mem_map.1 hw
    split_ifs
    · exact hf v (h v hv)
    · exact h v hv
  · intro w hw
    rcases List.mem_append.1 hw with hw | hw
    · exact h w hw
    · obtain rfl := List.mem_singleton.1 hw
      exact hf _ List.nodup_nil

theorem simple_connect {source target : SegmentId} {looped : Bool} {vertices : List Vertex}
    (h : ∀ v ∈ vertices, Vertex.Simple v) :
    ∀ v ∈ connect source target looped vertices, Vertex.Simple v :=
  simple_touch (fun _ hv => hv) (simple_touch (fun _ hv => nodup_setEdge hv) h)

variable {p : CodePath}

theorem simple_insert (h : ∀ v ∈ p.vertices, Vertex.Simple v) (s : Segment) :
    ∀ v ∈ (p.insert s).vertices, Vertex.Simple v := by
  have edges (previous : List SegmentId) (vertices : List Vertex)
      (hv : ∀ v ∈ vertices, Vertex.Simple v) : ∀ v ∈ previous.foldl (fun vertices before =>
        connect before s.id false vertices) vertices, Vertex.Simple v := by
    induction previous generalizing vertices with
    | nil => exact hv
    | cons k previous ih => exact ih _ (simple_connect hv)
  exact edges _ _ (simple_touch (fun _ hv => hv) h)

theorem simple_keep (h : ∀ v ∈ p.vertices, Vertex.Simple v) (e : Event) :
    ∀ v ∈ (p.keep e).vertices, Vertex.Simple v := by
  cases e with
  | segment s =>
    rw [keep]
    split_ifs
    · exact simple_insert h s
    · exact h
  | backEdge source target =>
    rw [keep, addLoopedEdge]
    split_ifs
    · exact simple_connect h
    · exact h
    · exact h
  | pathEnd id owner returned thrown =>
    rw [keep]
    split_ifs <;> exact h
  | pathStart | enter | exit => exact h

theorem simple_foldl (h : ∀ v ∈ p.vertices, Vertex.Simple v) (events : List Event) :
    ∀ v ∈ (events.foldl keep p).vertices, Vertex.Simple v := by
  induction events generalizing p with
  | nil => exact h
  | cons e events ih => exact ih (simple_keep h e)

theorem mem_loopedEdges {j k : SegmentId} :
    (j, k) ∈ p.loopedEdges ↔ (k, true) ∈ p.successors j := by
  simp only [loopedEdges, mem_successors, List.mem_flatMap, List.mem_map, List.mem_filter,
    Prod.mk.injEq]
  constructor
  · rintro ⟨v, hv, ⟨i, mark⟩, ⟨he, looped⟩, rfl, rfl⟩
    obtain rfl : mark = true := looped
    exact ⟨v, hv, rfl, he⟩
  · rintro ⟨v, hv, rfl, he⟩
    exact ⟨v, hv, _, ⟨he, rfl⟩, rfl, rfl⟩

theorem nodup_loopedEdges {events : List Event} (he : Trail.empty.AllowsAll events)
    (hp : p ∈ ofEvents events) : p.loopedEdges.Nodup := by
  obtain ⟨hc, well⟩ := wellDrawn_ofEvents he p hp
  have ids : (p.vertices.map (·.id)).Nodup := by
    rw [well.ids, ← List.nodup_reverse, ← List.map_reverse]
    exact hc.successive.nodup_ids
  have simple : ∀ v ∈ p.vertices, Vertex.Simple v := by
    obtain ⟨before, id, owner, upper, later, -, rfl⟩ := mem_ofEvents.1 hp
    exact simple_foldl (by simp [start]) later
  refine List.nodup_flatMap.2 ⟨fun v hv => ?_, ?_⟩
  · have targets : ((v.successors.filter (·.2)).map (·.1)).Nodup :=
      (simple v hv).sublist (List.filter_sublist.map _)
    have paired := targets.map (f := Prod.mk v.id) fun j k same => (Prod.mk.inj same).2
    rwa [List.map_map] at paired
  · refine (List.pairwise_map.1 ids).imp fun {v w} apart e hv hw => ?_
    obtain ⟨d, -, hd⟩ := List.mem_map.1 hv
    obtain ⟨c, -, hc⟩ := List.mem_map.1 hw
    exact apart ((congrArg Prod.fst hd).trans (congrArg Prod.fst hc).symm)

end CodePath

/-- The earlier ones of segments may follow one another as well. -/
theorem Segment.Successive.of_append {path : PathId} {later earlier : List Segment}
    (h : Successive path (later ++ earlier)) : Successive path earlier := by
  induction later with
  | nil => exact h
  | cons s later ih => exact ih h.2

namespace Trail

/-- An edge back leads to an earlier segment of the same path. -/
theorem backEdge_lt {events : List Event} {source target : Segment} (he : empty.AllowsAll events)
    (hb : .backEdge source target ∈ events) : target.id.number < source.id.number := by
  obtain ⟨before, later, rfl⟩ := List.append_of_mem hb
  obtain ⟨hbefore, hnext⟩ := allowsAll_append.1 he
  obtain ⟨p, rest, earlier, hopened, hsegments, -, htarget⟩ := hnext.1
  have successive := (consistent_empty.after hbefore).successive p (hopened ▸ List.mem_cons_self)
  rw [hsegments] at successive
  rw [successive.1.id]
  exact Nat.lt_succ_of_le (successive.2.number_le target htarget)

end Trail

namespace CodePath

open Event

variable {t : Tree} {n : Node} {p : CodePath}

/-- The looped edges of a path are those that edges back have drawn. -/
theorem Walked.mem_loopedEdges {paths : ℕ} (h : p.Walked p.owner n.events paths)
    (hp : p ∈ ofEvents n.events) (within : ∀ e ∈ own 0 (p.owner.walked paths).1, e ∈ n.events)
    {j k : SegmentId} : (j, k) ∈ p.loopedEdges ↔ ∃ source target,
      .backEdge source target ∈ own 0 (p.owner.walked paths).1 ∧ source.id = j ∧ target.id = k := by
  obtain ⟨hc, well⟩ := wellDrawn_ofEvents n.events_allowed.1 p hp
  have forward_lt (hf : (k, false) ∈ p.successors j) : j.number < k.number := by
    obtain ⟨s, hs, rfl, hj⟩ := (well.forward j k).1 hf
    exact (hc.successive.previous_lt s (List.mem_reverse.2 hs) j hj).2
  have looped_lt (hl : (k, true) ∈ p.successors j) : k.number < j.number := by
    obtain ⟨earlier, source, later, hcreated, -, rfl, target, ht, rfl⟩ := well.looped j k hl
    have successive := hc.successive
    rw [hcreated, List.reverse_append, List.reverse_cons, List.append_assoc] at successive
    obtain ⟨continues, before⟩ : Segment.Successive p.id (source :: earlier.reverse) :=
      successive.of_append
    rw [continues.id]
    exact Nat.lt_succ_of_le (before.number_le target (List.mem_reverse.2 ht))
  rw [CodePath.mem_loopedEdges]
  constructor
  · intro hl
    obtain ⟨e, he, hd⟩ := (h.leads j k).1 ⟨true, hl⟩
    cases e with
    | segment s =>
      obtain ⟨path_eq, rfl, hj⟩ := hd
      have started : s ∈ created p.id n.events :=
        List.mem_filter.2 ⟨mem_segments.2 (within _ he), by simp [path_eq]⟩
      have later := forward_lt ((well.forward j s.id).2 ⟨s, started, rfl, hj⟩)
      exact absurd later (Nat.lt_asymm (looped_lt hl))
    | backEdge source target =>
      obtain ⟨-, -, rfl, rfl⟩ := hd
      exact ⟨source, target, he, rfl, rfl⟩
    | pathStart | enter | exit | pathEnd => exact hd.elim
  · rintro ⟨source, target, he, rfl, rfl⟩
    obtain ⟨mark, hmark⟩ := (h.leads source.id target.id).2
      ⟨_, he, (h.belongs _ he).symm, h.returns source target he, rfl, rfl⟩
    cases mark with
    | true => exact hmark
    | false =>
      have earlier := Trail.backEdge_lt n.events_allowed.1 (within _ he)
      exact absurd (forward_lt hmark) (Nat.lt_asymm earlier)

end CodePath

end LostUpdate
