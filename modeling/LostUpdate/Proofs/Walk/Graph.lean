import LostUpdate.Flow.CodePath
import LostUpdate.Proofs.Walk.Trail
import Mathlib.Data.List.Induction

namespace LostUpdate

/-- The vertices of a graph are these segments, last first, and no edge but a looped one leads from a
segment to one before it. -/
structure Vertex.Drawn (segments : List Segment) (vertices : List Vertex) : Prop where
  ids : vertices.map (·.id) = (segments.map (·.id)).reverse
  segment : ∀ v ∈ vertices, ∃ s ∈ segments, v.segment = some s ∧ s.id = v.id
  edges : ∀ v ∈ vertices, ∀ e ∈ v.successors,
    e.1 ∈ vertices.map (·.id) ∧ (e.2 = false → v.id.number < e.1.number)

namespace CodePath

theorem mem_setEdge {target : SegmentId} {looped : Bool} {edges : List (SegmentId × Bool)}
    {e : SegmentId × Bool} (h : e ∈ setEdge target looped edges) :
    e = (target, looped) ∨ e ∈ edges := by
  unfold setEdge at h
  split_ifs at h with known
  · obtain ⟨old, hold, rfl⟩ := List.mem_map.1 h
    split_ifs with same
    · exact .inl rfl
    · exact .inr hold
  · simpa [or_comm] using h

theorem touch_of_mem {id : SegmentId} {vertices : List Vertex} (f : Vertex → Vertex)
    (h : id ∈ vertices.map (·.id)) :
    touch id f vertices = vertices.map fun v => if v.id = id then f v else v := by
  have known : vertices.any (·.id = id) = true := by simpa using h
  rw [touch, if_pos known]

theorem touch_of_notMem {id : SegmentId} {vertices : List Vertex} (f : Vertex → Vertex)
    (h : id ∉ vertices.map (·.id)) : touch id f vertices = vertices ++ [f ⟨id, none, []⟩] := by
  have unknown : ¬ vertices.any (·.id = id) = true := by simpa using h
  rw [touch, if_neg unknown]

/-- What is known of vertices apart from their edges stays when edges are drawn. -/
theorem map_setEdge {α : Type} {g : Vertex → α} (hg : ∀ v l, g { v with successors := l } = g v)
    (source target : SegmentId) (looped : Bool) (vertices : List Vertex) :
    (vertices.map fun v => if v.id = source then
      { v with successors := setEdge target looped v.successors } else v).map g =
        vertices.map g := by
  rw [List.map_map]
  refine List.map_congr_left fun v _ => ?_
  simp only [Function.comp_apply]
  split_ifs
  · exact hg v _
  · rfl

theorem connect_of_mem {source target : SegmentId} {looped : Bool} {vertices : List Vertex}
    (hs : source ∈ vertices.map (·.id)) (ht : target ∈ vertices.map (·.id)) :
    connect source target looped vertices = vertices.map fun v =>
      if v.id = source then { v with successors := setEdge target looped v.successors }
      else v := by
  have ids := map_setEdge (g := (·.id)) (fun _ _ => rfl) source target looped vertices
  rw [connect, touch_of_mem _ hs, touch_of_mem _ (ids ▸ ht)]
  simp

theorem connect_drawn {segments : List Segment} {vertices : List Vertex}
    (h : Vertex.Drawn segments vertices) {source target : SegmentId} {looped : Bool}
    (hs : source ∈ vertices.map (·.id)) (ht : target ∈ vertices.map (·.id))
    (hlt : looped = false → source.number < target.number) :
    Vertex.Drawn segments (connect source target looped vertices) := by
  rw [connect_of_mem hs ht]
  have ids := map_setEdge (g := (·.id)) (fun _ _ => rfl) source target looped vertices
  refine ⟨ids.trans h.ids, ?_, ?_⟩
  · intro v hv
    obtain ⟨w, hw, rfl⟩ := List.mem_map.1 hv
    obtain ⟨s, hs, hsegment, hid⟩ := h.segment w hw
    refine ⟨s, hs, ?_, ?_⟩ <;> split_ifs <;> assumption
  · intro v hv e he
    rw [ids]
    obtain ⟨w, hw, rfl⟩ := List.mem_map.1 hv
    by_cases same : w.id = source
    · simp only [same, if_true] at he ⊢
      rcases mem_setEdge he with rfl | he
      · exact ⟨ht, hlt⟩
      · exact same ▸ h.edges w hw e he
    · simp only [same, if_false] at he ⊢
      exact h.edges w hw e he

end CodePath

/-- `q` is the graph of the open path `p`. -/
structure OpenPath.DrawnAs (p : OpenPath) (q : CodePath) : Prop where
  id : q.id = p.id
  owner : q.owner = p.owner
  current : q.current = p.segments.head?.toList
  vertices : Vertex.Drawn p.segments q.vertices

namespace OpenPath.DrawnAs

variable {p : OpenPath} {q : CodePath}

theorem mem_ids (h : p.DrawnAs q) {k : SegmentId} :
    k ∈ q.vertices.map (·.id) ↔ ∃ s ∈ p.segments, s.id = k := by
  rw [h.vertices.ids, List.mem_reverse, List.mem_map]

theorem startSegment (h : p.DrawnAs q) (hp : Segment.Successive p.id p.segments) {s : Segment}
    (hs : s.Continues p.id p.segments) :
    DrawnAs { p with segments := s :: p.segments } (q.startSegment s) := by
  refine ⟨h.id, h.owner, rfl, ?_⟩
  have fresh : s.id ∉ q.vertices.map (·.id) := by
    intro known
    obtain ⟨b, hb, same⟩ := h.mem_ids.1 known
    have bound := hp.number_le b hb
    have number : s.id.number = p.segments.length + 1 := by rw [hs.id]
    rw [same, number] at bound
    omega
  let vertices := q.vertices ++ [⟨s.id, some s, []⟩]
  have first : Vertex.Drawn (s :: p.segments) vertices := by
    refine ⟨?_, ?_, ?_⟩
    · simp [vertices, h.vertices.ids]
    · intro v hv
      rcases List.mem_append.1 hv with hv | hv
      · obtain ⟨b, hb, hsegment, hid⟩ := h.vertices.segment v hv
        exact ⟨b, List.mem_cons_of_mem _ hb, hsegment, hid⟩
      · obtain rfl := List.mem_singleton.1 hv
        exact ⟨s, List.mem_cons_self, rfl, rfl⟩
    · intro v hv e he
      rcases List.mem_append.1 hv with hv | hv
      · obtain ⟨hmem, hlt⟩ := h.vertices.edges v hv e he
        refine ⟨?_, hlt⟩
        rw [List.map_append]
        exact List.mem_append_left _ hmem
      · obtain rfl := List.mem_singleton.1 hv
        exact absurd he List.not_mem_nil
  have edges (previous : List SegmentId) (hprev : ∀ k ∈ previous, k ∈ s.previous)
      (drawn : List Vertex) (hd : Vertex.Drawn (s :: p.segments) drawn) :
      Vertex.Drawn (s :: p.segments)
        (previous.foldl (fun l before => CodePath.connect before s.id false l) drawn) := by
    induction previous generalizing drawn with
    | nil => exact hd
    | cons k previous ih =>
      obtain ⟨b, hb, -, rfl⟩ := hs.previous k (hprev k List.mem_cons_self)
      refine ih (fun j hj => hprev j (List.mem_cons_of_mem _ hj)) _ ?_
      have mem {r : Segment} (hr : r ∈ s :: p.segments) : r.id ∈ drawn.map (·.id) := by
        rw [hd.ids, List.mem_reverse]
        exact List.mem_map_of_mem hr
      refine CodePath.connect_drawn hd (mem (List.mem_cons_of_mem _ hb)) (mem List.mem_cons_self)
        fun _ => ?_
      rw [hs.id]
      exact Nat.lt_succ_of_le (hp.number_le b hb)
  have drawn := edges s.previous (fun _ hk => hk) vertices first
  rw [show vertices = CodePath.touch s.id (fun v => { v with segment := some s }) q.vertices by
    rw [CodePath.touch_of_notMem _ fresh]] at drawn
  exact drawn

theorem addLoopedEdge (h : p.DrawnAs q) {source target : Segment} (hs : source ∈ p.segments)
    (ht : target ∈ p.segments) : p.DrawnAs (q.addLoopedEdge source target) := by
  unfold CodePath.addLoopedEdge
  split_ifs
  · refine ⟨h.id, h.owner, h.current, ?_⟩
    exact CodePath.connect_drawn h.vertices (h.mem_ids.2 ⟨source, hs, rfl⟩)
      (h.mem_ids.2 ⟨target, ht, rfl⟩) (by simp)
  · exact h

end OpenPath.DrawnAs

/-- The graphs of all paths that have started, in order, among them those of the open ones. -/
structure Trail.Drawn (t : Trail) (paths : List CodePath) : Prop where
  length : paths.length = t.started
  ids : ∀ (i : Nat) (q : CodePath), paths[i]? = some q → q.id = .ordinal (i + 1)
  opened : ∀ p ∈ t.opened, ∃ q ∈ paths, p.DrawnAs q

namespace Trail.Drawn

variable {t : Trail} {paths : List CodePath}

theorem drawn_empty : Trail.empty.Drawn [] := ⟨rfl, by simp, by simp [Trail.empty]⟩

theorem ids_map {f : CodePath → CodePath} (h : t.Drawn paths) (hf : ∀ q, (f q).id = q.id) (i : Nat)
    (q : CodePath) (hq : (paths.map f)[i]? = some q) : q.id = .ordinal (i + 1) := by
  rw [List.getElem?_map, Option.map_eq_some_iff] at hq
  obtain ⟨r, hr, rfl⟩ := hq
  rw [hf]
  exact h.ids i r hr

theorem pathStart (h : t.Drawn paths) (owner : Node) (upper : Option PathId) :
    Trail.Drawn ⟨⟨.ordinal (t.started + 1), owner, []⟩ :: t.opened, t.started + 1⟩
      (paths ++ [CodePath.start (.ordinal (t.started + 1)) owner upper]) := by
  refine ⟨by simp [h.length], ?_, ?_⟩
  · intro i q hq
    rw [List.getElem?_append] at hq
    split_ifs at hq with hi
    · exact h.ids i q hq
    · have last : i - paths.length = 0 := by
        by_contra hne
        obtain ⟨j, hj⟩ := Nat.exists_eq_succ_of_ne_zero hne
        simp [hj] at hq
      simp only [last, List.getElem?_cons_zero, Option.some.injEq] at hq
      subst hq
      rw [h.length] at hi last
      simp only [CodePath.start, PathId.ordinal.injEq]
      omega
  · intro p hp
    rcases List.mem_cons.1 hp with rfl | hp
    · refine ⟨_, List.mem_append_right _ List.mem_cons_self, rfl, rfl, rfl, ?_⟩
      exact ⟨rfl, by simp [CodePath.start], by simp [CodePath.start]⟩
    · obtain ⟨q, hq, hpq⟩ := h.opened p hp
      exact ⟨q, List.mem_append_left _ hq, hpq⟩

theorem change (h : t.Drawn paths) (ht : t.Consistent) {p p' : OpenPath} {rest : List OpenPath}
    (hp : t.opened = p :: rest) {k : PathId} (hk : k = p.id) {g : CodePath → CodePath}
    (hid : ∀ q, (g q).id = q.id) (hg : ∀ q, p.DrawnAs q → p'.DrawnAs (g q)) :
    Trail.Drawn ⟨p' :: rest, t.started⟩ (paths.map fun q => if q.id = k then g q else q) := by
  have distinct := ht.distinct
  rw [hp] at distinct
  refine ⟨by simp [h.length], h.ids_map fun q => ?_, fun r hr => ?_⟩
  · split_ifs
    · exact hid q
    · rfl
  · rcases List.mem_cons.1 hr with rfl | hr
    · obtain ⟨q, hq, hpq⟩ := h.opened p (by simp [hp])
      refine ⟨_, List.mem_map_of_mem hq, ?_⟩
      rw [if_pos (hpq.id.trans hk.symm)]
      exact hg q hpq
    · obtain ⟨q, hq, hrq⟩ := h.opened r (by simp [hp, hr])
      have other : q.id ≠ k := by
        rw [hrq.id, hk]
        exact ((List.pairwise_cons.1 distinct).1 r hr).symm
      refine ⟨_, List.mem_map_of_mem hq, ?_⟩
      rwa [if_neg other]

theorem record (h : t.Drawn paths) (ht : t.Consistent) {e : Event} (he : t.Allows e) :
    (t.record e).Drawn (CodePath.record paths e) := by
  cases e with
  | pathStart id owner upper =>
    obtain ⟨rfl, -⟩ := he
    exact h.pathStart owner upper
  | segment s =>
    obtain ⟨p, rest, hp, hs⟩ := he
    have successive := ht.successive p (by simp [hp])
    have drawn := h.change ht hp (k := s.id.path) (by rw [hs.id]) (g := (·.startSegment s))
      (fun _ => rfl) fun q hq => hq.startSegment successive hs
    simpa only [Trail.record, CodePath.record, hp] using drawn
  | backEdge source target =>
    obtain ⟨p, rest, earlier, hp, hsegments, -, htarget⟩ := he
    have hsource : source ∈ p.segments := by simp [hsegments]
    have hpath := (ht.successive p (by simp [hp])).path_eq source hsource
    have drawn : Trail.Drawn ⟨p :: rest, t.started⟩ _ :=
      h.change ht hp hpath (g := (·.addLoopedEdge source target))
        (fun q => by unfold CodePath.addLoopedEdge; split_ifs <;> rfl)
        fun q hq => hq.addLoopedEdge hsource (by simp [hsegments, htarget])
    rwa [← hp] at drawn
  | pathEnd id owner returned thrown =>
    refine ⟨?_, h.ids_map ?_, ?_⟩
    · simp [CodePath.record, Trail.record, h.length]
    · intro q
      split_ifs <;> rfl
    · intro r hr
      obtain ⟨q, hq, hrq⟩ := h.opened r (List.mem_of_mem_tail hr)
      refine ⟨_, List.mem_map_of_mem hq, ?_⟩
      split_ifs
      · exact ⟨hrq.id, hrq.owner, hrq.current, hrq.vertices⟩
      · exact hrq
  | enter n => exact h
  | exit n => exact h

/-- The place of an open path among the graphs follows from its number. -/
theorem getElem?_opened (h : t.Drawn paths) {p : OpenPath} (hp : p ∈ t.opened) {i : Nat}
    (hid : p.id = .ordinal (i + 1)) : ∃ q, paths[i]? = some q ∧ p.DrawnAs q := by
  obtain ⟨q, hq, hpq⟩ := h.opened p hp
  obtain ⟨j, hj⟩ := List.mem_iff_getElem?.1 hq
  have same : PathId.ordinal (j + 1) = .ordinal (i + 1) := by
    rw [← h.ids j q hj, hpq.id, hid]
  injection same with same
  obtain rfl : j = i := by omega
  exact ⟨q, hj, hpq⟩

theorem nodup_ids (h : t.Drawn paths) : (paths.map (·.id)).Nodup := by
  rw [List.Nodup, List.pairwise_iff_getElem]
  intro i j hi hj lower same
  rw [List.length_map] at hi hj
  have first := h.ids i paths[i] (List.getElem?_eq_getElem hi)
  have second := h.ids j paths[j] (List.getElem?_eq_getElem hj)
  rw [List.getElem_map, List.getElem_map, first, second] at same
  injection same with same
  omega

theorem findIdx_ordinal (h : t.Drawn paths) {i : Nat} (hi : i < t.started) :
    paths.findIdx (·.id = .ordinal (i + 1)) = i := by
  have bound : i < paths.length := h.length ▸ hi
  rw [List.findIdx_eq bound]
  refine ⟨?_, fun j hj => ?_⟩
  · simpa using h.ids i paths[i] (List.getElem?_eq_getElem bound)
  · have hid := h.ids j paths[j] (List.getElem?_eq_getElem (Nat.lt_trans hj bound))
    simp [hid]
    omega

end Trail.Drawn

theorem CodePath.ofEvents_concat (done : List Event) (e : Event) :
    ofEvents (done ++ [e]) = record (ofEvents done) e := by
  simp [ofEvents]

/-- The graphs at any point of a walk. -/
theorem Trail.drawn_ofEvents {done : List Event} (hd : Trail.empty.AllowsAll done) :
    (Trail.empty.after done).Drawn (CodePath.ofEvents done) := by
  induction done using List.reverseRecOn with
  | nil => exact Drawn.drawn_empty
  | append_singleton done e ih =>
    obtain ⟨hd, he⟩ := Trail.allowsAll_concat.1 hd
    rw [Trail.after_concat, CodePath.ofEvents_concat]
    exact (ih hd).record (Trail.consistent_empty.after hd) he

end LostUpdate
