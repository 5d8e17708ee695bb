import LostUpdate.Proofs.Walk.Allowed
import LostUpdate.Proofs.Walk.Edges
import LostUpdate.Proofs.Walk.Graph
import LostUpdate.Proofs.Walk.Level
import Mathlib

namespace LostUpdate

namespace CodePath

/-- How the graph of a path stands to the segments created in it, the first one first. -/
structure WellDrawn (created : List Segment) (p : CodePath) : Prop where
  vertices : p.vertices.map (fun v => (v.id, v.segment)) = created.map fun s => (s.id, some s)
  current : p.current = created.getLast?.toList
  previous : ∀ earlier s later, created = earlier ++ s :: later →
    s.previous.Nodup ∧ ∀ j ∈ s.previous, ∃ q ∈ earlier, q.isReachable = true ∧ q.id = j
  forward : ∀ j k, (k, false) ∈ p.successors j ↔ ∃ s ∈ created, s.id = k ∧ j ∈ s.previous
  looped : ∀ j k, (k, true) ∈ p.successors j → ∃ earlier source later,
    created = earlier ++ source :: later ∧ source.isReachable = true ∧ source.id = j ∧
      ∃ target ∈ earlier, target.id = k

/-- `q` is `p` with more segments and edges. What has been drawn keeps its mark. -/
structure Grows (p q : CodePath) : Prop where
  id : q.id = p.id
  owner : q.owner = p.owner
  segments : p.segments <+: q.segments
  edges : ∀ (j : SegmentId) (e : SegmentId × Bool), e ∈ p.successors j → e ∈ q.successors j

namespace Grows

theorem refl (p : CodePath) : p.Grows p := ⟨rfl, rfl, List.prefix_rfl, fun _ _ he => he⟩

theorem trans {p q r : CodePath} (h : p.Grows q) (k : q.Grows r) : p.Grows r :=
  ⟨k.id.trans h.id, k.owner.trans h.owner, h.segments.trans k.segments,
    fun j e he => k.edges j e (h.edges j e he)⟩

end Grows

variable {vertices : List Vertex} {j : SegmentId} {e : SegmentId × Bool}

/-- An edge drawn with the mark that it has already is only added. -/
theorem mem_setEdge_iff {target : SegmentId} {looped : Bool} {edges : List (SegmentId × Bool)}
    (h : ∀ mark, (target, mark) ∈ edges → mark = looped) :
    e ∈ setEdge target looped edges ↔ e ∈ edges ∨ e = (target, looped) := by
  refine ⟨fun he => (mem_setEdge he).symm, fun he => ?_⟩
  unfold setEdge
  split_ifs with known
  · obtain ⟨mark, hmark⟩ : ∃ mark, (target, mark) ∈ edges := by simpa using known
    obtain rfl := h mark hmark
    have mem : e ∈ edges := he.elim (fun he => he) fun same => same ▸ hmark
    refine List.mem_map.2 ⟨e, mem, ?_⟩
    split_ifs with same
    · rw [← same]
      exact Prod.ext rfl (h e.2 (same ▸ mem)).symm
    · rfl
  · exact List.mem_append.2 (he.imp_right List.mem_singleton.2)

theorem mem_connect {source target : SegmentId} {looped : Bool}
    (h : ∀ v ∈ vertices, v.id = source → ∀ mark, (target, mark) ∈ v.successors → mark = looped) :
    (∃ v ∈ connect source target looped vertices, v.id = j ∧ e ∈ v.successors) ↔
      (∃ v ∈ vertices, v.id = j ∧ e ∈ v.successors) ∨ (j = source ∧ e = (target, looped)) := by
  have drawn : (∃ v ∈ touch source (fun v =>
      { v with successors := setEdge target looped v.successors }) vertices,
        v.id = j ∧ e ∈ v.successors) ↔
          (∃ v ∈ vertices, v.id = j ∧ e ∈ v.successors) ∨ (j = source ∧ e = (target, looped)) := by
    refine exists_touch (P := fun edges => e ∈ edges) List.not_mem_nil (fun _ => rfl) fun v hv => ?_
    refine mem_setEdge_iff fun mark hmark => ?_
    rcases hv with ⟨hv, same⟩ | none
    · exact h v hv same mark hmark
    · simp [none] at hmark
  have added (drawn : List Vertex) : (∃ v ∈ touch target (fun v => v) drawn,
      v.id = j ∧ e ∈ v.successors) ↔
        (∃ v ∈ drawn, v.id = j ∧ e ∈ v.successors) ∨ (j = target ∧ False) :=
    exists_touch (P := fun edges => e ∈ edges) List.not_mem_nil (fun _ => rfl) fun v _ => by simp
  rw [connect, added, drawn]
  simp

/-- A segment that no edge leads to yet comes behind those that it names. -/
theorem mem_successors_insert {p : CodePath} {s : Segment}
    (fresh : ∀ i mark, (s.id, mark) ∉ p.successors i) :
    e ∈ (p.insert s).successors j ↔ e ∈ p.successors j ∨ (e = (s.id, false) ∧ j ∈ s.previous) := by
  have behind (previous : List SegmentId) (vertices : List Vertex)
      (h : ∀ v ∈ vertices, ∀ mark, (s.id, mark) ∈ v.successors → mark = false) :
      (∃ v ∈ previous.foldl (fun vertices before => connect before s.id false vertices) vertices,
        v.id = j ∧ e ∈ v.successors) ↔ (∃ v ∈ vertices, v.id = j ∧ e ∈ v.successors) ∨
          (e = (s.id, false) ∧ j ∈ previous) := by
    induction previous generalizing vertices with
    | nil => simp
    | cons i previous ih =>
      have connected (k : SegmentId) (d : SegmentId × Bool) :
          (∃ v ∈ connect i s.id false vertices, v.id = k ∧ d ∈ v.successors) ↔
            (∃ v ∈ vertices, v.id = k ∧ d ∈ v.successors) ∨ (k = i ∧ d = (s.id, false)) :=
        mem_connect fun v hv _ mark hmark => h v hv mark hmark
      rw [List.foldl_cons, ih, connected, List.mem_cons]
      · rw [or_assoc, and_comm (a := j = i), ← and_or_left]
      · intro v hv mark hmark
        rcases (connected v.id (s.id, mark)).1 ⟨v, hv, rfl, hmark⟩ with ⟨w, hw, -, hmark⟩ | ⟨-, same⟩
        · exact h w hw mark hmark
        · exact (Prod.mk.inj same).2
  have named : ∀ i d, (∃ v ∈ touch s.id (fun v => { v with segment := some s }) p.vertices,
      v.id = i ∧ d ∈ v.successors) ↔ d ∈ p.successors i := by
    intro i d
    rw [mem_successors]
    have same := exists_touch (j := i) (P := fun edges => d ∈ edges) List.not_mem_nil
      (f := fun v => { v with segment := some s }) (fun _ => rfl)
      fun v (_ : (v ∈ p.vertices ∧ v.id = s.id) ∨ v.successors = []) => (or_false _).symm.to_iff
    simpa using same
  rw [mem_successors]
  refine (behind s.previous _ fun v hv mark hmark => ?_).trans (or_congr_left (named j e))
  exact absurd ((named v.id (s.id, mark)).1 ⟨v, hv, rfl, hmark⟩) (fresh v.id mark)

theorem map_connect {α : Type} {g : Vertex → α} (hg : ∀ v l, g { v with successors := l } = g v)
    {source target : SegmentId} {looped : Bool} (hs : source ∈ vertices.map (·.id))
    (ht : target ∈ vertices.map (·.id)) :
    (connect source target looped vertices).map g = vertices.map g := by
  rw [connect_of_mem hs ht, map_setEdge hg]

end CodePath

theorem Segment.Successive.continues {path : PathId} {later earlier : List Segment} {s : Segment}
    (h : Successive path (later ++ s :: earlier)) : s.Continues path earlier := by
  induction later with
  | nil => exact h.1
  | cons q later ih => exact ih h.2

namespace CodePath

variable {p : CodePath} {created : List Segment} {s : Segment}

/-- What segments name before them has been created earlier. -/
theorem previous_of_successive {path : PathId} (h : Segment.Successive path created.reverse)
    (earlier : List Segment) (s : Segment) (later : List Segment)
    (hc : created = earlier ++ s :: later) : s.previous.Nodup ∧
      ∀ j ∈ s.previous, ∃ q ∈ earlier, q.isReachable = true ∧ q.id = j := by
  subst hc
  have split : Segment.Successive path (later.reverse ++ s :: earlier.reverse) := by simpa using h
  have continues := split.continues
  exact ⟨continues.nodup, by simpa using continues.previous⟩

namespace WellDrawn

theorem start (id : PathId) (owner : Node) (upper : Option PathId) :
    (start id owner upper).WellDrawn [] :=
  ⟨rfl, rfl, by simp, by simp [CodePath.start, successors], by simp [CodePath.start, successors]⟩

theorem ids (h : p.WellDrawn created) : p.vertices.map (·.id) = created.map (·.id) := by
  simpa [Function.comp_def] using congrArg (List.map Prod.fst) h.vertices

theorem segments_eq (h : p.WellDrawn created) : p.segments = created := by
  have labels := congrArg (List.filterMap Prod.snd) h.vertices
  simpa [CodePath.segments, List.filterMap_map, Function.comp_def] using labels

/-- No edge leads to a segment that is yet to come. -/
theorem notMem_successors (h : p.WellDrawn created) {k : SegmentId} (hk : k ∉ created.map (·.id))
    (j : SegmentId) (mark : Bool) : (k, mark) ∉ p.successors j := by
  intro drawn
  cases mark with
  | false =>
    obtain ⟨q, hq, rfl, -⟩ := (h.forward j k).1 drawn
    exact hk (List.mem_map_of_mem hq)
  | true =>
    obtain ⟨earlier, source, later, rfl, -, -, target, ht, rfl⟩ := h.looped j k drawn
    exact hk (List.mem_map_of_mem (List.mem_append_left _ ht))

theorem startSegment (h : p.WellDrawn created) (hp : Segment.Successive p.id created.reverse)
    (hs : s.Continues p.id created.reverse) :
    (p.startSegment s).WellDrawn (created ++ [s]) ∧ p.Grows (p.startSegment s) := by
  have successive : Segment.Successive p.id (created ++ [s]).reverse := by
    simpa using ⟨hs, hp⟩
  have fresh : s.id ∉ created.map (·.id) := by
    have distinct := successive.nodup_ids
    rw [List.reverse_append, List.reverse_singleton] at distinct
    simpa using (List.nodup_cons.1 distinct).1
  have edges (j : SegmentId) (e : SegmentId × Bool) : e ∈ (p.startSegment s).successors j ↔
      e ∈ p.successors j ∨ (e = (s.id, false) ∧ j ∈ s.previous) :=
    mem_successors_insert (h.notMem_successors fresh)
  have labels (previous : List SegmentId) (vertices : List Vertex)
      (known : ∀ k ∈ s.id :: previous, k ∈ vertices.map (·.id)) :
      (previous.foldl (fun vertices before => connect before s.id false vertices) vertices).map
        (fun v => (v.id, v.segment)) = vertices.map fun v => (v.id, v.segment) := by
    induction previous generalizing vertices with
    | nil => rfl
    | cons k previous ih =>
      have hs := known s.id List.mem_cons_self
      have hk := known k (List.mem_cons_of_mem _ List.mem_cons_self)
      rw [List.foldl_cons, ih, map_connect (fun _ _ => rfl) hk hs]
      intro i hi
      rw [map_connect (fun _ _ => rfl) hk hs]
      exact known i (by grind)
  have added : touch s.id (fun v => { v with segment := some s }) p.vertices =
      p.vertices ++ [⟨s.id, some s, []⟩] := touch_of_notMem _ (h.ids ▸ fresh)
  have drawn : (p.startSegment s).WellDrawn (created ++ [s]) := by
    refine ⟨?_, by simp [CodePath.startSegment], previous_of_successive successive, ?_, ?_⟩
    · let v : Vertex := ⟨s.id, some s, []⟩
      have known : ∀ k ∈ s.id :: s.previous, k ∈ (p.vertices ++ [v]).map (·.id) := by
        rw [List.map_append, h.ids]
        intro k hk
        rcases List.mem_cons.1 hk with rfl | hk
        · simp [v]
        · obtain ⟨q, hq, -, rfl⟩ := hs.previous k hk
          exact List.mem_append_left _ (List.mem_map_of_mem (List.mem_reverse.1 hq))
      simp only [CodePath.startSegment, insert, added]
      exact (labels _ _ known).trans (by simp [v, h.vertices])
    · intro j k
      rw [edges, h.forward]
      simp [or_and_right, exists_or, eq_comm]
    · intro j k looped
      rcases (edges j (k, true)).1 looped with looped | ⟨same, -⟩
      · obtain ⟨earlier, source, later, rfl, back⟩ := h.looped j k looped
        exact ⟨earlier, source, later ++ [s], by simp, back⟩
      · cases same
  refine ⟨drawn, rfl, rfl, ?_, fun j e he => (edges j e).2 (.inl he)⟩
  rw [drawn.segments_eq, h.segments_eq]
  exact List.prefix_append _ _

theorem addLoopedEdge {earlier : List Segment} {source target : Segment}
    (h : p.WellDrawn (earlier ++ [source]))
    (hp : Segment.Successive p.id (earlier ++ [source]).reverse) (hr : source.isReachable = true)
    (ht : target ∈ earlier) : (p.addLoopedEdge source target).WellDrawn (earlier ++ [source]) ∧
      p.Grows (p.addLoopedEdge source target) := by
  have known {s : Segment} (hs : s ∈ earlier ++ [source]) : s.id ∈ p.vertices.map (·.id) :=
    h.ids ▸ List.mem_map_of_mem hs
  have source_mem := known (s := source) (by simp)
  have target_mem := known (s := target) (List.mem_append_left _ ht)
  -- A forward edge from the last segment would lead to one that comes still later.
  have back : ∀ mark, (target.id, mark) ∈ p.successors source.id → mark = true := by
    rintro (_ | _) drawn
    · obtain ⟨s, hs, same, hj⟩ := (h.forward _ _).1 drawn
      have later := hp.previous_lt s (List.mem_reverse.2 hs) _ hj
      have number : source.id.number = earlier.length + 1 := by
        rw [List.reverse_append, List.reverse_singleton] at hp
        simp [hp.1.id]
      have bound := hp.number_le s (List.mem_reverse.2 hs)
      simp only [List.length_reverse, List.length_append, List.length_singleton] at bound
      omega
    · rfl
  have edges (j : SegmentId) (e : SegmentId × Bool) : e ∈ (p.addLoopedEdge source target).successors j
      ↔ e ∈ p.successors j ∨ (j = source.id ∧ e = (target.id, true)) := by
    rw [CodePath.addLoopedEdge, if_pos hr, mem_successors, mem_successors]
    exact mem_connect fun v hv same mark hmark => back mark (mem_successors.2 ⟨v, hv, same, hmark⟩)
  have drawn : (p.addLoopedEdge source target).WellDrawn (earlier ++ [source]) := by
    refine ⟨?_, ?_, h.previous, ?_, ?_⟩
    · rw [CodePath.addLoopedEdge, if_pos hr, ← h.vertices]
      exact map_connect (fun _ _ => rfl) source_mem target_mem
    · rw [CodePath.addLoopedEdge, if_pos hr]
      exact h.current
    · intro j k
      rw [edges, ← h.forward]
      simp
    · intro j k looped
      rcases (edges j (k, true)).1 looped with looped | ⟨rfl, same⟩
      · exact h.looped j k looped
      · exact ⟨earlier, source, [], rfl, hr, rfl, target, ht, (Prod.mk.inj same).1.symm⟩
  refine ⟨drawn, ?_, ?_, ?_, fun j e he => (edges j e).2 (.inl he)⟩
  · rw [CodePath.addLoopedEdge, if_pos hr]
  · rw [CodePath.addLoopedEdge, if_pos hr]
  · rw [drawn.segments_eq, h.segments_eq]

end WellDrawn

end CodePath

namespace Event

/-- The segments created in one path, in order. -/
def created (id : PathId) (events : List Event) : List Segment :=
  (segments events).filter (·.id.path = id)

theorem created_append (id : PathId) (first second : List Event) :
    created id (first ++ second) = created id first ++ created id second := by
  simp [created, segments_append]

theorem created_segment (id : PathId) (s : Segment) :
    created id [.segment s] = if s.id.path = id then [s] else [] := by
  simp [created, segments, List.filter_cons]

theorem created_of_ne {e : Event} (he : ∀ s, e ≠ .segment s) (id : PathId) :
    created id [e] = [] := by
  simp [created, segments]

end Event

namespace Trail

open Event

variable {t : Trail} {id : PathId} {created : List Segment} {e : Event}

/-- The path `id` has started, and these segments have been created in it, in order. -/
structure HasCreated (t : Trail) (id : PathId) (created : List Segment) : Prop where
  started : ∃ i < t.started, id = .ordinal (i + 1)
  opened : ∀ p ∈ t.opened, p.id = id → p.segments = created.reverse
  successive : Segment.Successive id created.reverse

theorem HasCreated.record (h : t.HasCreated id created) (ht : t.Consistent) (he : t.Allows e) :
    (t.record e).HasCreated id (created ++ Event.created id [e]) := by
  obtain ⟨⟨i, hi, hid⟩, opened, successive⟩ := h
  cases e with
  | pathStart start owner upper =>
    obtain ⟨rfl, -⟩ := he
    rw [created_of_ne (by simp), List.append_nil]
    refine ⟨⟨i, Nat.lt_succ_of_lt hi, hid⟩, fun p hp same => ?_, successive⟩
    rcases List.mem_cons.1 hp with rfl | hp
    · rw [hid] at same
      injection same with same
      omega
    · exact opened p hp same
  | segment s =>
    obtain ⟨q, rest, hq, hs⟩ := he
    have distinct := ht.distinct
    rw [hq] at distinct opened
    have apart := (List.pairwise_cons.1 distinct).1
    have path_eq : s.id.path = q.id := by rw [hs.id]
    by_cases same : q.id = id
    · have segments_eq := opened q List.mem_cons_self same
      rw [created_segment, if_pos (path_eq.trans same), Trail.record, hq]
      refine ⟨⟨i, hi, hid⟩, fun p hp other => ?_, ?_⟩
      · rcases List.mem_cons.1 hp with rfl | hp
        · simp [segments_eq]
        · exact absurd (same.trans other.symm) (apart p hp)
      · rw [List.reverse_append, List.reverse_singleton]
        refine ⟨?_, successive⟩
        rw [← same, ← segments_eq]
        exact hs
    · rw [created_segment, path_eq, if_neg same, List.append_nil, Trail.record, hq]
      refine ⟨⟨i, hi, hid⟩, fun p hp other => ?_, successive⟩
      rcases List.mem_cons.1 hp with rfl | hp
      · exact absurd other same
      · exact opened p (List.mem_cons_of_mem _ hp) other
  | pathEnd =>
    rw [created_of_ne (by simp), List.append_nil]
    exact ⟨⟨i, hi, hid⟩, fun p hp => opened p (List.mem_of_mem_tail hp), successive⟩
  | backEdge | enter | exit =>
    rw [created_of_ne (by simp), List.append_nil]
    exact ⟨⟨i, hi, hid⟩, opened, successive⟩

end Trail

namespace CodePath

open Event

variable {t : Trail} {p : CodePath} {segments : List Segment} {e : Event}

/-- An event that may come next keeps a path well drawn and only adds to it. -/
theorem WellDrawn.keep (h : p.WellDrawn segments) (hc : t.HasCreated p.id segments)
    (ht : t.Consistent) (he : t.Allows e) :
    (p.keep e).WellDrawn (segments ++ created p.id [e]) ∧ p.Grows (p.keep e) := by
  have unchanged : p.WellDrawn (segments ++ []) ∧ p.Grows p := by
    rw [List.append_nil]
    exact ⟨h, .refl p⟩
  cases e with
  | segment s =>
    obtain ⟨q, rest, hq, hs⟩ := he
    rw [CodePath.keep]
    split_ifs with mine
    · have same : q.id = p.id := by rw [mine, hs.id]
      have segments_eq := hc.opened q (hq ▸ List.mem_cons_self) same
      rw [same, segments_eq] at hs
      rw [created_segment, if_pos mine.symm]
      exact h.startSegment hc.successive hs
    · rw [created_segment, if_neg (Ne.symm mine)]
      exact unchanged
  | backEdge source target =>
    obtain ⟨q, rest, earlier, hq, hsegments, hr, htarget⟩ := he
    rw [CodePath.keep]
    split_ifs with mine
    · have mem : q ∈ t.opened := hq ▸ List.mem_cons_self
      have path_eq := (ht.successive q mem).path_eq source (hsegments ▸ List.mem_cons_self)
      have segments_eq := hc.opened q mem (by rw [mine, path_eq])
      obtain rfl : segments = earlier.reverse ++ [source] := by
        rw [← List.reverse_reverse segments, ← segments_eq, hsegments, List.reverse_cons]
      have drawn := h.addLoopedEdge hc.successive hr (List.mem_reverse.2 htarget)
      exact ⟨(List.append_nil _).symm ▸ drawn.1, drawn.2⟩
    · exact unchanged
  | pathEnd id owner returned thrown =>
    rw [CodePath.keep, created_of_ne (by simp), List.append_nil]
    split_ifs
    · exact ⟨⟨h.vertices, h.current, h.previous, h.forward, h.looped⟩, rfl, rfl, List.prefix_rfl,
        fun _ _ he => he⟩
    · exact ⟨h, .refl p⟩
  | pathStart | enter | exit => exact unchanged

/-- Every path is well drawn with the segments created in it so far. -/
theorem wellDrawn_ofEvents {done : List Event} (hd : Trail.empty.AllowsAll done) :
    ∀ p ∈ ofEvents done, (Trail.empty.after done).HasCreated p.id (created p.id done) ∧
      p.WellDrawn (created p.id done) := by
  induction done using List.reverseRecOn with
  | nil => simp [ofEvents]
  | append_singleton done e ih =>
    obtain ⟨hd, he⟩ := Trail.allowsAll_concat.1 hd
    have consistent := Trail.consistent_empty.after hd
    have knows := Trail.knows_empty.after Trail.consistent_empty hd
    intro p hp
    rw [ofEvents_concat, record_eq] at hp
    rw [Trail.after_concat]
    rcases List.mem_append.1 hp with hp | hp
    · obtain ⟨q, hq, rfl⟩ := List.mem_map.1 hp
      obtain ⟨hc, drawn⟩ := ih hd q hq
      rw [id_keep, created_append]
      exact ⟨hc.record consistent he, (drawn.keep hc consistent he).1⟩
    · cases e with
      | pathStart id owner upper =>
        obtain rfl := List.mem_singleton.1 hp
        obtain ⟨rfl, -⟩ := he
        have path_new : ∀ i < (Trail.empty.after done).started,
            PathId.ordinal (i + 1) ≠ .ordinal ((Trail.empty.after done).started + 1) := by
          intro i hi same
          injection same with same
          omega
        have none : created (.ordinal ((Trail.empty.after done).started + 1))
            (done ++ [.pathStart (.ordinal ((Trail.empty.after done).started + 1)) owner upper]) =
              [] := by
          rw [created_append, created_of_ne (by simp), List.append_nil]
          refine List.filter_eq_nil_iff.2 fun s hs => ?_
          obtain ⟨i, hi, path_eq⟩ := knows.numbered s hs
          simpa [path_eq] using path_new i hi
        simp only [CodePath.start, none]
        refine ⟨⟨⟨_, Nat.lt_succ_self _, rfl⟩, fun p hp same => ?_, trivial⟩, .start _ _ _⟩
        rcases List.mem_cons.1 hp with rfl | hp
        · rfl
        · obtain ⟨i, hi, hid⟩ := consistent.numbered p hp
          exact absurd (hid.symm.trans same) (path_new i hi)
      | _ => exact absurd hp List.not_mem_nil

/-- Later in a walk a path is in its place, and has only grown. -/
theorem grows_ofEvents {done more : List Event} (h : Trail.empty.AllowsAll (done ++ more)) {x : ℕ}
    (hp : (ofEvents done)[x]? = some p) :
    ∃ q, (ofEvents (done ++ more))[x]? = some q ∧ p.Grows q := by
  induction more using List.reverseRecOn with
  | nil => exact ⟨p, by simpa using hp, .refl p⟩
  | append_singleton more e ih =>
    rw [← List.append_assoc] at h ⊢
    obtain ⟨hd, he⟩ := Trail.allowsAll_concat.1 h
    obtain ⟨q, hq, grows⟩ := ih hd
    obtain ⟨hc, drawn⟩ := wellDrawn_ofEvents hd q (List.mem_of_getElem? hq)
    refine ⟨q.keep e, ?_, grows.trans (drawn.keep hc (Trail.consistent_empty.after hd) he).2⟩
    rw [ofEvents_concat, record_eq]
    have bound := (List.getElem?_eq_some_iff.1 hq).1
    rw [List.getElem?_append_left (by simpa using bound), List.getElem?_map]
    exact congrArg (Option.map (·.keep e)) hq

end CodePath

/-- The texts of segments on a walk tell them apart. -/
theorem SegmentId.eq_of_text_eq {j k : SegmentId} {m n : ℕ} (hj : j.path = .ordinal m)
    (hk : k.path = .ordinal n) (h : j.text = k.text) : j = k := by
  have digits (n : ℕ) : (toString n).toList = Nat.toDigits 10 n := by
    rw [Nat.toString_eq_ofList_toDigits, String.toList_ofList]
  have chars (m n : ℕ) : (SegmentId.mk (.ordinal m) n).text.toList =
      's' :: Nat.toDigits 10 m ++ '_' :: Nat.toDigits 10 n := by
    simp [text, PathId.text]
  have same_digits {m n : ℕ} (h : Nat.toDigits 10 m = Nat.toDigits 10 n) : m = n := by
    rw [← digits, ← digits] at h
    exact Nat.repr_inj.1 (String.toList_inj.1 h)
  obtain ⟨path, number⟩ := j
  obtain ⟨path', number'⟩ := k
  subst hj hk
  have split := congrArg String.toList h
  rw [chars, chars, List.append_cons_inj_of_notMem] at split
  · obtain ⟨paths, -, numbers⟩ := split
    rw [same_digits (List.cons.inj paths).2, same_digits numbers]
  · simp
  · simp

namespace CodePath

open Event

theorem nodup_texts {done : List Event} (hd : Trail.empty.AllowsAll done) :
    (((ofEvents done).flatMap (·.segments)).map (·.id.text)).Nodup := by
  have knows := Trail.knows_empty.after Trail.consistent_empty hd
  have own {p : CodePath} (hp : p ∈ ofEvents done) : p.segments = created p.id done :=
    (wellDrawn_ofEvents hd p hp).2.segments_eq
  have mem {s : Segment} (hs : s ∈ (ofEvents done).flatMap (·.segments)) :
      s ∈ Event.segments done := by
    obtain ⟨p, hp, hs⟩ := List.mem_flatMap.1 hs
    rw [own hp] at hs
    exact (List.mem_filter.1 hs).1
  refine List.Nodup.map_on (fun s hs q hq same => ?_) (List.nodup_flatMap.2 ⟨fun p hp => ?_, ?_⟩)
  · obtain ⟨i, -, path_eq⟩ := knows.numbered s (mem hs)
    obtain ⟨j, -, path_eq'⟩ := knows.numbered q (mem hq)
    exact List.inj_on_of_nodup_map knows.nodup (mem hs) (mem hq)
      (SegmentId.eq_of_text_eq path_eq path_eq' same)
  · rw [own hp]
    exact (List.Nodup.of_map _ knows.nodup).filter _
  · have drawn := Trail.drawn_ofEvents hd
    rw [List.pairwise_iff_getElem]
    intro x y hx hy hlt s hs hs'
    change s ∈ (ofEvents done)[x].segments at hs
    change s ∈ (ofEvents done)[y].segments at hs'
    rw [own (List.getElem_mem hx)] at hs
    rw [own (List.getElem_mem hy)] at hs'
    have same : (ofEvents done)[x].id = (ofEvents done)[y].id := by
      have path_eq := (List.mem_filter.1 hs).2
      have path_eq' := (List.mem_filter.1 hs').2
      rw [decide_eq_true_eq] at path_eq path_eq'
      exact path_eq.symm.trans path_eq'
    rw [drawn.ids x _ (List.getElem?_eq_getElem hx), drawn.ids y _ (List.getElem?_eq_getElem hy)]
      at same
    injection same with same
    omega

/-- Every graph of a walk is sound at every point of it. Each path that has started is well drawn;
the last segment created in it runs, unless the path has just started and has none yet. The segments
of all paths have different texts. By any later point of the walk the paths have only grown, and no
edge has changed its mark. -/
theorem drawn_along {n : Node} {done more : List Event} (h : done ++ more <+: n.events) :
    (∀ p ∈ ofEvents done, p.WellDrawn (created p.id done) ∧
      (p.current = [] → ∃ before owner upper, done = before ++ [.pathStart p.id owner upper])) ∧
    (((ofEvents done).flatMap (·.segments)).map (·.id.text)).Nodup ∧
    ∀ (x : ℕ) (p : CodePath), (ofEvents done)[x]? = some p →
      ∃ q, (ofEvents (done ++ more))[x]? = some q ∧ p.Grows q := by
  obtain ⟨later, hlater⟩ := h
  have allowed : Trail.empty.AllowsAll (done ++ more) := by
    have whole := n.events_allowed.1
    rw [← hlater] at whole
    exact (Trail.allowsAll_append.1 whole).1
  have hd := (Trail.allowsAll_append.1 allowed).1
  refine ⟨fun p hp => ?_, nodup_texts hd, fun x p hp => grows_ofEvents allowed hp⟩
  have well := (wellDrawn_ofEvents hd p hp).2
  refine ⟨well, fun none => ?_⟩
  obtain ⟨before, id, owner, upper, since, rfl, rfl⟩ := mem_ofEvents.1 hp
  rw [id_foldl] at well ⊢
  cases since with
  | nil => exact ⟨before, owner, upper, rfl⟩
  | cons e since =>
    -- The first segment has been created, so one runs.
    have suffix : .pathStart id owner upper :: (e :: since ++ (more ++ later)) <:+ n.events :=
      ⟨before, by simp [← hlater]⟩
    obtain ⟨rest, hrest⟩ := n.events_nested.first_segment suffix
    obtain ⟨rfl, -⟩ := List.cons.inj hrest
    have mem : ⟨⟨id, 1⟩, [], true⟩ ∈ created id (before ++ .pathStart id owner upper ::
        .segment ⟨⟨id, 1⟩, [], true⟩ :: since) :=
      List.mem_filter.2 ⟨mem_segments.2 (by simp), by simp⟩
    have empty := well.current.symm.trans none
    simp only [CodePath.start, Option.toList_eq_nil_iff, List.getLast?_eq_none_iff] at empty
    rw [empty] at mem
    exact absurd mem List.not_mem_nil

end CodePath

namespace Poll

/-- A program that goes around:

    while ready:
        tick
-/
def root : Node :=
  .mk 0 none (.module [.mk 1 none (.whileLoop (.mk 2 none (.name "ready" .load))
    [.mk 3 none (.exprStmt (.mk 4 none (.name "tick" .load)))] [])])

end Poll

/-- In the middle of the loop's body and at the end of the walk, where an edge leads back. -/
theorem CodePath.drawn_along_poll :
    let events := Poll.root.events
    let done := events.take 9
    done ++ events.drop 9 <+: events ∧ ∃ p q, (ofEvents done)[0]? = some p ∧
      (ofEvents events)[0]? = some q ∧ p.WellDrawn (Event.created (.ordinal 1) done) ∧ p.Grows q ∧
        p.segments.length = 3 ∧ q.successors ⟨.ordinal 1, 3⟩ = [(⟨.ordinal 1, 2⟩, true)] := by
  intro events done
  have whole : done ++ events.drop 9 = events := List.take_append_drop 9 events
  have within : done ++ events.drop 9 <+: events := by
    rw [whole]
  obtain ⟨drawn, -, grows⟩ := drawn_along within
  have first : (ofEvents done)[0]?.map (fun p => (p.id, p.segments.length)) =
      some (.ordinal 1, 3) := by cbv
  obtain ⟨p, hp, hshape⟩ := Option.map_eq_some_iff.1 first
  obtain ⟨hid, hlength⟩ := Prod.mk.inj hshape
  obtain ⟨q, hq, hpq⟩ := grows 0 p hp
  rw [whole] at hq
  have back : (ofEvents events)[0]?.map (·.successors ⟨.ordinal 1, 3⟩) =
      some [(⟨.ordinal 1, 2⟩, true)] := by cbv
  have looped : q.successors ⟨.ordinal 1, 3⟩ = [(⟨.ordinal 1, 2⟩, true)] := by
    rw [hq] at back
    exact Option.some.inj back
  refine ⟨within, p, q, hp, hq, ?_, hpq, hlength, looped⟩
  rw [← hid]
  exact (drawn p (List.mem_of_getElem? hp)).1

end LostUpdate
