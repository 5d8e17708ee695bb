import LostUpdate.Flow.CodePath
import Mathlib.Data.List.Basic

namespace LostUpdate

/-- Whether an event draws an edge from `j` to `k` in a path. -/
def Event.Draws (path : PathId) (j k : SegmentId) : Event → Prop
  | .segment s => path = s.id.path ∧ k = s.id ∧ j ∈ s.previous
  | .backEdge source target =>
    path = source.id.path ∧ source.isReachable = true ∧ j = source.id ∧ k = target.id
  | _ => False

namespace CodePath

/-- What an event makes of a path that has started. -/
def keep (p : CodePath) : Event → CodePath
  | .segment s => if p.id = s.id.path then p.startSegment s else p
  | .backEdge source target => if p.id = source.id.path then p.addLoopedEdge source target else p
  | .pathEnd id _ returned thrown =>
    if p.id = id then { p with returned := returned, thrown := thrown } else p
  | .pathStart .. | .enter _ | .exit _ => p

theorem record_eq (paths : List CodePath) (e : Event) : record paths e = paths.map (·.keep e) ++
    match e with
    | .pathStart id owner upper => [start id owner upper]
    | _ => [] := by
  cases e <;> simp [record, keep]

theorem mem_foldl_record {p : CodePath} {paths : List CodePath} {events : List Event} :
    p ∈ events.foldl record paths ↔ (∃ q ∈ paths, p = events.foldl keep q) ∨
      ∃ before id owner upper later, events = before ++ .pathStart id owner upper :: later ∧
        p = later.foldl keep (start id owner upper) := by
  induction events generalizing paths with
  | nil => simp
  | cons e events ih =>
    rw [List.foldl_cons, ih, record_eq]
    constructor
    · rintro (⟨q, hq, rfl⟩ | ⟨before, id, owner, upper, later, rfl, rfl⟩)
      · rcases List.mem_append.1 hq with hq | hq
        · obtain ⟨r, hr, rfl⟩ := List.mem_map.1 hq
          exact .inl ⟨r, hr, rfl⟩
        · cases e with
          | pathStart id owner upper =>
            obtain rfl := List.mem_singleton.1 hq
            exact .inr ⟨[], id, owner, upper, events, rfl, rfl⟩
          | _ => simp at hq
      · exact .inr ⟨e :: before, id, owner, upper, later, rfl, rfl⟩
    · rintro (⟨q, hq, rfl⟩ | ⟨before, id, owner, upper, later, hsplit, rfl⟩)
      · exact .inl ⟨q.keep e, List.mem_append_left _ (List.mem_map_of_mem hq), rfl⟩
      · cases before with
        | nil =>
          obtain ⟨rfl, rfl⟩ : e = .pathStart id owner upper ∧ events = later := by
            simpa using hsplit
          exact .inl ⟨_, List.mem_append_right _ List.mem_cons_self, rfl⟩
        | cons d before =>
          obtain ⟨rfl, rfl⟩ : e = d ∧ events = before ++ .pathStart id owner upper :: later := by
            simpa using hsplit
          exact .inr ⟨before, id, owner, upper, later, rfl, rfl⟩

theorem mem_ofEvents {p : CodePath} {events : List Event} : p ∈ ofEvents events ↔
    ∃ before id owner upper later, events = before ++ .pathStart id owner upper :: later ∧
      p = later.foldl keep (start id owner upper) := by
  simp [ofEvents, mem_foldl_record]

@[simp] theorem id_keep (p : CodePath) (e : Event) : (p.keep e).id = p.id := by
  cases e <;> simp only [keep, addLoopedEdge] <;> split_ifs <;> rfl

@[simp] theorem owner_keep (p : CodePath) (e : Event) : (p.keep e).owner = p.owner := by
  cases e <;> simp only [keep, addLoopedEdge] <;> split_ifs <;> rfl

/-- Whether an edge leads from `j` to `k`, looped or not. -/
def Leads (p : CodePath) (j k : SegmentId) : Prop := ∃ looped, (k, looped) ∈ p.successors j

/-- The vertices among which an edge leads from `j` to `k`. -/
def LeadsAmong (vertices : List Vertex) (j k : SegmentId) : Prop :=
  ∃ v ∈ vertices, v.id = j ∧ ∃ looped, (k, looped) ∈ v.successors

variable {vertices : List Vertex} {j k : SegmentId}

theorem mem_successors {p : CodePath} {e : SegmentId × Bool} :
    e ∈ p.successors j ↔ ∃ v ∈ p.vertices, v.id = j ∧ e ∈ v.successors := by
  simp [successors, and_assoc]

theorem leads_iff {p : CodePath} : p.Leads j k ↔ LeadsAmong p.vertices j k := by
  simp only [Leads, LeadsAmong, mem_successors]
  constructor
  · rintro ⟨looped, v, hv, hj, hk⟩
    exact ⟨v, hv, hj, looped, hk⟩
  · rintro ⟨v, hv, hj, looped, hk⟩
    exact ⟨looped, v, hv, hj, hk⟩

/-- What holds of the edges of a vertex, when one that is changed may come to have it. -/
theorem exists_touch {id : SegmentId} {f : Vertex → Vertex} {P : List (SegmentId × Bool) → Prop}
    {more : Prop} (none : ¬ P []) (hid : ∀ v, (f v).id = v.id)
    (hf : ∀ v, (v ∈ vertices ∧ v.id = id) ∨ v.successors = [] →
      (P (f v).successors ↔ P v.successors ∨ more)) :
    (∃ v ∈ touch id f vertices, v.id = j ∧ P v.successors) ↔
      (∃ v ∈ vertices, v.id = j ∧ P v.successors) ∨ (j = id ∧ more) := by
  unfold touch
  split_ifs with known
  · have image {v : Vertex} (hv : v ∈ vertices) :=
      List.mem_map_of_mem (f := fun v => if v.id = id then f v else v) hv
    constructor
    · rintro ⟨w, hw, rfl, hk⟩
      obtain ⟨v, hv, rfl⟩ := List.mem_map.1 hw
      by_cases same : v.id = id
      · simp only [same, if_true, hid] at hk ⊢
        exact ((hf v (.inl ⟨hv, same⟩)).1 hk).imp (fun hk => ⟨v, hv, same, hk⟩)
          fun hmore => ⟨trivial, hmore⟩
      · simp only [same, if_false] at hk ⊢
        exact .inl ⟨v, hv, rfl, hk⟩
    · rintro (⟨v, hv, rfl, hk⟩ | ⟨rfl, hmore⟩)
      · refine ⟨_, image hv, ?_⟩
        by_cases same : v.id = id
        · simp only [same, if_true, hid]
          exact ⟨trivial, (hf v (.inl ⟨hv, same⟩)).2 (.inl hk)⟩
        · simp only [same, if_false]
          exact ⟨trivial, hk⟩
      · obtain ⟨v, hv, rfl⟩ : ∃ v ∈ vertices, v.id = j := by simpa using known
        refine ⟨_, image hv, ?_⟩
        simp only [if_true, hid]
        exact ⟨trivial, (hf v (.inl ⟨hv, rfl⟩)).2 (.inr hmore)⟩
  · constructor
    · rintro ⟨w, hw, rfl, hk⟩
      rcases List.mem_append.1 hw with hw | hw
      · exact .inl ⟨w, hw, rfl, hk⟩
      · obtain rfl := List.mem_singleton.1 hw
        rcases (hf _ (.inr rfl)).1 hk with hk | hmore
        · exact absurd hk none
        · exact .inr ⟨hid _, hmore⟩
    · rintro (⟨v, hv, rfl, hk⟩ | ⟨rfl, hmore⟩)
      · exact ⟨v, List.mem_append_left _ hv, rfl, hk⟩
      · exact ⟨_, List.mem_append_right _ List.mem_cons_self, hid _,
          (hf _ (.inr rfl)).2 (.inr hmore)⟩

/-- A vertex that is changed may get edges. -/
theorem leadsAmong_touch {id : SegmentId} {f : Vertex → Vertex} {more : Prop}
    (hid : ∀ v, (f v).id = v.id)
    (hf : ∀ v, (∃ looped, (k, looped) ∈ (f v).successors) ↔
      (∃ looped, (k, looped) ∈ v.successors) ∨ more) :
    LeadsAmong (touch id f vertices) j k ↔ LeadsAmong vertices j k ∨ (j = id ∧ more) :=
  exists_touch (P := fun edges => ∃ looped, (k, looped) ∈ edges) (by simp) hid fun v _ => hf v

theorem leadsAmong_touch_same {id : SegmentId} {f : Vertex → Vertex} (hid : ∀ v, (f v).id = v.id)
    (hf : ∀ v, (f v).successors = v.successors) :
    LeadsAmong (touch id f vertices) j k ↔ LeadsAmong vertices j k := by
  have h : LeadsAmong (touch id f vertices) j k ↔ LeadsAmong vertices j k ∨ (j = id ∧ False) :=
    leadsAmong_touch hid fun v => by rw [hf, or_false]
  simpa using h

theorem exists_mem_setEdge {target : SegmentId} {looped : Bool}
    {edges : List (SegmentId × Bool)} : (∃ mark, (k, mark) ∈ setEdge target looped edges) ↔
      (∃ mark, (k, mark) ∈ edges) ∨ k = target := by
  unfold setEdge
  split_ifs with known
  · constructor
    · rintro ⟨mark, hmem⟩
      obtain ⟨e, he, hk⟩ := List.mem_map.1 hmem
      split_ifs at hk with same
      · exact .inr (congrArg Prod.fst hk).symm
      · exact .inl ⟨mark, hk ▸ he⟩
    · rintro (⟨mark, hmem⟩ | rfl)
      · by_cases same : k = target
        · exact ⟨looped, List.mem_map.2 ⟨(k, mark), hmem, by simp [same]⟩⟩
        · exact ⟨mark, List.mem_map.2 ⟨(k, mark), hmem, by simp [same]⟩⟩
      · obtain ⟨mark, hmem⟩ : ∃ mark, (k, mark) ∈ edges := by simpa using known
        exact ⟨looped, List.mem_map.2 ⟨(k, mark), hmem, by simp⟩⟩
  · simp only [List.mem_append, List.mem_singleton, Prod.mk.injEq]
    constructor
    · rintro ⟨mark, hmem | ⟨rfl, -⟩⟩
      · exact .inl ⟨mark, hmem⟩
      · exact .inr rfl
    · rintro (⟨mark, hmem⟩ | rfl)
      · exact ⟨mark, .inl hmem⟩
      · exact ⟨looped, .inr ⟨rfl, rfl⟩⟩

theorem leadsAmong_connect {source target : SegmentId} {looped : Bool} :
    LeadsAmong (connect source target looped vertices) j k ↔
      LeadsAmong vertices j k ∨ (j = source ∧ k = target) := by
  rw [connect, leadsAmong_touch_same (fun _ => rfl) fun _ => rfl]
  exact leadsAmong_touch (fun _ => rfl) fun _ => exists_mem_setEdge

theorem leads_insert {p : CodePath} {s : Segment} :
    (p.insert s).Leads j k ↔ p.Leads j k ∨ (k = s.id ∧ j ∈ s.previous) := by
  have edges (previous : List SegmentId) (vertices : List Vertex) :
      LeadsAmong (previous.foldl (fun vertices before => connect before s.id false vertices)
        vertices) j k ↔ LeadsAmong vertices j k ∨ (k = s.id ∧ j ∈ previous) := by
    induction previous generalizing vertices with
    | nil => simp
    | cons i previous ih =>
      rw [List.foldl_cons, ih, leadsAmong_connect, List.mem_cons]
      tauto
  rw [leads_iff, leads_iff]
  exact (edges _ _).trans (or_congr_left
    (leadsAmong_touch_same (fun _ => rfl) fun _ => rfl))

theorem leads_keep {p : CodePath} {e : Event} :
    (p.keep e).Leads j k ↔ p.Leads j k ∨ e.Draws p.id j k := by
  cases e with
  | segment s =>
    simp only [keep, Event.Draws]
    split_ifs with h
    · simp only [h, true_and]
      exact leads_insert
    · simp [h]
  | backEdge source target =>
    simp only [keep, addLoopedEdge, Event.Draws]
    split_ifs with h hr
    · rw [leads_iff, leads_iff]
      simpa [h, hr] using leadsAmong_connect
    · simp [hr]
    · simp [h]
  | pathEnd id owner returned thrown =>
    simp only [keep, Event.Draws, or_false]
    split_ifs <;> rfl
  | pathStart | enter | exit => simp [keep, Event.Draws]

theorem leads_foldl {p : CodePath} {events : List Event} :
    (events.foldl keep p).Leads j k ↔ p.Leads j k ∨ ∃ e ∈ events, e.Draws p.id j k := by
  induction events generalizing p with
  | nil => simp
  | cons e events ih =>
    rw [List.foldl_cons, ih, leads_keep, id_keep, List.exists_mem_cons_iff, or_assoc]

theorem id_foldl (p : CodePath) (events : List Event) : (events.foldl keep p).id = p.id := by
  induction events generalizing p with
  | nil => rfl
  | cons e events ih => rw [List.foldl_cons, ih, id_keep]

theorem owner_foldl (p : CodePath) (events : List Event) :
    (events.foldl keep p).owner = p.owner := by
  induction events generalizing p with
  | nil => rfl
  | cons e events ih => rw [List.foldl_cons, ih, owner_keep]

theorem ids_touch {id : SegmentId} {f : Vertex → Vertex} (hid : ∀ v, (f v).id = v.id)
    (vertices : List Vertex) :
    vertices.map (·.id) <+: (touch id f vertices).map (·.id) := by
  unfold touch
  split_ifs
  · have same : (vertices.map fun v => if v.id = id then f v else v).map (·.id) =
        vertices.map (·.id) := by
      rw [List.map_map]
      refine List.map_congr_left fun v _ => ?_
      by_cases h : v.id = id <;> simp [h, hid]
    exact same ▸ List.prefix_rfl
  · rw [List.map_append]
    exact List.prefix_append _ _

theorem ids_connect (source target : SegmentId) (looped : Bool) (vertices : List Vertex) :
    vertices.map (·.id) <+: (connect source target looped vertices).map (·.id) := by
  let draw (v : Vertex) : Vertex := { v with successors := setEdge target looped v.successors }
  have first : vertices.map (·.id) <+: (touch source draw vertices).map (·.id) :=
    ids_touch (f := draw) (fun _ => rfl) vertices
  exact first.trans (ids_touch (fun _ => rfl) _)

theorem ids_insert (p : CodePath) (s : Segment) :
    p.vertices.map (·.id) <+: (p.insert s).vertices.map (·.id) := by
  have edges (previous : List SegmentId) (vertices : List Vertex) : vertices.map (·.id) <+:
      (previous.foldl (fun vertices before => connect before s.id false vertices) vertices).map
        (·.id) := by
    induction previous generalizing vertices with
    | nil => exact List.prefix_rfl
    | cons k previous ih => exact (ids_connect k s.id false vertices).trans (ih _)
  exact (ids_touch (f := fun v => { v with segment := some s }) (fun _ => rfl) _).trans (edges _ _)

theorem ids_keep (p : CodePath) (e : Event) :
    p.vertices.map (·.id) <+: (p.keep e).vertices.map (·.id) := by
  cases e with
  | segment s =>
    rw [keep]
    split_ifs
    · exact ids_insert p s
    · exact List.prefix_rfl
  | backEdge source target =>
    rw [keep, addLoopedEdge]
    split_ifs
    · exact ids_connect _ _ _ _
    · exact List.prefix_rfl
    · exact List.prefix_rfl
  | pathEnd id owner returned thrown =>
    rw [keep]
    split_ifs <;> exact List.prefix_rfl
  | pathStart | enter | exit => exact List.prefix_rfl

theorem ids_foldl (p : CodePath) (events : List Event) :
    p.vertices.map (·.id) <+: (events.foldl keep p).vertices.map (·.id) := by
  induction events generalizing p with
  | nil => exact List.prefix_rfl
  | cons e events ih => exact (ids_keep p e).trans (ih _)

theorem initial?_foldl {p : CodePath} (h : p.initial? = some k) (events : List Event) :
    (events.foldl keep p).initial? = some k := by
  obtain ⟨more, hmore⟩ := ids_foldl p events
  rw [initial?, ← List.head?_map] at h ⊢
  obtain ⟨rest, hrest⟩ := List.head?_eq_some_iff.1 h
  rw [← hmore, hrest]
  rfl

end CodePath

end LostUpdate
