import LostUpdate.Proofs.Walk.Graph
import Mathlib.Data.List.Flatten
import Mathlib.Data.List.Perm.Subperm

namespace LostUpdate

namespace CodePath

/-- A table of degrees: a number for each of the vertices `ids`. -/
def degreeTable (ids : List SegmentId) (degree : SegmentId → Nat) : List (SegmentId × Nat) :=
  ids.map fun k => (k, degree k)

theorem mem_degreeTable {ids : List SegmentId} {degree : SegmentId → Nat} {k : SegmentId} {n : Nat} :
    (k, n) ∈ degreeTable ids degree ↔ k ∈ ids ∧ degree k = n := by
  simp only [degreeTable, List.mem_map, Prod.mk.injEq]
  constructor
  · intro h
    obtain ⟨_, hj, rfl, hn⟩ := h
    exact ⟨hj, hn⟩
  · intro h
    exact ⟨k, h.1, rfl, h.2⟩

/-- Following edges takes their number from each degree, and frees each vertex once that has none
left then. -/
theorem release_degreeTable (ids : List SegmentId) (degree : SegmentId → Nat)
    (targets : List SegmentId) :
    (release (degreeTable ids degree) targets).2 =
        degreeTable ids (fun k => degree k - targets.count k) ∧
      (release (degreeTable ids degree) targets).1.Nodup ∧
      ∀ k, k ∈ (release (degreeTable ids degree) targets).1 ↔
        k ∈ ids ∧ 0 < degree k ∧ degree k ≤ targets.count k := by
  induction targets generalizing degree with
  | nil =>
    refine ⟨by simp [release], by simp [release], fun k => ?_⟩
    simp only [release, List.not_mem_nil, List.count_nil, false_iff, not_and]
    omega
  | cons t rest ih =>
    let lowered : SegmentId → Nat := fun k => if k = t then degree k - 1 else degree k
    have left : (degreeTable ids degree).map (fun e => if e.1 = t then (e.1, e.2 - 1) else e) =
        degreeTable ids lowered := by
      simp only [degreeTable, List.map_map]
      refine List.map_congr_left fun k _ => ?_
      by_cases hk : k = t <;> simp [lowered, hk]
    obtain ⟨table, distinct, freed⟩ := ih lowered
    have lowered_self : lowered t = degree t - 1 := if_pos rfl
    have lowered_ne {k : SegmentId} (hk : k ≠ t) : lowered k = degree k := if_neg hk
    simp only [release]
    rw [left]
    refine ⟨?_, ?_, fun k => ?_⟩
    · rw [table]
      refine congrArg (degreeTable ids) (funext fun k => ?_)
      by_cases hk : k = t
      · subst hk
        rw [lowered_self, List.count_cons_self]
        omega
      · rw [lowered_ne hk, List.count_cons_of_ne (Ne.symm hk)]
    · split_ifs with last
      · refine List.nodup_cons.2 ⟨fun again => ?_, distinct⟩
        have pos := ((freed t).1 again).2.1
        rw [lowered_self, (mem_degreeTable.1 last).2] at pos
        omega
      · exact distinct
    · by_cases hk : k = t
      · subst hk
        rw [List.count_cons_self]
        split_ifs with last
        · obtain ⟨known, one⟩ := mem_degreeTable.1 last
          simp only [List.mem_cons_self, true_iff]
          exact ⟨known, by omega, by omega⟩
        · rw [freed, lowered_self]
          have more : k ∈ ids → degree k ≠ 1 := fun known one => last (mem_degreeTable.2 ⟨known, one⟩)
          constructor
          · intro h
            exact ⟨h.1, by omega, by omega⟩
          · intro h
            have := more h.1
            exact ⟨h.1, by omega, by omega⟩
      · rw [List.count_cons_of_ne (Ne.symm hk), ← lowered_ne hk, ← freed]
        split_ifs
        · exact List.mem_cons.trans (or_iff_right hk)
        · exact Iff.rfl

/-- Where the edges of a vertex lead that are not looped. -/
def targets (v : Vertex) : List SegmentId := (v.successors.filter (!·.2)).map (·.1)

/-- The number of edges into `k` from vertices outside `done` that are not looped. -/
def edgesInto (vertices : List Vertex) (done : List SegmentId) (k : SegmentId) : Nat :=
  ((vertices.filter (·.id ∉ done)).flatMap targets).count k

theorem forward_of_mem {p : CodePath} (h : (p.vertices.map (·.id)).Nodup) {v : Vertex}
    (hv : v ∈ p.vertices) : p.forward v.id = targets v := by
  have single : p.vertices.filter (·.id = v.id) = [v] := by
    obtain ⟨before, after, hsplit⟩ := List.append_of_mem hv
    rw [hsplit, List.map_append, List.map_cons, List.nodup_append, List.nodup_cons] at h
    obtain ⟨-, ⟨hafter, -⟩, hbefore⟩ := h
    rw [hsplit, List.filter_append, List.filter_cons_of_pos (by simp)]
    have none (l : List Vertex) (hl : ∀ w ∈ l, w.id ≠ v.id) : l.filter (·.id = v.id) = [] := by
      simpa using hl
    rw [none before fun w hw => hbefore _ (List.mem_map_of_mem hw) _ List.mem_cons_self,
      none after fun w hw same => hafter (same ▸ List.mem_map_of_mem hw)]
    rfl
  simp [forward, successors, single, targets]

/-- What a generation leads to is what its vertices lead to, if it has each of them once. -/
theorem edgesInto_append {p : CodePath} (h : (p.vertices.map (·.id)).Nodup)
    {done generation : List SegmentId} (distinct : (done ++ generation).Nodup)
    (known : ∀ k ∈ generation, k ∈ p.vertices.map (·.id)) (k : SegmentId) :
    edgesInto p.vertices done k =
      edgesInto p.vertices (done ++ generation) k + (generation.flatMap p.forward).count k := by
  obtain ⟨-, once, apart⟩ := List.nodup_append.1 distinct
  let inside := p.vertices.filter (·.id ∈ generation)
  have followed : (inside.flatMap targets).count k = (generation.flatMap p.forward).count k := by
    have same : inside.flatMap targets = (inside.map (·.id)).flatMap p.forward := by
      rw [List.flatMap_map]
      refine List.flatMap_congr fun v hv => ?_
      exact (forward_of_mem h (List.mem_filter.1 hv).1).symm
    have perm : (inside.map (·.id)).Perm generation := by
      refine (List.perm_ext_iff_of_nodup (h.sublist (List.filter_sublist.map _)) once).2 fun j => ?_
      constructor
      · intro hj
        obtain ⟨v, hv, rfl⟩ := List.mem_map.1 hj
        simpa using (List.mem_filter.1 hv).2
      · intro hj
        obtain ⟨v, hv, rfl⟩ := List.mem_map.1 (known j hj)
        exact List.mem_map_of_mem (List.mem_filter.2 ⟨hv, by simpa using hj⟩)
    rw [same]
    exact (perm.flatMap_right p.forward).count_eq k
  have split (l : List Vertex) : ((l.filter (·.id ∉ done)).flatMap targets).count k =
      ((l.filter (·.id ∉ done ++ generation)).flatMap targets).count k +
        ((l.filter (·.id ∈ generation)).flatMap targets).count k := by
    induction l with
    | nil => rfl
    | cons v l ih =>
      by_cases hg : v.id ∈ generation
      · have hd : v.id ∉ done := fun hd => apart _ hd _ hg rfl
        simp [hd, hg, List.count_append] at ih ⊢
        omega
      · by_cases hd : v.id ∈ done <;> simp [hd, hg, List.count_append] at ih ⊢ <;> omega
  calc edgesInto p.vertices done k
    _ = edgesInto p.vertices (done ++ generation) k + (inside.flatMap targets).count k :=
      split p.vertices
    _ = edgesInto p.vertices (done ++ generation) k + (generation.flatMap p.forward).count k := by
      rw [followed]

/-- How far the order has come: the degrees count the edges from what is not done yet, and the
vertices into which none of these leads are done or come next. -/
structure Advanced (p : CodePath) (degree : SegmentId → Nat) (generation done : List SegmentId) :
    Prop where
  degree_eq : ∀ k ∈ p.vertices.map (·.id), degree k = edgesInto p.vertices done k
  free : ∀ k ∈ p.vertices.map (·.id), degree k = 0 ↔ k ∈ done ++ generation
  distinct : (done ++ generation).Nodup
  known : ∀ k ∈ generation, k ∈ p.vertices.map (·.id)

/-- The vertices that are not done. -/
def remaining (p : CodePath) (done : List SegmentId) : List SegmentId :=
  (p.vertices.map (·.id)).filter (· ∉ done)

variable {p : CodePath} {segments : List Segment}

namespace Advanced

variable {degree : SegmentId → Nat} {generation done : List SegmentId}

theorem step (h : p.Advanced degree generation done) (hn : (p.vertices.map (·.id)).Nodup) :
    p.Advanced (fun k => degree k - (generation.flatMap p.forward).count k)
      (release (degreeTable (p.vertices.map (·.id)) degree) (generation.flatMap p.forward)).1
      (done ++ generation) := by
  obtain ⟨-, once, freed⟩ :=
    release_degreeTable (p.vertices.map (·.id)) degree (generation.flatMap p.forward)
  refine ⟨fun k hk => ?_, fun k hk => ?_, ?_, fun k hk => ((freed k).1 hk).1⟩
  · have before := h.degree_eq k hk
    have after := edgesInto_append hn h.distinct h.known k
    omega
  · rw [List.mem_append, ← h.free k hk, freed]
    constructor
    · intro hzero
      by_cases hd : degree k = 0
      · exact .inl hd
      · exact .inr ⟨hk, by omega, by omega⟩
    · intro hzero
      omega
  · refine List.nodup_append.2 ⟨h.distinct, once, fun j hj k hk same => ?_⟩
    obtain ⟨known, pos, -⟩ := (freed k).1 hk
    have := (h.free k known).2 (same ▸ hj)
    omega

/-- An edge from a vertex that is not done leads to one that comes later still. -/
theorem notMem_of_forward (h : p.Advanced degree generation done) {v : Vertex} {k : SegmentId}
    (hv : v ∈ p.vertices) (hout : v.id ∉ done) (hk : k ∈ p.vertices.map (·.id))
    (he : k ∈ targets v) : k ∉ done ++ generation := by
  rw [← h.free k hk, h.degree_eq k hk, edgesInto, List.count_eq_zero, not_not]
  exact List.mem_flatMap.2 ⟨v, List.mem_filter.2 ⟨hv, by simpa using hout⟩, he⟩

/-- The first of the remaining vertices comes next: what leads into it is done. -/
theorem first_mem (h : p.Advanced degree generation done) (hd : Vertex.Drawn segments p.vertices)
    {k : SegmentId} (hk : k ∈ p.remaining done)
    (hmin : ∀ j ∈ p.remaining done, k.number ≤ j.number) : k ∈ generation := by
  obtain ⟨hmem, hnot⟩ : k ∈ p.vertices.map (·.id) ∧ k ∉ done := by
    simpa [remaining] using hk
  have none : edgesInto p.vertices done k = 0 := by
    rw [edgesInto, List.count_eq_zero]
    intro hin
    obtain ⟨v, hv, ht⟩ := List.mem_flatMap.1 hin
    obtain ⟨hv, hout⟩ := List.mem_filter.1 hv
    obtain ⟨e, he, rfl⟩ := List.mem_map.1 ht
    obtain ⟨he, hforward⟩ := List.mem_filter.1 he
    have lower := (hd.edges v hv e he).2 (by simpa using hforward)
    have left : v.id ∈ p.remaining done :=
      List.mem_filter.2 ⟨List.mem_map_of_mem hv, hout⟩
    have := hmin v.id left
    omega
  have zero : degree k = 0 := (h.degree_eq k hmem).trans none
  exact (List.mem_append.1 ((h.free k hmem).1 zero)).resolve_left hnot

theorem exists_first {l : List SegmentId} (h : l ≠ []) :
    ∃ k ∈ l, ∀ j ∈ l, k.number ≤ j.number := by
  induction l with
  | nil => exact absurd rfl h
  | cons a l ih =>
    by_cases hl : l = []
    · exact ⟨a, List.mem_cons_self, by simp [hl]⟩
    · obtain ⟨k, hk, hmin⟩ := ih hl
      by_cases hle : a.number ≤ k.number
      · refine ⟨a, List.mem_cons_self, fun j hj => ?_⟩
        rcases List.mem_cons.1 hj with rfl | hj
        · exact Nat.le_refl _
        · exact Nat.le_trans hle (hmin j hj)
      · refine ⟨k, List.mem_cons_of_mem _ hk, fun j hj => ?_⟩
        rcases List.mem_cons.1 hj with rfl | hj
        · omega
        · exact hmin j hj

theorem mem_remaining {k : SegmentId} :
    k ∈ p.remaining done ↔ k ∈ p.vertices.map (·.id) ∧ k ∉ done := by
  rw [remaining, List.mem_filter, decide_eq_true_eq]

theorem generation_eq_nil (h : p.Advanced degree generation done)
    (hd : Vertex.Drawn segments p.vertices) : generation = [] ↔ p.remaining done = [] := by
  constructor
  · intro none
    by_contra more
    obtain ⟨first, hfirst, hmin⟩ := exists_first more
    have next := h.first_mem hd hfirst hmin
    rw [none] at next
    exact absurd next List.not_mem_nil
  · intro none
    refine List.eq_nil_iff_forall_not_mem.2 fun k hk => ?_
    have apart := (List.nodup_append.1 h.distinct).2.2
    have left : k ∈ p.remaining done := mem_remaining.2 ⟨h.known k hk, fun hd => apart k hd k hk rfl⟩
    rw [none] at left
    exact absurd left List.not_mem_nil

theorem remaining_lt (h : p.Advanced degree generation done)
    (hd : Vertex.Drawn segments p.vertices) (hg : generation ≠ []) :
    (p.remaining (done ++ generation)).length < (p.remaining done).length := by
  have sub : p.remaining (done ++ generation) =
      (p.remaining done).filter (· ∉ generation) := by
    simp only [remaining, List.filter_filter]
    refine List.filter_congr fun j _ => ?_
    simp only [List.mem_append, not_or, Bool.decide_and, Bool.and_comm]
  obtain ⟨first, hfirst, hmin⟩ := exists_first (mt (h.generation_eq_nil hd).2 hg)
  have next := h.first_mem hd hfirst hmin
  rw [sub]
  refine List.length_filter_lt_length_iff_exists.2 ⟨first, hfirst, ?_⟩
  simpa only [decide_not, Bool.not_eq_true', decide_eq_false_iff_not, not_not] using next

/-- One generation comes, and then what comes from the next one on. -/
theorem orderFrom_succ (hg : generation ≠ []) (fuel : Nat) :
    p.orderFrom (fuel + 1) (degreeTable (p.vertices.map (·.id)) degree) generation =
      generation ++ p.orderFrom fuel (degreeTable (p.vertices.map (·.id))
        fun k => degree k - (generation.flatMap p.forward).count k)
          (release (degreeTable (p.vertices.map (·.id)) degree)
            (generation.flatMap p.forward)).1 := by
  obtain ⟨g, rest, rfl⟩ := List.exists_cons_of_ne_nil hg
  have table := (release_degreeTable (p.vertices.map (·.id)) degree
    ((g :: rest).flatMap p.forward)).1
  simp only [orderFrom, table]

end Advanced

/-- What comes after `done` in an order: each vertex that is not done, once, and before all to which
edges lead from it that are not looped. -/
structure Orders (p : CodePath) (done order : List SegmentId) : Prop where
  distinct : (done ++ order).Nodup
  known : ∀ k ∈ order, k ∈ p.vertices.map (·.id)
  all : ∀ k ∈ p.vertices.map (·.id), k ∈ done ++ order
  forward : ∀ v ∈ p.vertices, v.id ∉ done → ∀ k ∈ targets v, [v.id, k].Sublist order

namespace Advanced

variable {degree : SegmentId → Nat} {generation done : List SegmentId}

theorem orders_nil (h : p.Advanced degree generation done) (hr : p.remaining done = []) :
    p.Orders done [] := by
  have all : ∀ k ∈ p.vertices.map (·.id), k ∈ done := by
    intro k hk
    by_contra hnot
    have left := mem_remaining.2 ⟨hk, hnot⟩
    rw [hr] at left
    exact absurd left List.not_mem_nil
  refine ⟨?_, by simp, by simpa using all, fun v hv hnot => ?_⟩
  · rw [List.append_nil]
    exact (List.nodup_append.1 h.distinct).1
  · exact absurd (all v.id (List.mem_map_of_mem hv)) hnot

/-- A generation comes before the order of what remains. -/
theorem orders_append (h : p.Advanced degree generation done)
    (hd : Vertex.Drawn segments p.vertices) {order : List SegmentId}
    (ho : p.Orders (done ++ generation) order) : p.Orders done (generation ++ order) := by
  refine ⟨?_, ?_, ?_, fun v hv hout k hk => ?_⟩
  · rw [← List.append_assoc]
    exact ho.distinct
  · intro k hk
    exact (List.mem_append.1 hk).elim (h.known k) (ho.known k)
  · rw [← List.append_assoc]
    exact ho.all
  · obtain ⟨e, he, rfl⟩ := List.mem_map.1 hk
    have target := (hd.edges v hv e (List.mem_filter.1 he).1).1
    by_cases hg : v.id ∈ generation
    · have later : e.1 ∈ order :=
        (List.mem_append.1 (ho.all e.1 target)).resolve_left (h.notMem_of_forward hv hout target hk)
      exact (List.singleton_sublist.2 hg).append (List.singleton_sublist.2 later)
    · have left : v.id ∉ done ++ generation := by
        rw [List.mem_append, not_or]
        exact ⟨hout, hg⟩
      exact (ho.forward v hv left e.1 hk).trans (List.sublist_append_right _ _)

/-- With enough generations left, they order all that is not done. -/
theorem orders (h : p.Advanced degree generation done) (hd : Vertex.Drawn segments p.vertices)
    (hn : (p.vertices.map (·.id)).Nodup) (fuel : Nat) (hf : (p.remaining done).length ≤ fuel) :
    p.Orders done
      (p.orderFrom fuel (degreeTable (p.vertices.map (·.id)) degree) generation) := by
  induction fuel generalizing degree generation done with
  | zero =>
    rw [orderFrom]
    exact h.orders_nil (List.length_eq_zero_iff.1 (Nat.le_zero.1 hf))
  | succ fuel ih =>
    by_cases hg : generation = []
    · subst hg
      exact h.orders_nil ((h.generation_eq_nil hd).1 rfl)
    · have fewer := h.remaining_lt hd hg
      rw [orderFrom_succ hg]
      exact h.orders_append hd (ih (h.step hn) (by omega))

/-- More generations than there are vertices left add nothing. -/
theorem orderFrom_add (h : p.Advanced degree generation done)
    (hd : Vertex.Drawn segments p.vertices) (hn : (p.vertices.map (·.id)).Nodup) (fuel more : Nat)
    (hf : (p.remaining done).length ≤ fuel) :
    p.orderFrom (fuel + more) (degreeTable (p.vertices.map (·.id)) degree) generation =
      p.orderFrom fuel (degreeTable (p.vertices.map (·.id)) degree) generation := by
  induction fuel generalizing degree generation done with
  | zero =>
    have none := List.length_eq_zero_iff.1 (Nat.le_zero.1 hf)
    rw [(h.generation_eq_nil hd).2 none]
    cases more <;> rfl
  | succ fuel ih =>
    by_cases hg : generation = []
    · rw [hg, Nat.succ_add]
      rfl
    · have fewer := h.remaining_lt hd hg
      rw [Nat.succ_add, orderFrom_succ hg, orderFrom_succ hg, ih (h.step hn) (by omega)]

end Advanced

theorem inDegrees_eq (p : CodePath) : p.inDegrees = degreeTable (p.vertices.map (·.id))
    (fun k => (p.vertices.flatMap targets).count k) := by
  rw [inDegrees, degreeTable, List.map_map]
  rfl

theorem advanced_inDegrees (p : CodePath) (hn : (p.vertices.map (·.id)).Nodup) :
    p.Advanced (fun k => (p.vertices.flatMap targets).count k)
      ((p.inDegrees.filter (·.2 = 0)).map (·.1)) [] := by
  let degree : SegmentId → Nat := fun k => (p.vertices.flatMap targets).count k
  have first : (p.inDegrees.filter (·.2 = 0)).map (·.1) =
      (p.vertices.map (·.id)).filter (degree · = 0) := by
    rw [inDegrees_eq, degreeTable, List.filter_map, List.map_map]
    exact List.map_id _
  rw [first]
  refine ⟨fun k _ => by simp [edgesInto], fun k hk => ?_, hn.filter _, fun k hk => ?_⟩
  · rw [List.nil_append, List.mem_filter, decide_eq_true_eq]
    exact (and_iff_right hk).symm
  · exact (List.mem_filter.1 hk).1

/-- The order of a drawn graph is topological, and has all its vertices. -/
theorem orders_order (hd : Vertex.Drawn segments p.vertices)
    (hn : (p.vertices.map (·.id)).Nodup) : p.Orders [] p.order := by
  have length : (p.remaining []).length ≤ p.vertices.length :=
    Nat.le_trans (List.length_filter_le _ _) (by simp)
  have ordered := (p.advanced_inDegrees hn).orders hd hn p.vertices.length length
  rwa [← inDegrees_eq] at ordered

theorem exists_mapM_ok {f : SegmentId → Except GraphFault Segment} {R : SegmentId → Segment → Prop}
    {l : List SegmentId} (h : ∀ k ∈ l, ∃ s, f k = .ok s ∧ R k s) :
    ∃ found, l.mapM f = .ok found ∧ List.Forall₂ R l found := by
  induction l with
  | nil => exact ⟨[], rfl, .nil⟩
  | cons k l ih =>
    obtain ⟨s, hs, hR⟩ := h k List.mem_cons_self
    obtain ⟨found, hfound, each⟩ := ih fun j hj => h j (List.mem_cons_of_mem _ hj)
    refine ⟨s :: found, ?_, .cons hR each⟩
    rw [List.mapM_cons, hs, hfound]
    rfl

theorem filterMap_of_forall₂ {f : SegmentId → Option Segment} {l : List SegmentId}
    {found : List Segment} (h : List.Forall₂ (fun k s => f k = some s) l found) :
    l.filterMap f = found := by
  induction h with
  | nil => rfl
  | cons hs _ ih => rw [List.filterMap_cons_some hs, ih]

theorem segment?_of_mem (hn : (p.vertices.map (·.id)).Nodup) {v : Vertex} (hv : v ∈ p.vertices) :
    p.segment? v.id = v.segment := by
  have found : p.vertices.find? (·.id = v.id) = some v := by
    obtain ⟨before, after, hsplit⟩ := List.append_of_mem hv
    rw [hsplit, List.map_append, List.nodup_append] at hn
    rw [hsplit, List.find?_append, List.find?_eq_none.2, Option.none_or,
      List.find?_cons_of_pos (by simp)]
    intro w hw
    have apart := hn.2.2 w.id (List.mem_map_of_mem hw) v.id (by simp)
    simpa using apart
  rw [segment?, found, Option.bind_some]

/-- The graph of a path is traversed without a fault. Its segments come in the order of their
vertices. -/
theorem exists_traverse (hd : Vertex.Drawn segments p.vertices)
    (hn : (p.vertices.map (·.id)).Nodup) :
    ∃ l, p.traverse = .ok l ∧ l.map (·.id) = p.order ∧ l.Perm p.segments := by
  have ordered := orders_order hd hn
  have perm : p.order.Perm (p.vertices.map (·.id)) :=
    (List.perm_ext_iff_of_nodup ordered.distinct hn).2 fun k => ⟨ordered.known k, ordered.all k⟩
  have long : ¬ p.order.length < p.vertices.length := by
    have := perm.length_eq
    rw [List.length_map] at this
    omega
  have found : ∃ l, p.traverse = .ok l ∧
      List.Forall₂ (fun k s => p.segment? k = some s ∧ k = s.id) p.order l := by
    simp only [traverse, if_neg long, bind_pure]
    refine exists_mapM_ok fun k hk => ?_
    obtain ⟨v, hv, rfl⟩ := List.mem_map.1 (ordered.known k hk)
    obtain ⟨s, -, hs, same⟩ := hd.segment v hv
    have known : p.segment? v.id = some s := (segment?_of_mem hn hv).trans hs
    exact ⟨s, by simp only [known], known, same.symm⟩
  obtain ⟨l, traverses, each⟩ := found
  refine ⟨l, traverses, ?_, ?_⟩
  · have ids : List.Forall₂ Eq p.order (l.map (·.id)) :=
      List.forall₂_map_right_iff.2 (each.imp fun _ _ h => h.2)
    exact (List.forall₂_eq_eq_eq ▸ ids : p.order = _).symm
  · have labels : p.order.filterMap p.segment? = l :=
      filterMap_of_forall₂ (each.imp fun _ _ h => h.1)
    have own : p.segments = (p.vertices.map (·.id)).filterMap p.segment? := by
      rw [CodePath.segments, List.filterMap_map]
      exact List.filterMap_congr fun v hv => (segment?_of_mem hn hv).symm
    rw [← labels, own]
    exact perm.filterMap p.segment?

end CodePath

end LostUpdate
