import LostUpdate.Proofs.Race.Following
import LostUpdate.Proofs.Scope.Nesting
import LostUpdate.Proofs.Walk.Allowed
import Mathlib.Data.List.Induction

namespace LostUpdate

/-- The states are those of the segments so far, and each says what the chains to its segment leave. -/
structure SegmentStates.Exact (segments : List Segment) (marks : List (SegmentId × Mark))
    (m : SegmentStates SegmentId Tracked) : Prop where
  known : ∀ k, (m.state? k).isSome ↔ k ∈ segments.map (·.id)
  marked : ∀ e ∈ marks, e.1 ∈ segments.map (·.id)
  fresh : ∀ k st, m.state? k = some st → ∀ v, v ∈ st.fresh ↔ Mark.FreshAt segments marks k v
  outdated : ∀ k st, m.state? k = some st →
    ∀ v, v ∈ st.outdated ↔ Mark.OutdatedAt segments marks k v

namespace Segment.LeadsTo

variable {segments : List Segment} {chain : List SegmentId} {k : SegmentId}

theorem mono {more : List Segment} (h : LeadsTo segments chain k) (hm : segments ⊆ more) :
    LeadsTo more chain k := by
  induction h with
  | start k => exact .start k
  | step _ hs hj ih => exact .step ih (hm hs) hj

/-- A chain passes only through segments that come before others, but for its last one. -/
theorem eq_concat (h : LeadsTo segments chain k) :
    ∃ before, chain = before ++ [k] ∧ ∀ j ∈ before, ∃ s ∈ segments, j ∈ s.previous := by
  induction h with
  | start k => exact ⟨[], rfl, by simp⟩
  | @step chain j s _ hs hj ih =>
    obtain ⟨before, rfl, hbefore⟩ := ih
    refine ⟨before ++ [j], rfl, fun i hi => ?_⟩
    rcases List.mem_append.1 hi with hi | hi
    · exact hbefore i hi
    · obtain rfl := List.mem_singleton.1 hi
      exact ⟨s, hs, hj⟩

/-- A segment behind which nothing has started leads nowhere else. -/
theorem of_concat {s : Segment} (hs : ∀ r ∈ segments ++ [s], s.id ∉ r.previous) (hk : k ≠ s.id)
    (h : LeadsTo (segments ++ [s]) chain k) : LeadsTo segments chain k := by
  induction h with
  | start k => exact .start k
  | @step chain j r _ hr hj ih =>
    have hprev : j ≠ s.id := fun same => hs r hr (same ▸ hj)
    rcases List.mem_append.1 hr with hmem | hmem
    · exact .step (ih hprev) hmem hj
    · exact absurd (congrArg Segment.id (List.mem_singleton.1 hmem)) hk

theorem cases_last {s : Segment} (h : LeadsTo segments chain s.id) :
    chain = [s.id] ∨ ∃ r ∈ segments, r.id = s.id ∧ ∃ j ∈ r.previous, ∃ before,
      chain = before ++ [s.id] ∧ LeadsTo segments before j := by
  generalize hk : s.id = k at h
  cases h with
  | start => exact .inl rfl
  | @step before j r hb hr hj => exact .inr ⟨r, hr, rfl, j, hj, before, rfl, hb⟩

end Segment.LeadsTo

namespace Mark

variable {segments : List Segment} {marks : List (SegmentId × Mark)}

theorem along_append (marks : List (SegmentId × Mark)) (first second : List SegmentId) :
    along marks (first ++ second) = along marks first ++ along marks second := List.flatMap_append

theorem along_of_unmarked {k : SegmentId} (h : ∀ e ∈ marks, e.1 ≠ k) : along marks [k] = [] := by
  simp only [along, List.flatMap_cons, List.flatMap_nil, List.append_nil, List.map_eq_nil_iff,
    List.filter_eq_nil_iff, decide_eq_true_eq]
  exact h

theorem along_concat_of_notMem {k : SegmentId} {m : Mark} {chain : List SegmentId}
    (h : k ∉ chain) : along (marks ++ [(k, m)]) chain = along marks chain := by
  refine List.flatMap_congr fun j hj => ?_
  have hne : k ≠ j := fun same => h (same ▸ hj)
  simp [hne]

theorem along_concat_self (k : SegmentId) (m : Mark) :
    along (marks ++ [(k, m)]) [k] = along marks [k] ++ [m] := by
  simp [along]

/-- A mark in a segment that comes before no other is the last one along every chain to it, and does
not show along other chains. -/
theorem along_concat {chain : List SegmentId} {j k : SegmentId} {m : Mark}
    (hk : ∀ s ∈ segments, k ∉ s.previous) (h : Segment.LeadsTo segments chain j) :
    along (marks ++ [(k, m)]) chain = along marks chain ++ if j = k then [m] else [] := by
  obtain ⟨before, rfl, hbefore⟩ := h.eq_concat
  have apart : k ∉ before := fun hmem => by
    obtain ⟨s, hs, hprev⟩ := hbefore k hmem
    exact hk s hs hprev
  rw [along_append, along_append, along_concat_of_notMem apart]
  split_ifs with same
  · subst same
    rw [along_concat_self, List.append_assoc]
  · have hne : k ∉ [j] := by simpa using fun eq => same eq.symm
    rw [along_concat_of_notMem hne, List.append_nil]

variable {P : Tracked → List Mark → Prop}

/-- What chains leave at a new segment is what chains leave at the segments before it. -/
theorem exists_chain_new {s : Segment} (hnew : s.id ∉ segments.map (·.id))
    (hself : ∀ r ∈ segments ++ [s], s.id ∉ r.previous) (hmarks : ∀ e ∈ marks, e.1 ≠ s.id)
    {v : Tracked} (hnil : ¬ P v []) :
    (∃ chain, Segment.LeadsTo (segments ++ [s]) chain s.id ∧ P v (along marks chain)) ↔
      ∃ j ∈ s.previous, ∃ chain, Segment.LeadsTo segments chain j ∧ P v (along marks chain) := by
  have unmarked := along_of_unmarked hmarks
  constructor
  · rintro ⟨chain, hchain, hv⟩
    rcases hchain.cases_last with rfl | ⟨r, hr, hid, j, hj, before, rfl, hbefore⟩
    · rw [unmarked] at hv
      exact absurd hv hnil
    · have hrs : r = s := by
        rcases List.mem_append.1 hr with hr | hr
        · exact absurd (hid ▸ List.mem_map_of_mem hr) hnew
        · exact List.mem_singleton.1 hr
      subst hrs
      rw [along_append, unmarked, List.append_nil] at hv
      exact ⟨j, hj, before, hbefore.of_concat hself (fun same => hself r hr (same ▸ hj)), hv⟩
  · rintro ⟨j, hj, chain, hchain, hv⟩
    refine ⟨chain ++ [s.id], .step (hchain.mono (List.subset_append_left _ _))
      (List.mem_append_right _ List.mem_cons_self) hj, ?_⟩
    rwa [along_append, unmarked, List.append_nil]

theorem exists_chain_old {s : Segment} (hself : ∀ r ∈ segments ++ [s], s.id ∉ r.previous)
    {k : SegmentId} (hk : k ≠ s.id) {v : Tracked} :
    (∃ chain, Segment.LeadsTo (segments ++ [s]) chain k ∧ P v (along marks chain)) ↔
      ∃ chain, Segment.LeadsTo segments chain k ∧ P v (along marks chain) := by
  constructor
  · rintro ⟨chain, hchain, hv⟩
    exact ⟨chain, hchain.of_concat hself hk, hv⟩
  · rintro ⟨chain, hchain, hv⟩
    exact ⟨chain, hchain.mono (List.subset_append_left _ _), hv⟩

theorem not_leavesFresh_nil {v : Tracked} : ¬ LeavesFresh v [] := by
  rintro ⟨before, after, h, -⟩
  simp at h

theorem not_leavesOutdated_nil {v : Tracked} : ¬ LeavesOutdated v [] := by
  rintro ⟨before, between, after, h⟩
  simp at h

end Mark

namespace ReadState

theorem mem_fresh_foldr_join {v : Tracked} {states : List (ReadState Tracked)} :
    v ∈ (states.foldr join .empty).fresh ↔ ∃ st ∈ states, v ∈ st.fresh := by
  induction states with
  | nil => simp [empty]
  | cons st states ih => simp [ih]

theorem mem_outdated_foldr_join {v : Tracked} {states : List (ReadState Tracked)} :
    v ∈ (states.foldr join .empty).outdated ↔ ∃ st ∈ states, v ∈ st.outdated := by
  induction states with
  | nil => simp [empty]
  | cons st states ih => simp [ih]

end ReadState

namespace SegmentStates

variable {segments : List Segment} {marks : List (SegmentId × Mark)}
  {m : SegmentStates SegmentId Tracked}

theorem exact_empty : (SegmentStates.empty : SegmentStates SegmentId Tracked).Exact [] [] := by
  refine ⟨?_, ?_, ?_, ?_⟩ <;> simp [empty, state?]

/-- A new segment starts with the union of what is known in the segments before it. -/
theorem start_union (m : SegmentStates SegmentId Tracked) (k : SegmentId)
    (previous : List SegmentId) : ∃ st, (m.start k previous).state? k = some st ∧ ∀ v,
      (v ∈ st.fresh ↔ ∃ j ∈ previous, ∃ sj, m.state? j = some sj ∧ v ∈ sj.fresh) ∧
      (v ∈ st.outdated ↔ ∃ j ∈ previous, ∃ sj, m.state? j = some sj ∧ v ∈ sj.outdated) := by
  have through (P : ReadState Tracked → Prop) : (∃ sj ∈ previous.filterMap m.state?, P sj) ↔
      ∃ j ∈ previous, ∃ sj, m.state? j = some sj ∧ P sj := by
    simp only [List.mem_filterMap]
    constructor
    · intro h
      obtain ⟨sj, ⟨j, hj, hsj⟩, hv⟩ := h
      exact ⟨j, hj, sj, hsj, hv⟩
    · intro h
      obtain ⟨j, hj, sj, hsj, hv⟩ := h
      exact ⟨sj, ⟨j, hj, hsj⟩, hv⟩
  refine ⟨_, by rw [state?_start, if_pos rfl], fun v => ⟨?_, ?_⟩⟩
  · rw [ReadState.mem_fresh_foldr_join]
    exact through _
  · rw [ReadState.mem_outdated_foldr_join]
    exact through _

theorem Exact.start (h : m.Exact segments marks) {s : Segment}
    (hnew : s.id ∉ segments.map (·.id)) (hself : ∀ r ∈ segments ++ [s], s.id ∉ r.previous)
    (hprev : ∀ j ∈ s.previous, j ∈ segments.map (·.id)) :
    (m.start s.id s.previous).Exact (segments ++ [s]) marks := by
  have hmarks : ∀ e ∈ marks, e.1 ≠ s.id := fun e he same => hnew (same ▸ h.marked e he)
  have before {j : SegmentId} (hj : j ∈ s.previous) : ∃ sj, m.state? j = some sj :=
    Option.isSome_iff_exists.1 ((h.known j).2 (hprev j hj))
  obtain ⟨union, hunion, hmem⟩ := start_union m s.id s.previous
  have other {k : SegmentId} (hk : k ≠ s.id) : (m.start s.id s.previous).state? k = m.state? k := by
    rw [state?_start, if_neg hk]
  refine ⟨fun k => ?_, fun e he => ?_, fun k st hst v => ?_, fun k st hst v => ?_⟩
  · by_cases hk : k = s.id
    · simp [hk, hunion]
    · rw [other hk, h.known k]
      simp [hk]
  · rw [List.map_append]
    exact List.mem_append_left _ (h.marked e he)
  · by_cases hk : k = s.id
    · subst hk
      obtain rfl : union = st := Option.some.inj (hunion.symm.trans hst)
      rw [(hmem v).1, Mark.FreshAt,
        Mark.exists_chain_new hnew hself hmarks Mark.not_leavesFresh_nil]
      constructor
      · rintro ⟨j, hj, sj, hsj, hv⟩
        exact ⟨j, hj, (h.fresh j sj hsj v).1 hv⟩
      · rintro ⟨j, hj, hv⟩
        obtain ⟨sj, hsj⟩ := before hj
        exact ⟨j, hj, sj, hsj, (h.fresh j sj hsj v).2 hv⟩
    · rw [other hk] at hst
      rw [h.fresh k st hst v]
      exact (Mark.exists_chain_old hself hk).symm
  · by_cases hk : k = s.id
    · subst hk
      obtain rfl : union = st := Option.some.inj (hunion.symm.trans hst)
      rw [(hmem v).2, Mark.OutdatedAt,
        Mark.exists_chain_new hnew hself hmarks Mark.not_leavesOutdated_nil]
      constructor
      · rintro ⟨j, hj, sj, hsj, hv⟩
        exact ⟨j, hj, (h.outdated j sj hsj v).1 hv⟩
      · rintro ⟨j, hj, hv⟩
        obtain ⟨sj, hsj⟩ := before hj
        exact ⟨j, hj, sj, hsj, (h.outdated j sj hsj v).2 hv⟩
    · rw [other hk] at hst
      rw [h.outdated k st hst v]
      exact (Mark.exists_chain_old hself hk).symm

theorem state?_mark (m : SegmentStates SegmentId Tracked) (k j : SegmentId) (e : Mark) :
    (m.mark (k, e)).state? j = (m.state? j).map fun st => if j = k then
      (match e with
        | .read v => st.read v
        | .suspend => st.suspend)
      else st := by
  cases e <;> simp [mark, SegmentStates.read, SegmentStates.suspend, state?_update]

theorem Exact.mark (h : m.Exact segments marks) {k : SegmentId}
    (hmem : k ∈ segments.map (·.id)) (hk : ∀ s ∈ segments, k ∉ s.previous) (e : Mark) :
    (m.mark (k, e)).Exact segments (marks ++ [(k, e)]) := by
  refine ⟨fun j => ?_, fun f hf => ?_, fun j st hst v => ?_, fun j st hst v => ?_⟩
  · rw [state?_mark, Option.isSome_map]
    exact h.known j
  · rcases List.mem_append.1 hf with hf | hf
    · exact h.marked f hf
    · obtain rfl := List.mem_singleton.1 hf
      exact hmem
  · rw [state?_mark, Option.map_eq_some_iff] at hst
    obtain ⟨old, hold, rfl⟩ := hst
    have same : Mark.FreshAt segments (marks ++ [(k, e)]) j v ↔
        ∃ chain, Segment.LeadsTo segments chain j ∧
          Mark.LeavesFresh v (Mark.along marks chain ++ if j = k then [e] else []) :=
      exists_congr fun chain => and_congr_right fun hchain => by rw [Mark.along_concat hk hchain]
    rw [same]
    have holds := h.fresh j old hold v
    split_ifs with hj
    · cases e with
      | read w =>
        simp only [ReadState.mem_fresh_read, Mark.leavesFresh_concat_read, holds]
        constructor
        · rintro (hw | ⟨chain, hchain, hv⟩)
          · exact ⟨[j], .start j, .inl hw⟩
          · exact ⟨chain, hchain, .inr hv⟩
        · rintro ⟨chain, hchain, hw | hv⟩
          · exact .inl hw
          · exact .inr ⟨chain, hchain, hv⟩
      | suspend => simp [Mark.not_leavesFresh_concat_suspend]
    · simpa [Mark.FreshAt] using holds
  · rw [state?_mark, Option.map_eq_some_iff] at hst
    obtain ⟨old, hold, rfl⟩ := hst
    have same : Mark.OutdatedAt segments (marks ++ [(k, e)]) j v ↔
        ∃ chain, Segment.LeadsTo segments chain j ∧
          Mark.LeavesOutdated v (Mark.along marks chain ++ if j = k then [e] else []) :=
      exists_congr fun chain => and_congr_right fun hchain => by rw [Mark.along_concat hk hchain]
    rw [same]
    have holds := h.outdated j old hold v
    split_ifs with hj
    · cases e with
      | read w => simpa [Mark.leavesOutdated_concat_read, Mark.OutdatedAt] using holds
      | suspend =>
        simp only [ReadState.mem_outdated_suspend, Mark.leavesOutdated_concat_suspend, holds,
          h.fresh j old hold v]
        constructor
        · rintro (⟨chain, hchain, hv⟩ | ⟨chain, hchain, hv⟩)
          · exact ⟨chain, hchain, .inl hv⟩
          · exact ⟨chain, hchain, .inr hv⟩
        · rintro ⟨chain, hchain, hv | hv⟩
          · exact .inl ⟨chain, hchain, hv⟩
          · exact .inr ⟨chain, hchain, hv⟩
    · simpa [Mark.OutdatedAt] using holds

end SegmentStates

namespace Trail

variable {c : Subject} {t : Trail} {segments : List Segment}

/-- The segment that runs is the last one of its path. -/
theorem Knows.number_le_running (h : t.Knows segments) (ht : t.Consistent) {k : SegmentId}
    (hk : t.running? = some k) :
    k ∈ segments.map (·.id) ∧ ∀ s ∈ segments, s.id.path = k.path → s.id.number ≤ k.number := by
  obtain ⟨p, hp, hrun⟩ := Option.bind_eq_some_iff.1 hk
  obtain ⟨last, hlast, rfl⟩ := Option.map_eq_some_iff.1 hrun
  have hmem : p ∈ t.opened := List.mem_of_head? hp
  obtain ⟨earlier, hsegments⟩ := List.head?_eq_some_iff.1 hlast
  have successive := ht.successive p hmem
  have hid : last.id = ⟨p.id, earlier.length + 1⟩ := by
    rw [hsegments] at successive
    exact successive.1.id
  refine ⟨List.mem_map_of_mem ((h.own p hmem last).1 (by simp [hsegments])).1, fun s hs hpath => ?_⟩
  rw [hid] at hpath ⊢
  have bound := successive.number_le s ((h.own p hmem s).2 ⟨hs, hpath⟩)
  simpa [hsegments] using bound

theorem Knows.running_notMem_previous (h : t.Knows segments) (ht : t.Consistent) {k : SegmentId}
    (hk : t.running? = some k) : ∀ s ∈ segments, k ∉ s.previous := by
  intro s hs hprev
  obtain ⟨hpath, hlt, -⟩ := h.previous s hs k hprev
  have bound := (h.number_le_running ht hk).2 s hs hpath.symm
  omega

end Trail

theorem SegmentStates.Exact.advance {c : Subject} {t : Trail} {segments : List Segment}
    {marks : List (SegmentId × Mark)} {m : SegmentStates SegmentId Tracked}
    (h : m.Exact segments marks) (ht : t.Consistent) (hk : t.Knows segments) {e : Event}
    (he : t.Allows e) :
    (t.advance c m e).Exact (segments ++ Event.segments [e]) (marks ++ t.marks c [e]) := by
  have next := hk.record ht he
  have marked : (∀ s, e ≠ .segment s) → (t.advance c m e).Exact segments (marks ++ t.marks c [e]) := by
    intro hne
    have advance : t.advance c m e = (t.marked c e).foldl SegmentStates.mark m := by
      cases e with
      | segment s => exact absurd rfl (hne s)
      | _ => rfl
    rw [advance, Trail.marks, Trail.marks, List.append_nil]
    unfold Trail.marked
    split
    · next k mk hrun hmark =>
      exact h.mark (hk.number_le_running ht hrun).1 (hk.running_notMem_previous ht hrun) mk
    · simpa using h
  cases e with
  | segment s =>
    have unmarked : t.marks c [.segment s] = [] := by
      rw [Trail.marks, Trail.marked_of_mark?_eq_none rfl]
      rfl
    simp only [Event.segments] at next ⊢
    rw [unmarked, List.append_nil, Trail.advance]
    have hnew : s.id ∉ segments.map (·.id) := by
      have distinct := next.nodup
      rw [List.map_append, List.nodup_append] at distinct
      exact fun hmem => distinct.2.2 _ hmem s.id (by simp) rfl
    obtain ⟨p, rest, hp, hs⟩ := he
    have hprev : ∀ j ∈ s.previous, j ∈ segments.map (·.id) := by
      intro j hj
      obtain ⟨q, hq, -, rfl⟩ := hs.previous j hj
      exact List.mem_map_of_mem ((hk.own p (by simp [hp]) q).1 hq).1
    refine h.start hnew (fun r hr hself => ?_) hprev
    rcases List.mem_append.1 hr with hr | hr
    · obtain ⟨-, -, q, hq, hid⟩ := hk.previous r hr _ hself
      exact hnew (hid ▸ List.mem_map_of_mem hq)
    · obtain rfl := List.mem_singleton.1 hr
      exact hnew (hprev _ hself)
  | _ => simpa [Event.segments] using marked (by simp)

/-- Once a later segment of its path has started, a segment keeps its state. -/
theorem Trail.advance_state?_of_past {c : Subject} {t : Trail} {segments : List Segment}
    (m : SegmentStates SegmentId Tracked) (ht : t.Consistent) (hk : t.Knows segments) {e : Event}
    (he : t.Allows e) {k : SegmentId} (hmem : k ∈ segments.map (·.id))
    (hpast : ∃ s ∈ segments, s.id.path = k.path ∧ k.number < s.id.number) :
    (t.advance c m e).state? k = m.state? k := by
  have marked : (t.marked c e).foldl SegmentStates.mark m = m ∨ ∃ j mk, t.running? = some j ∧
      (t.marked c e).foldl SegmentStates.mark m = m.mark (j, mk) := by
    unfold marked
    split
    · next j mk hrun hmark => exact .inr ⟨j, mk, hrun, rfl⟩
    · exact .inl rfl
  have kept : ((t.marked c e).foldl SegmentStates.mark m).state? k = m.state? k := by
    rcases marked with same | ⟨j, mk, hrun, same⟩
    · rw [same]
    · have hne : k ≠ j := by
        rintro rfl
        obtain ⟨s, hs, hpath, hlt⟩ := hpast
        have bound := (hk.number_le_running ht hrun).2 s hs hpath
        omega
      rw [same, SegmentStates.state?_mark]
      simp [hne]
  cases e with
  | segment s =>
    have distinct := (hk.record ht he).nodup
    rw [Event.segments, Event.segments, List.map_append, List.nodup_append] at distinct
    have hne : k ≠ s.id := distinct.2.2 k hmem s.id (by simp)
    rw [Trail.advance, SegmentStates.state?_start, if_neg hne]
  | _ => exact kept

namespace Session

variable {c : Subject}

theorem run_concat {s₀ s : Session} {done : List Event} {e : Event} :
    s₀.run c (done ++ [e]) = .ok s ↔
      ∃ before, s₀.run c done = .ok before ∧ before.step c e = (s, none) := by
  simp only [run, List.foldlM_append, List.foldlM_cons, List.foldlM_nil, bind_pure]
  cases hrun : List.foldlM (after c) s₀ done with
  | error fault => simp [bind, Except.bind]
  | ok before =>
    simp only [bind, Except.bind, Except.ok.injEq, exists_eq_left', after]
    rcases before.step c e with ⟨next, _ | fault⟩ <;> simp

/-- Wherever a walk stands, the tracker has followed it and its states are exact. -/
theorem follows_run {done : List Event} (hd : Trail.empty.AllowsAll done) {s : Session}
    (hs : Session.initial.run c done = .ok s) :
    s.Follows c (Trail.empty.after done) ∧
      s.tracker.states.Exact (Event.segments done) (Trail.empty.marks c done) := by
  induction done using List.reverseRecOn generalizing s with
  | nil =>
    obtain rfl : Session.initial = s := by simpa [run, pure, Except.pure] using hs
    exact ⟨Follows.initial, SegmentStates.exact_empty⟩
  | append_singleton done e ih =>
    obtain ⟨before, hbefore, hstep⟩ := run_concat.1 hs
    obtain ⟨hd, he⟩ := Trail.allowsAll_concat.1 hd
    obtain ⟨follows, exact⟩ := ih hd hbefore
    have consistent := Trail.consistent_empty.after hd
    have knows := Trail.knows_empty.after Trail.consistent_empty hd
    rw [List.nil_append] at knows
    have next := follows.step consistent he
    have states := follows.step_states he
    rw [hstep] at next states
    rw [Trail.after_concat]
    refine ⟨next, ?_⟩
    rw [states, Event.segments_append, Trail.marks_append]
    exact exact.advance consistent knows he

/-- A segment that has just started knows what the segments before it know. -/
theorem state?_started {earlier : List Event} {seg : Segment}
    (hd : Trail.empty.AllowsAll (earlier ++ [.segment seg])) {s : Session}
    (hs : Session.initial.run c (earlier ++ [.segment seg]) = .ok s) :
    ∃ st, s.tracker.states.state? seg.id = some st ∧ ∀ v,
      (v ∈ st.fresh ↔ ∃ j ∈ seg.previous, ∃ sj, s.tracker.states.state? j = some sj ∧
        v ∈ sj.fresh) ∧
      (v ∈ st.outdated ↔ ∃ j ∈ seg.previous, ∃ sj, s.tracker.states.state? j = some sj ∧
        v ∈ sj.outdated) := by
  obtain ⟨before, hbefore, hstep⟩ := run_concat.1 hs
  obtain ⟨hearlier, hseg⟩ := Trail.allowsAll_concat.1 hd
  have consistent := Trail.consistent_empty.after hearlier
  have states := (follows_run hearlier hbefore).1.step_states hseg
  rw [hstep] at states
  change s.tracker.states = before.tracker.states.start seg.id seg.previous at states
  obtain ⟨st, hst, hv⟩ := SegmentStates.start_union before.tracker.states seg.id seg.previous
  have same {j : SegmentId} (hj : j ∈ seg.previous) :
      s.tracker.states.state? j = before.tracker.states.state? j := by
    obtain ⟨p, rest, hp, hcontinues⟩ := hseg
    obtain ⟨q, hq, -, rfl⟩ := hcontinues.previous j hj
    have bound := (consistent.successive p (by simp [hp])).number_le q hq
    have hne : q.id ≠ seg.id := fun same => by
      have number : seg.id.number = p.segments.length + 1 := by rw [hcontinues.id]
      rw [same, number] at bound
      omega
    rw [states, SegmentStates.state?_start, if_neg hne]
  refine ⟨st, states ▸ hst, fun v => ⟨(hv v).1.trans ?_, (hv v).2.trans ?_⟩⟩
  all_goals exact exists_congr fun j => and_congr_right fun hj => by rw [same hj]

/-- What a segment knows when the next one of its path starts, it knows for good. -/
theorem state?_final {earlier later : List Event} {seg : Segment}
    (hd : Trail.empty.AllowsAll (earlier ++ .segment seg :: later)) {before s : Session}
    (hb : Session.initial.run c earlier = .ok before)
    (hs : Session.initial.run c (earlier ++ .segment seg :: later) = .ok s) {k : SegmentId}
    {st : ReadState Tracked} (hst : before.tracker.states.state? k = some st)
    (hpath : seg.id.path = k.path) : s.tracker.states.state? k = some st := by
  obtain ⟨hearlier, hseg, -⟩ := Trail.allowsAll_append.1 hd
  obtain ⟨follows, exact⟩ := follows_run hearlier hb
  have consistent := Trail.consistent_empty.after hearlier
  have knows := Trail.knows_empty.after Trail.consistent_empty hearlier
  rw [List.nil_append] at knows
  have hk : k ∈ (Event.segments earlier).map (·.id) := (exact.known k).1 (by simp [hst])
  have hlt : k.number < seg.id.number := by
    obtain ⟨p, rest, hp, hcontinues⟩ := hseg
    obtain ⟨q, hq, rfl⟩ := List.mem_map.1 hk
    have own : q ∈ p.segments := by
      refine (knows.own p (by simp [hp]) q).2 ⟨hq, ?_⟩
      rw [← hpath, hcontinues.id]
    have bound := (consistent.successive p (by simp [hp])).number_le q own
    rw [hcontinues.id]
    exact Nat.lt_succ_of_le bound
  induction later using List.reverseRecOn generalizing s with
  | nil =>
    obtain ⟨last, hlast, hstep⟩ := run_concat.1 hs
    obtain rfl : before = last := Except.ok.inj (hb.symm.trans hlast)
    have states := follows.step_states hseg
    have hne : k ≠ seg.id := fun same => by
      rw [same] at hlt
      exact Nat.lt_irrefl _ hlt
    rw [hstep, Trail.advance] at states
    change s.tracker.states = _ at states
    rw [states, SegmentStates.state?_start, if_neg hne, hst]
  | append_singleton later e ih =>
    rw [← List.cons_append, ← List.append_assoc] at hd hs
    obtain ⟨last, hlast, hstep⟩ := run_concat.1 hs
    obtain ⟨hdone, he⟩ := Trail.allowsAll_concat.1 hd
    have states := (follows_run hdone hlast).1.step_states he
    rw [hstep] at states
    change s.tracker.states = _ at states
    have knows := Trail.knows_empty.after Trail.consistent_empty hdone
    rw [List.nil_append] at knows
    have hsegments : Event.segments (earlier ++ .segment seg :: later) =
        Event.segments earlier ++ seg :: Event.segments later := Event.segments_append _ _
    rw [states, Trail.advance_state?_of_past _ (Trail.consistent_empty.after hdone) knows he]
    · exact ih hdone hlast
    · rw [hsegments, List.map_append]
      exact List.mem_append_left _ hk
    · exact ⟨seg, by simp [hsegments], hpath, hlt⟩

end Session

/-- The read states are exact at every point of a walk. A variable is outdated in a segment iff some
chain of segments to it has a read of the variable and later a suspension, and fresh iff some chain
has a read and no suspension after it. A segment starts with the union of the states before it, and
from the start of the next segment of its path on its state stays as it is. -/
theorem readStates_exact (c : Subject) (n : Node) {done rest : List Event}
    (h : n.events = done ++ rest) {s : Session} (hs : Session.initial.run c done = .ok s) :
    (∀ k, (s.tracker.states.state? k).isSome ↔ k ∈ (Event.segments done).map (·.id)) ∧
    (∀ k st, s.tracker.states.state? k = some st → ∀ v,
      (v ∈ st.outdated ↔ ∃ chain, Segment.LeadsTo (Event.segments done) chain k ∧
        Mark.LeavesOutdated v (Mark.along (Trail.empty.marks c done) chain)) ∧
      (v ∈ st.fresh ↔ ∃ chain, Segment.LeadsTo (Event.segments done) chain k ∧
        Mark.LeavesFresh v (Mark.along (Trail.empty.marks c done) chain))) ∧
    (∀ earlier seg, done = earlier ++ [.segment seg] →
      ∃ st, s.tracker.states.state? seg.id = some st ∧ ∀ v,
        (v ∈ st.fresh ↔ ∃ j ∈ seg.previous, ∃ sj, s.tracker.states.state? j = some sj ∧
          v ∈ sj.fresh) ∧
        (v ∈ st.outdated ↔ ∃ j ∈ seg.previous, ∃ sj, s.tracker.states.state? j = some sj ∧
          v ∈ sj.outdated)) ∧
    (∀ earlier seg later before, done = earlier ++ .segment seg :: later →
      Session.initial.run c earlier = .ok before → ∀ k st,
        before.tracker.states.state? k = some st → seg.id.path = k.path →
          s.tracker.states.state? k = some st) := by
  have hd : Trail.empty.AllowsAll done := (Trail.allowsAll_append.1 (h ▸ n.events_allowed.1)).1
  obtain ⟨follows, exact⟩ := Session.follows_run hd hs
  refine ⟨exact.known, fun k st hst v => ⟨exact.outdated k st hst v, exact.fresh k st hst v⟩,
    ?_, ?_⟩
  · rintro earlier seg rfl
    exact Session.state?_started hd hs
  · rintro earlier seg later before rfl hb k st hst hpath
    exact Session.state?_final hd hb hs hst hpath

/-- At the end of the walk some chain leaves the counter outdated in the coroutine. -/
theorem readStates_exact_bump :
    let c : Subject := ⟨Bump.scoping, none, []⟩
    let total := Tracked.bound 0 "total"
    ∃ s k st, Session.initial.run c Bump.root.events = .ok s ∧
      s.tracker.states.state? k = some st ∧ total ∈ st.outdated ∧
        ∃ chain, Segment.LeadsTo (Event.segments Bump.root.events) chain k ∧
          Mark.LeavesOutdated total (Mark.along (Trail.empty.marks c Bump.root.events) chain) := by
  intro c total
  have known : ((Session.initial.run c Bump.root.events).toOption.bind fun s =>
      (s.tracker.states.state? ⟨.ordinal 2, 1⟩).map fun st => decide (total ∈ st.outdated)) =
        some true := by cbv
  obtain ⟨s, hs, hst⟩ := Option.bind_eq_some_iff.1 known
  obtain ⟨st, hst, houtdated⟩ := Option.map_eq_some_iff.1 hst
  have hrun : Session.initial.run c Bump.root.events = .ok s := by
    cases h : Session.initial.run c Bump.root.events <;> simp_all [Except.toOption]
  have outdated := of_decide_eq_true houtdated
  have exact := (readStates_exact c Bump.root (List.append_nil _).symm hrun).2.1 _ st hst total
  exact ⟨s, _, st, hrun, hst, outdated, exact.1.1 outdated⟩

end LostUpdate
