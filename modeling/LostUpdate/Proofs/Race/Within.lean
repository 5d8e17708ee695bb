import LostUpdate.Proofs.Race.Reporting
import LostUpdate.Proofs.Walk.Renumbering

namespace LostUpdate

namespace Trail

variable {c : Subject} {outer t : Trail} (above : Option PathId)

theorem within_followed (h : t.opened ≠ []) : (outer.within t).followed c = t.followed c := by
  cases hp : t.opened with
  | nil => exact absurd hp h
  | cons p rest => simp [followed, within, OpenPath.shift, hp]

theorem within_reference? (h : t.opened ≠ []) (n : Node) :
    (outer.within t).reference? c n = t.reference? c n := by
  unfold reference?
  rw [within_followed h]

theorem opened_ne_nil (h : ∃ p rest, t.opened = p :: rest ∧ p.segments ≠ []) : t.opened ≠ [] := by
  obtain ⟨p, rest, hp, -⟩ := h
  simp [hp]

theorem within_marked {e : Event} (he : t.Allows e) :
    (outer.within t).marked c (e.shift outer.started above) =
      (t.marked c e).map fun m => (m.1.shift outer.started, m.2) := by
  have here (hopened : t.opened ≠ [])
      (same : (outer.within t).mark? c (e.shift outer.started above) = t.mark? c e) :
      (outer.within t).marked c (e.shift outer.started above) =
        (t.marked c e).map fun m => (m.1.shift outer.started, m.2) := by
    unfold marked
    rw [same, within_running? hopened]
    cases t.running? <;> cases t.mark? c e <;> rfl
  cases e with
  | enter n =>
    have hopened := opened_ne_nil he
    refine here hopened ?_
    simp [Event.shift, mark?, within_reference? hopened]
  | exit n =>
    have hopened := opened_ne_nil he
    refine here hopened ?_
    simp [Event.shift, mark?, within_followed hopened]
  | _ =>
    rw [marked_of_mark?_eq_none rfl, marked_of_mark?_eq_none rfl]
    rfl

theorem within_marks {events : List Event} (he : t.AllowsAll events) :
    (outer.within t).marks c (events.map (Event.shift outer.started above)) =
      (t.marks c events).map fun m => (m.1.shift outer.started, m.2) := by
  induction events generalizing t with
  | nil => rfl
  | cons e events ih =>
    rw [List.map_cons, marks, marks, within_marked above he.1, within_record above he.1, ih he.2,
      List.map_append]

theorem within_meeting? {e : Event} (he : t.Allows e) :
    (outer.within t).meeting? c (e.shift outer.started above) = t.meeting? c e := by
  cases e with
  | enter n =>
    have hopened := opened_ne_nil he
    cases hp : t.opened with
    | nil => exact absurd hp hopened
    | cons p rest =>
      have owner : ((outer.within t).opened.head?).map (·.owner) = some p.owner := by
        simp [within, OpenPath.shift, hp]
      obtain ⟨q, hq, howner⟩ := Option.map_eq_some_iff.1 owner
      simp [Event.shift, meeting?, within_reference? hopened, hq, hp, howner]
  | _ => rfl

theorem within_meetings {events : List Event} (he : t.AllowsAll events) :
    (outer.within t).meetings c (events.map (Event.shift outer.started above)) =
      t.meetings c events := by
  induction events generalizing t with
  | nil => rfl
  | cons e events ih =>
    rw [List.map_cons, meetings, meetings, within_meeting? above he.1, within_record above he.1,
      ih he.2]

theorem mem_marks {events : List Event} (h : empty.AllowsAll events) :
    ∀ e ∈ empty.marks c events, e.1 ∈ (Event.segments events).map (·.id) := by
  induction events using List.reverseRecOn with
  | nil => simp [marks]
  | append_singleton events e ih =>
    obtain ⟨hevents, he⟩ := allowsAll_concat.1 h
    intro m hm
    rw [marks_append] at hm
    rw [Event.segments_append, List.map_append]
    refine List.mem_append_left _ ?_
    rcases List.mem_append.1 hm with hm | hm
    · exact ih hevents m hm
    · have knows := knows_empty.after consistent_empty hevents
      rw [List.nil_append] at knows
      simp only [marks, List.append_nil, marked] at hm
      split at hm
      · next k mk hrun hmark =>
        obtain rfl := List.mem_singleton.1 hm
        exact (knows.number_le_running (consistent_empty.after hevents) hrun).1
      · simp at hm

end Trail

/-- A segment of a path that has a number. -/
def SegmentId.IsNumbered (k : SegmentId) : Prop := ∃ i, k.path = .ordinal (i + 1)

/-- Segments of the first `n` paths are none of those that are numbered from there on. -/
theorem SegmentId.ne_shift {n : Nat} {k j : SegmentId} (hk : ∃ i < n, k.path = .ordinal (i + 1))
    (hj : j.IsNumbered) : k ≠ j.shift n := by
  rintro rfl
  obtain ⟨i, hi, hpath⟩ := hk
  obtain ⟨l, hl⟩ := hj
  simp only [shift, PathId.shift, hl, PathId.ordinal.injEq] at hpath
  omega

section Chains

variable {n : Nat} {earlier segments : List Segment} {marks older : List (SegmentId × Mark)}
  (hearlier : ∀ s ∈ earlier, ∃ i < n, s.id.path = .ordinal (i + 1))
  (hsegments : ∀ s ∈ segments, ∀ j ∈ s.previous, j.path = s.id.path)
  (holder : ∀ e ∈ older, ∃ i < n, e.1.path = .ordinal (i + 1))

include hearlier hsegments

/-- No chain to a later path comes from an earlier one. -/
theorem Segment.LeadsTo.of_shift {chain : List SegmentId} {k : SegmentId} (hk : k.IsNumbered)
    (h : LeadsTo (earlier ++ segments.map (shift n)) chain (k.shift n)) :
    ∃ inner, chain = inner.map (SegmentId.shift n) ∧ LeadsTo segments inner k ∧
      ∀ j ∈ inner, j.IsNumbered := by
  generalize hj : k.shift n = j at h
  induction h generalizing k with
  | start j =>
    subst hj
    exact ⟨[k], rfl, .start k, by simpa using hk⟩
  | step hbefore hs hprevious ih =>
    rcases List.mem_append.1 hs with hs | hs
    · exact absurd hj.symm (SegmentId.ne_shift (hearlier _ hs) hk)
    · obtain ⟨s, hmem, rfl⟩ := List.mem_map.1 hs
      obtain rfl : k = s.id := SegmentId.shift_injective n hj
      obtain ⟨j, hj, rfl⟩ := List.mem_map.1 hprevious
      have numbered : j.IsNumbered := by
        rw [SegmentId.IsNumbered, hsegments s hmem j hj]
        exact hk
      obtain ⟨inner, rfl, hinner, hall⟩ := ih numbered rfl
      refine ⟨inner ++ [s.id], by simp, hinner.step hmem hj, fun i hi => ?_⟩
      rcases List.mem_append.1 hi with hi | hi
      · exact hall i hi
      · rw [List.mem_singleton.1 hi]
        exact hk

omit hearlier hsegments in
theorem Segment.LeadsTo.shift {chain : List SegmentId} {k : SegmentId}
    (h : LeadsTo segments chain k) : LeadsTo (earlier ++ segments.map (Segment.shift n))
      (chain.map (SegmentId.shift n)) (k.shift n) := by
  induction h with
  | start k => exact .start _
  | step _ hs hprevious ih =>
    rw [List.map_append]
    exact ih.step (List.mem_append_right _ (List.mem_map_of_mem hs)) (List.mem_map_of_mem hprevious)

omit hearlier hsegments in
include holder in
theorem Mark.along_shift {chain : List SegmentId} (h : ∀ j ∈ chain, j.IsNumbered) :
    along (older ++ marks.map fun m => (m.1.shift n, m.2)) (chain.map (SegmentId.shift n)) =
      along marks chain := by
  unfold along
  rw [List.flatMap_map]
  refine List.flatMap_congr fun j hj => ?_
  have none : older.filter (fun e => decide (e.1 = j.shift n)) = [] := by
    rw [List.filter_eq_nil_iff]
    intro e he
    simpa using SegmentId.ne_shift (holder e he) (h j hj)
  rw [List.filter_append, none, List.nil_append, List.filter_map, List.map_map]
  congr 1
  refine List.filter_congr fun e _ => ?_
  simp [(SegmentId.shift_injective n).eq_iff]

include holder in
/-- What is outdated in a later path is so through its own segments and marks alone. -/
theorem Mark.outdatedAt_shift {k : SegmentId} (hk : k.IsNumbered) {v : Tracked} :
    OutdatedAt (earlier ++ segments.map (Segment.shift n))
      (older ++ marks.map fun m => (m.1.shift n, m.2)) (k.shift n) v ↔
        OutdatedAt segments marks k v := by
  constructor
  · rintro ⟨chain, hchain, hv⟩
    obtain ⟨inner, rfl, hinner, hall⟩ := hchain.of_shift hearlier hsegments hk
    rw [along_shift holder hall] at hv
    exact ⟨inner, hinner, hv⟩
  · rintro ⟨inner, hinner, hv⟩
    have outer : Segment.LeadsTo (earlier ++ segments.map (Segment.shift n))
        (inner.map (SegmentId.shift n)) (k.shift n) := hinner.shift
    obtain ⟨same, heq, -, hall⟩ := outer.of_shift hearlier hsegments hk
    obtain rfl := List.map_injective_iff.2 (SegmentId.shift_injective n) heq
    refine ⟨_, outer, ?_⟩
    rwa [along_shift holder hall]

end Chains

section Block

variable {c : Subject} {o : Outline} {n f : Node} {before later done rest : List Event}
  {above : Option PathId}

/-- The events of `f` stand in one piece among those of `n`, behind `before`. -/
def Node.Contains (n f : Node) (before later : List Event) (above : Option PathId) : Prop :=
  n.events = before ++ (f.events.map (Event.shift (Trail.empty.after before).started above) ++ later)

namespace Node.Contains

theorem split (h : n.Contains f before later above) (hf : f.events = done ++ rest) :
    n.events = before ++ done.map (Event.shift (Trail.empty.after before).started above) ++
      (rest.map (Event.shift (Trail.empty.after before).started above) ++ later) := by
  rw [Contains, hf, List.map_append] at h
  rw [h]
  simp only [List.append_assoc]

theorem allowed (h : n.Contains f before later above) : Trail.empty.AllowsAll before :=
  (Trail.allowsAll_append.1 (h ▸ n.events_allowed.1)).1

end Node.Contains

theorem Node.allowed_of_split (hf : f.events = done ++ rest) : Trail.empty.AllowsAll done :=
  (Trail.allowsAll_append.1 (hf ▸ f.events_allowed.1)).1

theorem Trail.after_block (hd : empty.AllowsAll done) (above : Option PathId) :
    empty.after (before ++ done.map (Event.shift (empty.after before).started above)) =
      (empty.after before).within (empty.after done) := by
  have inner : ((empty.after before).within empty).after _ = _ := within_after above hd
  rwa [within_empty, ← after_append] at inner

theorem Trail.marks_block (hd : empty.AllowsAll done) (above : Option PathId) :
    empty.marks c (before ++ done.map (Event.shift (empty.after before).started above)) =
      empty.marks c before ++
        (empty.marks c done).map fun m => (m.1.shift (empty.after before).started, m.2) := by
  have inner : ((empty.after before).within empty).marks c _ = _ := within_marks above hd
  rw [within_empty] at inner
  rw [marks_append, inner]

theorem Trail.meetings_block (hd : empty.AllowsAll done) (above : Option PathId) :
    empty.meetings c (before ++ done.map (Event.shift (empty.after before).started above)) =
      empty.meetings c before ++ empty.meetings c done := by
  have inner : ((empty.after before).within empty).meetings c _ = _ := within_meetings above hd
  rw [within_empty] at inner
  rw [meetings_append, inner]

theorem Trail.isNumbered_of_mem (hd : empty.AllowsAll done) {p : OpenPath}
    (hp : p ∈ (empty.after done).opened) {s : Segment} (hs : s ∈ p.segments) : s.id.IsNumbered := by
  have consistent := consistent_empty.after hd
  obtain ⟨i, -, hid⟩ := consistent.numbered p hp
  exact ⟨i, by rw [(consistent.successive p hp).path_eq s hs, hid]⟩

/-- A variable is outdated in the code of `f` inside `n` if it is in that of `f` alone. -/
theorem Meeting.outdatedAfter_block (hb : Trail.empty.AllowsAll before)
    (hd : Trail.empty.AllowsAll done) (above : Option PathId) {m : Meeting}
    (hm : ∃ outer, (Trail.empty.after done).owners = m.owner :: outer)
    (distinct : (Trail.empty.after (before ++ done.map
      (Event.shift (Trail.empty.after before).started above))).owners.Nodup) :
    m.OutdatedAfter c (before ++ done.map (Event.shift (Trail.empty.after before).started above)) ↔
      m.OutdatedAfter c done := by
  have earlier := Trail.knows_empty.after Trail.consistent_empty hb
  have inner := Trail.knows_empty.after Trail.consistent_empty hd
  rw [List.nil_append] at earlier inner
  have older : ∀ e ∈ Trail.empty.marks c before,
      ∃ i < (Trail.empty.after before).started, e.1.path = .ordinal (i + 1) := by
    intro e he
    obtain ⟨s, hs, hid⟩ := List.mem_map.1 (Trail.mem_marks hb e he)
    obtain ⟨i, hi, hpath⟩ := earlier.numbered s hs
    exact ⟨i, hi, hid ▸ hpath⟩
  have outdated {k : SegmentId} (hk : k.IsNumbered) {v : Tracked} : Mark.OutdatedAt _ _ _ v ↔
      Mark.OutdatedAt (Event.segments done) (Trail.empty.marks c done) k v :=
    Mark.outdatedAt_shift earlier.numbered (fun s hs j hj => (inner.previous s hs j hj).1) older hk
  rw [Trail.after_block hd] at distinct
  unfold OutdatedAfter
  rw [Trail.after_block hd, Trail.marks_block hd, Event.segments_append, Event.segments_shift]
  constructor
  · rintro ⟨q, hq, howner, s, hs, hout⟩
    obtain ⟨outer, howners⟩ := hm
    obtain ⟨p, opened, hp, hpowner, -⟩ := List.map_eq_cons_iff.1 howners
    have same : q = p.shift (Trail.empty.after before).started :=
      List.inj_on_of_nodup_map distinct hq (by simp [Trail.within, hp])
        (howner.trans hpowner.symm)
    subst same
    obtain ⟨r, hr, rfl⟩ : ∃ r, p.segments.head? = some r ∧
        r.shift (Trail.empty.after before).started = s := by
      simpa [OpenPath.shift] using hs
    have mem : p ∈ (Trail.empty.after done).opened := by simp [hp]
    have numbered := Trail.isNumbered_of_mem hd mem (List.mem_of_head? hr)
    exact ⟨p, mem, hpowner, r, hr, (outdated numbered).1 hout⟩
  · rintro ⟨p, hp, howner, s, hs, hout⟩
    have numbered := Trail.isNumbered_of_mem hd hp (List.mem_of_head? hs)
    refine ⟨p.shift (Trail.empty.after before).started, ?_, howner,
      s.shift (Trail.empty.after before).started, ?_, (outdated numbered).2 hout⟩
    · exact List.mem_append_left _ (List.mem_map_of_mem hp)
    · simp [OpenPath.shift, hs]

theorem Event.nodes_shift (side : Stop → Option Node) (k : Nat) (above : Option PathId)
    (events : List Event) : nodes side (events.map (shift k above)) = nodes side events := by
  have same (e : Event) : (e.shift k above).visit? = e.visit? := by cases e <;> rfl
  unfold nodes
  rw [List.filterMap_map]
  congr 1
  funext e
  simp [same]

/-- A code path that is open inside a piece has not started before it. -/
theorem Node.Contains.not_started {t : GrammaticalTree} (hn : n ∈ t.nodes)
    (h : n.Contains f before later above) (hf : f.events = done ++ rest) {owner : Node}
    (hd : owner ∈ (Trail.empty.after done).owners) :
    owner ∉ Event.nodes Stop.started? before := by
  intro hb
  have distinct := GrammaticalTree.nodup_events hn Stop.shows_started?
  rw [h.split hf, Event.nodes_append, Event.nodes_append, Event.nodes_shift] at distinct
  have apart := (List.nodup_append.1 (List.nodup_append.1 distinct).1).2.2
  have inside := List.mem_reverse.1 ((Trail.owners_sublist done).subset hd)
  exact apart owner hb owner inside rfl

/-- No one who has been met before a piece waits for a value that is left in it. -/
theorem Meeting.not_waitsFor_of_before (ho : c.scoping.Grammatical o)
    (hn : n ∈ c.scoping.tree.nodes)
    (h : n.Contains f before later above) {value : Node}
    (hf : f.events = done ++ .exit value :: rest) {m : Meeting}
    (hm : m ∈ Trail.empty.meetings c before) : ¬ m.WaitsFor c value := by
  intro hw
  have hd := Node.allowed_of_split hf
  have hexit : (Trail.empty.after done).opened ≠ [] := by
    have all := f.events_allowed.1
    rw [hf] at all
    exact Trail.opened_ne_nil (Trail.allowsAll_append.1 all).2.1
  obtain ⟨first, e, last, hbefore, hmeet⟩ := Trail.exists_meeting hm
  have met : m.owner ∈ Event.nodes Stop.started? before := by
    obtain ⟨-, p, outer, -, -, hopened, howner, -⟩ := Trail.meeting?_eq_some hmeet
    have own : m.owner ∈ (Trail.empty.after first).owners := by
      simp [Trail.owners, hopened, ← howner]
    have started := List.mem_reverse.1 ((Trail.owners_sublist first).subset own)
    rw [hbefore, Event.nodes_append]
    exact List.mem_append_left _ started
  have split := h.split hf
  obtain ⟨tail, htail⟩ : ∃ tail, n.events = before ++ tail := ⟨_, h⟩
  have whole : n.events = first ++ e :: (last ++ tail) := by
    rw [htail, hbefore]
    simp
  obtain ⟨-, ⟨outer, howners⟩, -⟩ := hw.exit ho hn whole hmeet split
  rw [Trail.after_block hd] at howners
  obtain ⟨p, opened, hp⟩ := List.exists_cons_of_ne_nil hexit
  have own : m.owner ∈ (Trail.empty.after done).owners := by
    obtain ⟨hhead, -⟩ : p.owner = m.owner ∧ _ := by
      simpa [Trail.owners, Trail.within, hp, OpenPath.shift] using howners
    simp [Trail.owners, hp, ← hhead]
  exact h.not_started (t := ho.tree) hn hf own met

open Classical in
/-- What is found in the code of `f` inside `n` is what is found in it alone. -/
theorem Finding.atEvent_block (ho : c.scoping.Grammatical o)
    (hn : n ∈ c.scoping.tree.nodes)
    (hf : f ∈ c.scoping.tree.nodes) (h : n.Contains f before later above) {e : Event}
    (hsplit : f.events = done ++ e :: rest) :
    atEvent c (Trail.empty.meetings c n.events)
        (before ++ done.map (Event.shift (Trail.empty.after before).started above))
        (e.shift (Trail.empty.after before).started above) =
      atEvent c (Trail.empty.meetings c f.events) done e := by
  cases e with
  | exit value =>
    have hd := Node.allowed_of_split hsplit
    have split := h.split hsplit
    have none : (Trail.empty.meetings c before).filter (·.WaitsFor c value) = [] := by
      rw [List.filter_eq_nil_iff]
      intro m hm
      simpa using Meeting.not_waitsFor_of_before ho hn h hsplit hm
    have waiting : (Trail.empty.meetings c n.events).filter (·.WaitsFor c value) =
        (Trail.empty.meetings c f.events).filter (·.WaitsFor c value) := by
      rw [filter_waitsFor ho hn split, Trail.meetings_block hd, List.filter_append, none,
        List.nil_append, filter_waitsFor ho hf hsplit]
    have both (met : List Meeting) (l : List Event) : met.filter (fun m =>
          decide (m.WaitsFor c value ∧ m.OutdatedAfter c (l ++ [.exit value]))) =
        (met.filter (·.WaitsFor c value)).filter fun m =>
          decide (m.OutdatedAfter c (l ++ [.exit value])) := by
      rw [List.filter_filter]
      refine List.filter_congr fun m _ => ?_
      rw [Bool.decide_and, Bool.and_comm]
    unfold atEvent Event.shift
    dsimp only
    rw [both, both, waiting]
    congr 1
    refine List.filter_congr fun m hm => ?_
    -- Whoever waits for the value was met in the code that is left with it.
    obtain ⟨hmet, hw⟩ := List.mem_filter.1 hm
    obtain ⟨first, e, last, hfirst, hmeet⟩ := Trail.exists_meeting hmet
    obtain ⟨-, howners, -⟩ :=
      (of_decide_eq_true hw).exit ho hf hfirst hmeet hsplit
    have hsplit' : f.events = (done ++ [.exit value]) ++ rest := by simp [hsplit]
    have owners : (Trail.empty.after (done ++ [.exit value])).owners =
        (Trail.empty.after done).owners := by
      rw [Trail.after_concat]
      rfl
    rw [← owners] at howners
    have same := Meeting.outdatedAfter_block (c := c) h.allowed (Node.allowed_of_split hsplit')
      above howners
      (GrammaticalTree.nodup_owners (t := ho.tree) hn (h.split hsplit'))
    rw [List.map_append, ← List.append_assoc] at same
    exact decide_eq_decide.2 same
  | _ => rfl

/-- The findings of `f` are those of `n` at the events of `f`. -/
theorem Finding.along_block (ho : c.scoping.Grammatical o)
    (hn : n ∈ c.scoping.tree.nodes)
    (hf : f ∈ c.scoping.tree.nodes) (h : n.Contains f before later above) :
    along c (Trail.empty.meetings c n.events) before
        (f.events.map (Event.shift (Trail.empty.after before).started above)) = c.findings f := by
  have steps (done rest : List Event) (hsplit : f.events = done ++ rest) :
      along c (Trail.empty.meetings c n.events)
          (before ++ done.map (Event.shift (Trail.empty.after before).started above))
          (rest.map (Event.shift (Trail.empty.after before).started above)) =
        along c (Trail.empty.meetings c f.events) done rest := by
    induction rest generalizing done with
    | nil => rfl
    | cons e rest ih =>
      have next := ih (done ++ [e]) (by simp [hsplit])
      rw [List.map_append, ← List.append_assoc] at next
      rw [List.map_cons, along, along, atEvent_block ho hn hf h hsplit, ← next]
      rfl
  have all := steps [] f.events rfl
  rw [List.map_nil, List.append_nil] at all
  exact all

/-- The findings of `n` are those before the code of `f`, those in it and those after it. -/
theorem Subject.findings_block (ho : c.scoping.Grammatical o)
    (hn : n ∈ c.scoping.tree.nodes)
    (hf : f ∈ c.scoping.tree.nodes) (h : n.Contains f before later above) : c.findings n =
      Finding.along c (Trail.empty.meetings c n.events) [] before ++ (c.findings f ++
        Finding.along c (Trail.empty.meetings c n.events) (before ++
          f.events.map (Event.shift (Trail.empty.after before).started above)) later) := by
  rw [← Finding.along_block ho hn hf h, ← Finding.along_append]
  have first := Finding.along_append c (Trail.empty.meetings c n.events) [] before
    (f.events.map (Event.shift (Trail.empty.after before).started above) ++ later)
  rw [List.nil_append] at first
  rw [← first, Subject.findings]
  congr 1

end Block

end LostUpdate
