import LostUpdate.Proofs.Walk.Edges
import LostUpdate.Proofs.Walk.Moves
import LostUpdate.Proofs.Walk.Trail

namespace LostUpdate

namespace Trail

/-- The names that are evaluated while the segment `k` runs. -/
def entered (k : SegmentId) : Trail → List Event → List Node
  | _, [] => []
  | t, e :: later => (if t.running? = some k then e.names else []) ++ entered k (t.record e) later

theorem entered_append (k : SegmentId) (t : Trail) (first second : List Event) :
    entered k t (first ++ second) = entered k t first ++ entered k (t.after first) second := by
  induction first generalizing t with
  | nil => rfl
  | cons e first ih => simp [entered, ih]

variable {t : Trail} {k : SegmentId} {e : Event} {events : List Event}

/-- The path `id` has ended. -/
def Closed (t : Trail) (id : PathId) : Prop :=
  (∃ i < t.started, id = .ordinal (i + 1)) ∧ ∀ p ∈ t.opened, p.id ≠ id

/-- The segment `k` has ended. -/
def Past (t : Trail) (k : SegmentId) : Prop :=
  (∃ i < t.started, k.path = .ordinal (i + 1)) ∧
    ∀ p ∈ t.opened, p.id = k.path → k.number < p.segments.length

theorem Closed.past (h : t.Closed k.path) : t.Past k :=
  ⟨h.1, fun p hp same => absurd same (h.2 p hp)⟩

theorem Past.record (h : t.Past k) (he : t.Allows e) : (t.record e).Past k := by
  obtain ⟨⟨i, hi, hk⟩, h⟩ := h
  cases e with
  | pathStart id owner upper =>
    obtain ⟨rfl, -⟩ := he
    refine ⟨⟨i, Nat.lt_succ_of_lt hi, hk⟩, fun p hp same => ?_⟩
    rcases List.mem_cons.1 hp with rfl | hp
    · rw [hk] at same
      injection same with same
      omega
    · exact h p hp same
  | segment s =>
    obtain ⟨q, rest, ht, -⟩ := he
    simp only [Past, Trail.record, ht] at h ⊢
    refine ⟨⟨i, hi, hk⟩, fun p hp same => ?_⟩
    rcases List.mem_cons.1 hp with rfl | hp
    · exact Nat.lt_succ_of_lt (h q List.mem_cons_self same)
    · exact h p (List.mem_cons_of_mem _ hp) same
  | pathEnd => exact ⟨⟨i, hi, hk⟩, fun p hp => h p (List.mem_of_mem_tail hp)⟩
  | backEdge | enter | exit => exact ⟨⟨i, hi, hk⟩, h⟩

theorem Closed.record {id : PathId} (h : t.Closed id) (he : t.Allows e) :
    (t.record e).Closed id := by
  obtain ⟨⟨i, hi, hid⟩, h⟩ := h
  cases e with
  | pathStart start owner upper =>
    obtain ⟨rfl, -⟩ := he
    refine ⟨⟨i, Nat.lt_succ_of_lt hi, hid⟩, fun p hp same => ?_⟩
    rcases List.mem_cons.1 hp with rfl | hp
    · rw [hid] at same
      injection same with same
      omega
    · exact h p hp same
  | segment s =>
    obtain ⟨q, rest, ht, -⟩ := he
    simp only [Closed, Trail.record, ht] at h ⊢
    refine ⟨⟨i, hi, hid⟩, fun p hp => ?_⟩
    rcases List.mem_cons.1 hp with rfl | hp
    · exact h q List.mem_cons_self
    · exact h p (List.mem_cons_of_mem _ hp)
  | pathEnd => exact ⟨⟨i, hi, hid⟩, fun p hp => h p (List.mem_of_mem_tail hp)⟩
  | backEdge | enter | exit => exact ⟨⟨i, hi, hid⟩, h⟩

theorem Consistent.running?_eq (ht : t.Consistent) (h : t.running? = some k) :
    ∃ p rest, t.opened = p :: rest ∧ p.id = k.path ∧ p.segments.length = k.number := by
  obtain ⟨p, hp, hk⟩ := Option.bind_eq_some_iff.1 h
  obtain ⟨s, hs, rfl⟩ := Option.map_eq_some_iff.1 hk
  obtain ⟨rest, hrest⟩ := List.head?_eq_some_iff.1 hp
  obtain ⟨earlier, hearlier⟩ := List.head?_eq_some_iff.1 hs
  have successive := ht.successive p (hrest ▸ List.mem_cons_self)
  rw [hearlier] at successive
  have id := successive.1.id
  exact ⟨p, rest, hrest, by rw [id], by rw [hearlier, id, List.length_cons]⟩

theorem Past.running?_ne (h : t.Past k) (ht : t.Consistent) : t.running? ≠ some k := by
  intro running
  obtain ⟨p, rest, hp, hid, hlength⟩ := ht.running?_eq running
  have bound := h.2 p (hp ▸ List.mem_cons_self) hid
  omega

theorem entered_of_past (h : t.Past k) (ht : t.Consistent) (he : t.AllowsAll events) :
    entered k t events = [] := by
  induction events generalizing t with
  | nil => rfl
  | cons e events ih =>
    rw [entered, if_neg (h.running?_ne ht), ih (h.record he.1) (ht.record he.1) he.2]
    rfl

/-- Nothing is evaluated in a segment that has not started. -/
theorem entered_of_notMem {segments : List Segment} (h : t.Knows segments) (ht : t.Consistent)
    (he : t.AllowsAll events) (hk : k ∉ (segments ++ Event.segments events).map (·.id)) :
    entered k t events = [] := by
  induction events generalizing t segments with
  | nil => rfl
  | cons e events ih =>
    have idle : t.running? ≠ some k := by
      intro running
      obtain ⟨p, hp, hid⟩ := Option.bind_eq_some_iff.1 running
      obtain ⟨s, hs, rfl⟩ := Option.map_eq_some_iff.1 hid
      have known := (h.own p (List.mem_of_head? hp) s).1 (List.mem_of_head? hs)
      exact hk (List.mem_map_of_mem (List.mem_append_left _ known.1))
    rw [entered, if_neg idle]
    refine ih (h.record ht he.1) (ht.record he.1) he.2 ?_
    rwa [List.append_assoc, ← Event.segments_append, List.singleton_append]

theorem entered_of_fresh {done : List Event} {s : Segment}
    (he : empty.AllowsAll (done ++ [.segment s])) : empty.entered s.id done = [] := by
  have known := (knows_empty.after consistent_empty he).nodup
  refine entered_of_notMem knows_empty consistent_empty (allowsAll_append.1 he).1 ?_
  simp only [Event.segments_append, Event.segments, List.nil_append, List.map_append,
    List.map_cons, List.map_nil, List.nodup_append] at known ⊢
  exact fun mem => known.2.2 _ mem _ List.mem_cons_self rfl

theorem entered_started {done : List Event} {s : Segment}
    (he : empty.AllowsAll (done ++ [.segment s])) :
    empty.entered s.id (done ++ [.segment s]) = [] := by
  rw [entered_append, entered_of_fresh he]
  simp [entered, Event.names]

theorem keep_of_closed {p : CodePath} (h : t.Closed p.id) (ht : t.Consistent) (he : t.Allows e) :
    p.keep e = p := by
  cases e with
  | segment s =>
    obtain ⟨q, rest, hq, hs⟩ := he
    refine if_neg fun same => h.2 q (hq ▸ List.mem_cons_self) ?_
    rw [same, hs.id]
  | backEdge source target =>
    obtain ⟨q, rest, earlier, hq, hsegments, -⟩ := he
    have mem : q ∈ t.opened := hq ▸ List.mem_cons_self
    refine if_neg fun same => h.2 q mem ?_
    rw [same, (ht.successive q mem).path_eq source (hsegments ▸ List.mem_cons_self)]
  | pathEnd id owner returned thrown =>
    obtain ⟨q, rest, hq, rfl, -⟩ := he
    exact if_neg fun same => h.2 q (hq ▸ List.mem_cons_self) same.symm
  | pathStart | enter | exit => rfl

theorem foldl_keep_of_closed {p : CodePath} (h : t.Closed p.id) (ht : t.Consistent)
    (he : t.AllowsAll events) : events.foldl CodePath.keep p = p := by
  induction events generalizing t with
  | nil => rfl
  | cons e events ih =>
    rw [List.foldl_cons, keep_of_closed h ht he.1]
    exact ih (h.record he.1) (ht.record he.1) he.2

end Trail

/-- Whether an event is about the path `id`, when it happens there. -/
def Event.Belongs (id : PathId) : Event → Prop
  | .segment s => s.id.path = id
  | .backEdge source _ => source.id.path = id
  | .pathEnd path .. => path = id
  | .pathStart .. => False
  | .enter _ | .exit _ => True

namespace Trail

open Event

/-- `path` is open, with as many paths open inside of it. -/
def Inside (t : Trail) (path : OpenPath) (depth : ℕ) : Prop :=
  ∃ inner outer, t.opened = inner ++ path :: outer ∧ inner.length = depth

/-- What an event does to an open path: it happens apart from the path, in it, or ends it. -/
inductive Inside.Step (t : Trail) (path : OpenPath) (e : Event) : ℕ → Prop
  | apart {depth : ℕ} (after : ℕ) (inside : (t.record e).Inside path after)
      (own : ∀ later, own depth (e :: later) = own after later)
      (keep : ∀ p : CodePath, p.id = path.id → p.keep e = p)
      (silent : ∀ k : SegmentId, k.path = path.id → t.running? = some k → e.names = []) :
      Step t path e depth
  | within (inside : (t.record e).Inside
        { path with segments := Event.segments [e] ++ path.segments } 0)
      (own : ∀ later, own 0 (e :: later) = e :: own 0 later) (belongs : e.Belongs path.id) :
      Step t path e 0
  | ended (closed : (t.record e).Closed path.id) (owner : Node) (returned thrown : List Segment)
      (is : e = .pathEnd path.id owner returned thrown) : Step t path e 0

variable {t : Trail} {path : OpenPath} {depth : ℕ} {e : Event}

/-- The innermost path, when another one is open inside of `path`. -/
theorem Inside.exists_innermost (h : t.Inside path (depth + 1)) (ht : t.Consistent) :
    ∃ q inner outer, t.opened = q :: (inner ++ path :: outer) ∧ inner.length = depth ∧
      q.id ≠ path.id := by
  obtain ⟨inner, outer, hopened, hlength⟩ := h
  cases inner with
  | nil => cases hlength
  | cons q inner =>
    have distinct := ht.distinct
    rw [hopened] at distinct
    exact ⟨q, inner, outer, hopened, Nat.succ.inj hlength,
      (List.pairwise_cons.1 distinct).1 path (by simp)⟩

theorem Inside.step (h : t.Inside path depth) (ht : t.Consistent) (he : t.Allows e) :
    Inside.Step t path e depth := by
  cases e with
  | pathStart id owner upper =>
    obtain ⟨inner, outer, hopened, rfl⟩ := h
    exact .apart (inner.length + 1) ⟨⟨id, owner, []⟩ :: inner, outer, by simp [record, hopened], rfl⟩
      (fun _ => rfl) (fun _ _ => rfl) fun _ _ _ => rfl
  | pathEnd id owner returned thrown =>
    obtain ⟨last, rest, hlast, rfl, -⟩ := he
    cases depth with
    | zero =>
      obtain ⟨inner, outer, hopened, hnil⟩ := h
      obtain rfl := List.length_eq_zero_iff.1 hnil
      obtain ⟨rfl, rfl⟩ : last = path ∧ rest = outer := by simpa using hlast.symm.trans hopened
      have distinct := ht.distinct
      rw [hlast] at distinct
      refine .ended ⟨ht.numbered last (hlast ▸ List.mem_cons_self), fun p hp => ?_⟩ _ _ _ rfl
      rw [record, hlast] at hp
      exact ((List.pairwise_cons.1 distinct).1 p hp).symm
    | succ depth =>
      obtain ⟨q, inner, outer, hopened, hlength, hne⟩ := h.exists_innermost ht
      obtain ⟨rfl, -⟩ : last = q ∧ _ := by simpa using hlast.symm.trans hopened
      exact .apart depth ⟨inner, outer, by simp [record, hopened], hlength⟩ (fun _ => rfl)
        (fun p hp => if_neg (hp ▸ hne.symm)) fun _ _ _ => rfl
  | segment s =>
    obtain ⟨last, rest, hlast, hs⟩ := he
    cases depth with
    | zero =>
      obtain ⟨inner, outer, hopened, hnil⟩ := h
      obtain rfl := List.length_eq_zero_iff.1 hnil
      obtain ⟨rfl, rfl⟩ : last = path ∧ rest = outer := by simpa using hlast.symm.trans hopened
      exact .within ⟨[], rest, by simp [record, hlast, Event.segments], rfl⟩ (fun _ => rfl)
        (by rw [Belongs, hs.id])
    | succ depth =>
      obtain ⟨q, inner, outer, hopened, hlength, hne⟩ := h.exists_innermost ht
      obtain ⟨rfl, -⟩ : last = q ∧ _ := by simpa using hlast.symm.trans hopened
      refine .apart (depth + 1) ⟨{ last with segments := s :: last.segments } :: inner, outer,
        by simp [record, hopened], by simp [hlength]⟩ (fun _ => rfl)
        (fun p hp => if_neg ?_) fun _ _ _ => rfl
      rw [hp, hs.id]
      exact hne.symm
  | backEdge source target =>
    obtain ⟨last, rest, earlier, hlast, hsegments, -⟩ := he
    have mem : last ∈ t.opened := hlast ▸ List.mem_cons_self
    have source_path : source.id.path = last.id :=
      (ht.successive last mem).path_eq source (hsegments ▸ List.mem_cons_self)
    cases depth with
    | zero =>
      obtain ⟨inner, outer, hopened, hnil⟩ := h
      obtain rfl := List.length_eq_zero_iff.1 hnil
      obtain ⟨rfl, rfl⟩ : last = path ∧ rest = outer := by simpa using hlast.symm.trans hopened
      exact .within ⟨[], rest, hlast, rfl⟩ (fun _ => rfl) source_path
    | succ depth =>
      obtain ⟨q, inner, outer, hopened, hlength, hne⟩ := h.exists_innermost ht
      obtain ⟨rfl, -⟩ : last = q ∧ _ := by simpa using hlast.symm.trans hopened
      refine .apart (depth + 1) h (fun _ => rfl) (fun p hp => if_neg ?_) fun _ _ _ => rfl
      rw [hp, source_path]
      exact hne.symm
  | enter n | exit n =>
    cases depth with
    | zero => exact .within h (fun _ => rfl) trivial
    | succ depth =>
      obtain ⟨q, inner, outer, hopened, hlength, hne⟩ := h.exists_innermost ht
      refine .apart (depth + 1) h (fun _ => rfl) (fun _ _ => rfl) fun k hk running => ?_
      obtain ⟨last, rest, hlast, hid, -⟩ := ht.running?_eq running
      obtain ⟨rfl, -⟩ : last = q ∧ _ := by simpa using hlast.symm.trans hopened
      exact absurd (hid.trans hk) hne

variable {events : List Event}

/-- Only its own events make a path what it becomes. -/
theorem Inside.foldl_keep {p : CodePath} (h : t.Inside path depth) (ht : t.Consistent)
    (he : t.AllowsAll events) (hp : p.id = path.id) :
    events.foldl CodePath.keep p = (own depth events).foldl CodePath.keep p := by
  induction events generalizing t path depth p with
  | nil => simp [own]
  | cons e events ih =>
    have next := ht.record he.1
    cases h.step ht he.1 with
    | apart after inside own keep silent =>
      rw [own, List.foldl_cons, keep p hp]
      exact ih inside next he.2 hp
    | within inside own belongs =>
      rw [own, List.foldl_cons, List.foldl_cons]
      exact ih inside next he.2 (by simpa using hp)
    | ended closed owner returned thrown is =>
      subst is
      rw [Event.own, List.foldl_cons, List.foldl_cons, List.foldl_nil]
      refine foldl_keep_of_closed ?_ next he.2
      rwa [CodePath.id_keep, hp]

theorem Inside.belongs (h : t.Inside path depth) (ht : t.Consistent) (he : t.AllowsAll events) :
    ∀ e ∈ own depth events, e.Belongs path.id := by
  induction events generalizing t path depth with
  | nil => simp [own]
  | cons e events ih =>
    have next := ht.record he.1
    cases h.step ht he.1 with
    | apart after inside own keep silent =>
      rw [own]
      exact ih inside next he.2
    | within inside own belongs =>
      have rest := ih inside next he.2
      rw [own]
      exact List.forall_mem_cons.2 ⟨belongs, rest⟩
    | ended closed owner returned thrown is =>
      subst is
      exact List.forall_mem_singleton.2 rfl

/-- When the next segment of a path starts, those before it have ended. -/
theorem Inside.past (h : t.Inside path 0) (ht : t.Consistent) (s : Segment) {q : Segment}
    (hq : q ∈ path.segments) :
    (t.record (.segment s)).Past q.id := by
  obtain ⟨inner, outer, hopened, hnil⟩ := h
  obtain rfl := List.length_eq_zero_iff.1 hnil
  rw [List.nil_append] at hopened
  have mem : path ∈ t.opened := hopened ▸ List.mem_cons_self
  have successive := ht.successive path mem
  have distinct := ht.distinct
  rw [hopened] at distinct
  refine ⟨?_, fun p hp same => ?_⟩
  · rw [successive.path_eq q hq]
    simpa [record, hopened] using ht.numbered path mem
  · simp only [record, hopened] at hp
    rcases List.mem_cons.1 hp with rfl | hp
    · exact Nat.lt_succ_of_le (successive.number_le q hq)
    · rw [successive.path_eq q hq] at same
      exact absurd same ((List.pairwise_cons.1 distinct).1 p hp).symm

/-- The names that points collect are those that are evaluated while their segments run. -/
theorem Inside.told {done : List Event} (h : (empty.after done).Inside path depth)
    (he : empty.AllowsAll (done ++ events)) {x : Point}
    (hx : path.segments.head? = some x.segment) (hn : x.names = empty.entered x.segment.id done)
    {contents : Contents} (hc : ∀ k, contents k = empty.entered k (done ++ events)) :
    x.Told contents (own depth events) ∧ contents (x.after (own depth events)).segment.id =
      (x.after (own depth events)).names := by
  induction events generalizing done path depth x with
  | nil => exact ⟨trivial, by simpa [own, hn] using hc _⟩
  | cons e events ih =>
    obtain ⟨hdone, hnext⟩ := allowsAll_append.1 he
    have ht := consistent_empty.after hdone
    have segment_mem : x.segment ∈ path.segments := List.mem_of_head? hx
    have segment_path : x.segment.id.path = path.id := by
      obtain ⟨inner, outer, hopened, -⟩ := h
      exact (ht.successive path (by simp [hopened])).path_eq _ segment_mem
    have entered_concat (k : SegmentId) : empty.entered k (done ++ [e]) = empty.entered k done ++
        if (empty.after done).running? = some k then e.names else [] := by
      simp [entered_append, entered]
    -- A segment that has ended holds what has been evaluated in it so far.
    have complete (past : ((empty.after done).record e).Past x.segment.id) (silent : e.names = []) :
        contents x.segment.id = x.names := by
      rw [hc, entered_append, entered, entered_of_past past (ht.record hnext.1) hnext.2, hn]
      simp [silent]
    have split : done ++ e :: events = (done ++ [e]) ++ events := by simp
    rw [split] at he hc
    cases h.step ht hnext.1 with
    | apart after inside own keep silent =>
      rw [← after_concat] at inside
      rw [own]
      refine ih inside he hx ?_ hc
      rw [entered_concat, hn]
      split_ifs with running
      · rw [silent _ segment_path running, List.append_nil]
      · rw [List.append_nil]
    | within inside own belongs =>
      rw [← after_concat] at inside
      rw [own]
      have running : (empty.after done).running? = some x.segment.id := by
        obtain ⟨inner, outer, hopened, hnil⟩ := h
        obtain rfl := List.length_eq_zero_iff.1 hnil
        simp [running?, hopened, hx]
      -- Nothing but a segment changes where the path stands.
      have stays (is : x.record e = ⟨x.segment, x.names ++ e.names⟩)
          (none : Event.segments [e] = []) (other : ¬ ∃ s, e = .segment s) :
          x.Told contents (e :: Event.own 0 events) ∧
            contents (x.after (e :: Event.own 0 events)).segment.id =
              (x.after (e :: Event.own 0 events)).names := by
        rw [none] at inside
        obtain ⟨told, last⟩ := ih inside he (x := x.record e) (by rw [is]; exact hx)
          (by rw [is, entered_concat, if_pos running, hn]) hc
        exact ⟨⟨fun segment => absurd segment other, told⟩, last⟩
      cases e with
      | segment s =>
        have fresh := entered_of_fresh (allowsAll_append.1 he).1
        obtain ⟨told, last⟩ := ih inside he (x := ⟨s, []⟩) rfl
          (by simp [entered_concat, fresh, names]) hc
        exact ⟨⟨fun _ => complete (h.past ht s segment_mem) rfl, told⟩, last⟩
      | pathStart => exact belongs.elim
      | _ => exact stays rfl rfl (by simp)
    | ended closed owner returned thrown is =>
      subst is
      refine ⟨⟨by simp, trivial⟩, ?_⟩
      rw [← segment_path] at closed
      simpa [own, Point.after, Point.record, names] using complete closed.past rfl

end Trail

end LostUpdate
