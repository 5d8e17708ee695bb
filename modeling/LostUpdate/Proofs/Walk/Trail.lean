import LostUpdate.Flow.Walk
import Mathlib.Data.List.Nodup

namespace LostUpdate

/-- A code path that has started and not ended, with its segments so far, the last one first. -/
structure OpenPath where
  id : PathId
  owner : Node
  segments : List Segment

/-- The open code paths, innermost first, and the number of paths that have started. -/
structure Trail where
  opened : List OpenPath
  started : Nat

namespace Trail

def empty : Trail := ⟨[], 0⟩

def record (t : Trail) : Event → Trail
  | .pathStart id owner _ => ⟨⟨id, owner, []⟩ :: t.opened, t.started + 1⟩
  | .segment s =>
    match t.opened with
    | p :: rest => ⟨{ p with segments := s :: p.segments } :: rest, t.started⟩
    | [] => t
  | .pathEnd .. => ⟨t.opened.tail, t.started⟩
  | .backEdge .. | .enter _ | .exit _ => t

def after (t : Trail) (events : List Event) : Trail := events.foldl record t

/-- The segment that runs in the innermost code path. -/
def running? (t : Trail) : Option SegmentId :=
  t.opened.head?.bind fun p => p.segments.head?.map (·.id)

@[simp] theorem after_nil (t : Trail) : t.after [] = t := rfl

@[simp] theorem after_cons (t : Trail) (e : Event) (events : List Event) :
    t.after (e :: events) = (t.record e).after events := rfl

theorem after_append (t : Trail) (first second : List Event) :
    t.after (first ++ second) = (t.after first).after second := List.foldl_append

theorem after_concat (t : Trail) (events : List Event) (e : Event) :
    t.after (events ++ [e]) = (t.after events).record e := by
  rw [after_append]
  rfl

end Trail

/-- Whether `s` may follow the segments `earlier` of a path: it has the next number and comes behind
reachable segments of the same path, each named once. Only the first is reachable without them. -/
structure Segment.Continues (path : PathId) (earlier : List Segment) (s : Segment) : Prop where
  id : s.id = ⟨path, earlier.length + 1⟩
  previous : ∀ k ∈ s.previous, ∃ q ∈ earlier, q.isReachable = true ∧ q.id = k
  nodup : s.previous.Nodup
  reachable : s.isReachable = true ↔ earlier = [] ∨ s.previous ≠ []

/-- Segments, last first, each of which may follow those before it. -/
def Segment.Successive (path : PathId) : List Segment → Prop
  | [] => True
  | s :: earlier => s.Continues path earlier ∧ Successive path earlier

namespace Segment.Successive

variable {path : PathId} {segments : List Segment}

theorem path_eq (h : Successive path segments) : ∀ s ∈ segments, s.id.path = path := by
  induction segments with
  | nil => simp
  | cons s earlier ih =>
    intro q hq
    rcases List.mem_cons.1 hq with rfl | hq
    · rw [h.1.id]
    · exact ih h.2 q hq

theorem number_le (h : Successive path segments) :
    ∀ s ∈ segments, s.id.number ≤ segments.length := by
  induction segments with
  | nil => simp
  | cons s earlier ih =>
    intro q hq
    rcases List.mem_cons.1 hq with rfl | hq
    · exact Nat.le_of_eq (by rw [h.1.id, List.length_cons])
    · exact Nat.le_succ_of_le (ih h.2 q hq)

theorem nodup_ids (h : Successive path segments) : (segments.map (·.id)).Nodup := by
  induction segments with
  | nil => simp
  | cons s earlier ih =>
    refine List.nodup_cons.2 ⟨fun hs => ?_, ih h.2⟩
    obtain ⟨q, hq, hid⟩ := List.mem_map.1 hs
    have bound := number_le h.2 q hq
    have number : s.id.number = earlier.length + 1 := by rw [h.1.id]
    simp only [hid, number] at bound
    omega

/-- What comes before a segment is in the same path and has a smaller number. -/
theorem previous_lt (h : Successive path segments) :
    ∀ s ∈ segments, ∀ k ∈ s.previous, k.path = path ∧ k.number < s.id.number := by
  induction segments with
  | nil => simp
  | cons s earlier ih =>
    intro q hq k hk
    rcases List.mem_cons.1 hq with rfl | hq
    · obtain ⟨p, hp, -, rfl⟩ := h.1.previous k hk
      have bound := number_le h.2 p hp
      refine ⟨path_eq h.2 p hp, ?_⟩
      rw [h.1.id]
      exact Nat.lt_succ_of_le bound
    · exact ih h.2 q hq k hk

theorem eq_of_id_eq (h : Successive path segments) {s q : Segment} (hs : s ∈ segments)
    (hq : q ∈ segments) (hid : s.id = q.id) : s = q :=
  List.inj_on_of_nodup_map h.nodup_ids hs hq hid

end Segment.Successive

namespace Trail

/-- Whether an event may come next: paths are numbered as they start and end innermost first, and
everything else happens in the segment that runs in the innermost path. -/
def Allows (t : Trail) : Event → Prop
  | .pathStart id _ upper =>
    id = .ordinal (t.started + 1) ∧ upper = t.opened.head?.map (·.id)
  | .segment s => ∃ p rest, t.opened = p :: rest ∧ s.Continues p.id p.segments
  | .backEdge source target =>
    ∃ p rest earlier, t.opened = p :: rest ∧ p.segments = source :: earlier ∧
      source.isReachable = true ∧ target ∈ earlier
  | .enter _ | .exit _ => ∃ p rest, t.opened = p :: rest ∧ p.segments ≠ []
  | .pathEnd id owner returned thrown =>
    ∃ p rest, t.opened = p :: rest ∧ id = p.id ∧ owner = p.owner ∧ p.segments ≠ [] ∧
      returned ⊆ p.segments ∧ thrown ⊆ p.segments

def AllowsAll (t : Trail) : List Event → Prop
  | [] => True
  | e :: events => t.Allows e ∧ (t.record e).AllowsAll events

theorem allowsAll_append {t : Trail} {first second : List Event} :
    t.AllowsAll (first ++ second) ↔ t.AllowsAll first ∧ (t.after first).AllowsAll second := by
  induction first generalizing t with
  | nil => simp [AllowsAll]
  | cons e first ih => simp [AllowsAll, ih, and_assoc]

theorem allowsAll_concat {t : Trail} {events : List Event} {e : Event} :
    t.AllowsAll (events ++ [e]) ↔ t.AllowsAll events ∧ (t.after events).Allows e := by
  simp [allowsAll_append, AllowsAll]

/-- The open paths have distinct numbers among those given out, and their segments are numbered. -/
structure Consistent (t : Trail) : Prop where
  numbered : ∀ p ∈ t.opened, ∃ i < t.started, p.id = .ordinal (i + 1)
  distinct : t.opened.Pairwise fun p q => p.id ≠ q.id
  successive : ∀ p ∈ t.opened, Segment.Successive p.id p.segments

theorem consistent_empty : empty.Consistent := ⟨by simp [empty], by simp [empty], by simp [empty]⟩

theorem Consistent.record {t : Trail} (h : t.Consistent) {e : Event} (he : t.Allows e) :
    (t.record e).Consistent := by
  cases e with
  | pathStart id owner upper =>
    obtain ⟨rfl, -⟩ := he
    refine ⟨?_, ?_, ?_⟩
    · intro p hp
      rcases List.mem_cons.1 hp with rfl | hp
      · exact ⟨t.started, Nat.lt_succ_self _, rfl⟩
      · obtain ⟨i, hi, hid⟩ := h.numbered p hp
        exact ⟨i, Nat.lt_succ_of_lt hi, hid⟩
    · refine List.pairwise_cons.2 ⟨fun q hq => ?_, h.distinct⟩
      obtain ⟨i, hi, hid⟩ := h.numbered q hq
      rw [hid]
      intro same
      injection same with same
      omega
    · intro p hp
      rcases List.mem_cons.1 hp with rfl | hp
      · trivial
      · exact h.successive p hp
  | segment s =>
    obtain ⟨p, rest, ht, hs⟩ := he
    obtain ⟨numbered, distinct, successive⟩ := h
    simp only [Trail.record, ht] at numbered distinct successive ⊢
    refine ⟨?_, ?_, ?_⟩
    · intro q hq
      rcases List.mem_cons.1 hq with rfl | hq
      · exact numbered p List.mem_cons_self
      · exact numbered q (List.mem_cons_of_mem _ hq)
    · have parts := List.pairwise_cons.1 distinct
      exact List.pairwise_cons.2 ⟨parts.1, parts.2⟩
    · intro q hq
      rcases List.mem_cons.1 hq with rfl | hq
      · exact ⟨hs, successive p List.mem_cons_self⟩
      · exact successive q (List.mem_cons_of_mem _ hq)
  | pathEnd id owner returned thrown =>
    exact ⟨fun p hp => h.numbered p (List.mem_of_mem_tail hp), h.distinct.tail,
      fun p hp => h.successive p (List.mem_of_mem_tail hp)⟩
  | backEdge source target => exact h
  | enter n => exact h
  | exit n => exact h

theorem Consistent.after {t : Trail} (h : t.Consistent) {events : List Event}
    (he : t.AllowsAll events) : (t.after events).Consistent := by
  induction events generalizing t with
  | nil => exact h
  | cons e events ih => exact ih (h.record he.1) he.2

end Trail

/-- The segments that events start, in order. -/
def Event.segments : List Event → List Segment
  | [] => []
  | .segment s :: events => s :: segments events
  | _ :: events => segments events

theorem Event.segments_append (first second : List Event) :
    segments (first ++ second) = segments first ++ segments second := by
  induction first with
  | nil => rfl
  | cons e first ih => cases e <;> simp [segments, ih]

theorem Event.mem_segments {s : Segment} {events : List Event} :
    s ∈ segments events ↔ .segment s ∈ events := by
  induction events with
  | nil => simp [segments]
  | cons e events ih => cases e <;> simp [segments, ih]

namespace Trail

/-- What an open path knows of all segments so far: those of its own number are its own. -/
structure Knows (t : Trail) (segments : List Segment) : Prop where
  numbered : ∀ s ∈ segments, ∃ i < t.started, s.id.path = .ordinal (i + 1)
  own : ∀ p ∈ t.opened, ∀ s, s ∈ p.segments ↔ s ∈ segments ∧ s.id.path = p.id
  previous : ∀ s ∈ segments, ∀ k ∈ s.previous,
    k.path = s.id.path ∧ k.number < s.id.number ∧ ∃ q ∈ segments, q.id = k
  nodup : (segments.map (·.id)).Nodup

theorem knows_empty : empty.Knows [] :=
  ⟨by simp, by simp [empty], by simp, by simp⟩

namespace Knows

variable {t : Trail} {segments : List Segment}

/-- A path that starts has no segment yet: its number is new. -/
theorem pathStart (h : t.Knows segments) (owner : Node) :
    Knows ⟨⟨.ordinal (t.started + 1), owner, []⟩ :: t.opened, t.started + 1⟩ segments := by
  refine ⟨?_, ?_, h.previous, h.nodup⟩
  · intro s hs
    obtain ⟨i, hi, hid⟩ := h.numbered s hs
    exact ⟨i, Nat.lt_succ_of_lt hi, hid⟩
  · intro p hp s
    rcases List.mem_cons.1 hp with rfl | hp
    · refine ⟨fun hs => absurd hs List.not_mem_nil, fun ⟨hs, hpath⟩ => ?_⟩
      obtain ⟨i, hi, hid⟩ := h.numbered s hs
      rw [hid] at hpath
      injection hpath with same
      omega
    · exact h.own p hp s

theorem fresh (h : t.Knows segments) (ht : t.Consistent) {p : OpenPath} (hp : p ∈ t.opened)
    {s : Segment} (hs : s.Continues p.id p.segments) : ∀ q ∈ segments, q.id ≠ s.id := by
  intro q hq same
  have hpath : q.id.path = p.id := by rw [same, hs.id]
  have bound := (ht.successive p hp).number_le q ((h.own p hp q).2 ⟨hq, hpath⟩)
  have number : s.id.number = p.segments.length + 1 := by rw [hs.id]
  rw [same, number] at bound
  omega

theorem segment (h : t.Knows segments) (ht : t.Consistent) {p : OpenPath} {rest : List OpenPath}
    (hp : t.opened = p :: rest) {s : Segment} (hs : s.Continues p.id p.segments) :
    Knows ⟨{ p with segments := s :: p.segments } :: rest, t.started⟩ (segments ++ [s]) := by
  have mem : p ∈ t.opened := by simp [hp]
  have successive := ht.successive p mem
  have distinct := ht.distinct
  rw [hp] at distinct
  have apart := (List.pairwise_cons.1 distinct).1
  refine ⟨?_, ?_, ?_, ?_⟩
  · intro q hq
    rcases List.mem_append.1 hq with hq | hq
    · exact h.numbered q hq
    · obtain rfl := List.mem_singleton.1 hq
      rw [hs.id]
      exact ht.numbered p mem
  · intro r hr q
    rcases List.mem_cons.1 hr with rfl | hr
    · simp only [List.mem_cons, List.mem_append, List.not_mem_nil, or_false, h.own p mem q]
      constructor
      · rintro (rfl | hq)
        · exact ⟨.inr rfl, by rw [hs.id]⟩
        · exact ⟨.inl hq.1, hq.2⟩
      · rintro ⟨hq | rfl, hpath⟩
        · exact .inr ⟨hq, hpath⟩
        · exact .inl rfl
    · have inside : r ∈ rest := hr
      have own := h.own r (by simp [hp, inside]) q
      rw [own, List.mem_append, List.mem_singleton]
      constructor
      · exact fun hq => ⟨.inl hq.1, hq.2⟩
      · rintro ⟨hq | rfl, hpath⟩
        · exact ⟨hq, hpath⟩
        · rw [hs.id] at hpath
          exact absurd hpath (apart r inside)
  · intro q hq k hk
    rcases List.mem_append.1 hq with hq | hq
    · obtain ⟨hpath, hlt, b, hb, hid⟩ := h.previous q hq k hk
      exact ⟨hpath, hlt, b, List.mem_append_left _ hb, hid⟩
    · obtain rfl := List.mem_singleton.1 hq
      obtain ⟨b, hb, -, rfl⟩ := hs.previous k hk
      have bound := successive.number_le b hb
      refine ⟨?_, ?_, b, List.mem_append_left _ ((h.own p mem b).1 hb).1, rfl⟩
      · rw [successive.path_eq b hb, hs.id]
      · rw [hs.id]
        exact Nat.lt_succ_of_le bound
  · rw [List.map_append, List.nodup_append]
    refine ⟨h.nodup, by simp, ?_⟩
    intro a ha b hb
    obtain ⟨q, hq, rfl⟩ := List.mem_map.1 ha
    obtain rfl : b = s.id := by simpa using hb
    exact h.fresh ht mem hs q hq

theorem record (h : t.Knows segments) (ht : t.Consistent) {e : Event} (he : t.Allows e) :
    (t.record e).Knows (segments ++ Event.segments [e]) := by
  cases e with
  | pathStart id owner upper =>
    obtain ⟨rfl, -⟩ := he
    simpa [Event.segments, Trail.record] using h.pathStart owner
  | segment s =>
    obtain ⟨p, rest, hp, hs⟩ := he
    simpa [Event.segments, Trail.record, hp] using h.segment ht hp hs
  | pathEnd id owner returned thrown =>
    simp only [Event.segments, List.append_nil]
    exact ⟨h.numbered, fun p hp => h.own p (List.mem_of_mem_tail hp), h.previous, h.nodup⟩
  | backEdge source target => simpa [Event.segments, Trail.record] using h
  | enter n => simpa [Event.segments, Trail.record] using h
  | exit n => simpa [Event.segments, Trail.record] using h

end Knows

theorem Knows.after {t : Trail} {segments : List Segment} (h : t.Knows segments)
    (ht : t.Consistent) {events : List Event} (he : t.AllowsAll events) :
    (t.after events).Knows (segments ++ Event.segments events) := by
  induction events generalizing t segments with
  | nil => simpa [Event.segments] using h
  | cons e events ih =>
    have next := ih (h.record ht he.1) (ht.record he.1) he.2
    rwa [List.append_assoc, ← Event.segments_append, List.singleton_append] at next

end Trail

end LostUpdate
