import LostUpdate.Proofs.Walk.Trail
import LostUpdate.Race.Tracker

namespace LostUpdate

inductive Mark
  | read (v : Tracked)
  | suspend
  deriving DecidableEq, Repr

namespace Trail

variable (c : Subject)

/-- The references to follow in the innermost code path. -/
def followed (t : Trail) : Option (List Reference) :=
  t.opened.head?.bind fun p => Tracker.followed c p.owner

/-- The reference that a name makes in the innermost code path, if it is one to follow. -/
def reference? (t : Trail) (n : Node) : Option Reference :=
  match n.form with
  | .name .. => ((t.followed c).getD []).findRev? (·.identifier.id = n.id)
  | _ => none

def mark? (t : Trail) : Event → Option Mark
  | .enter n =>
    (t.reference? c n).bind fun r =>
      if c.scoping.tree.countsAsRead r.toNameUse (c.scoping.tree.storedValue? r.toNameUse) then
        some (.read (c.scoping.tracked r))
      else none
  | .exit n =>
    if (t.followed c).isSome ∧ Tracker.isEvaluation n ∧ c.scoping.tree.isSuspension n then
      some .suspend
    else none
  | _ => none

/-- The mark of an event with the segment that runs. -/
def marked (t : Trail) (e : Event) : List (SegmentId × Mark) :=
  match t.running?, t.mark? c e with
  | some k, some m => [(k, m)]
  | _, _ => []

theorem marked_of_mark?_eq_none {c : Subject} {t : Trail} {e : Event} (h : t.mark? c e = none) :
    t.marked c e = [] := by
  unfold marked
  rw [h]
  split <;> simp_all

theorem marked_of_running? {c : Subject} {t : Trail} {k : SegmentId} (h : t.running? = some k)
    (e : Event) : t.marked c e = (t.mark? c e).toList.map fun m => (k, m) := by
  unfold marked
  rw [h]
  cases t.mark? c e <;> rfl

/-- The marks that events leave, one after the other. -/
def marks (t : Trail) : List Event → List (SegmentId × Mark)
  | [] => []
  | e :: events => t.marked c e ++ marks (t.record e) events

theorem marks_append (t : Trail) (first second : List Event) :
    t.marks c (first ++ second) = t.marks c first ++ (t.after first).marks c second := by
  induction first generalizing t with
  | nil => rfl
  | cons e first ih => simp [marks, ih]

end Trail

/-- A chain of segments, each of them among those before the next. It leads to its last one. -/
inductive Segment.LeadsTo (segments : List Segment) : List SegmentId → SegmentId → Prop
  | start (k : SegmentId) : LeadsTo segments [k] k
  | step {chain : List SegmentId} {j : SegmentId} {s : Segment} :
    LeadsTo segments chain j → s ∈ segments → j ∈ s.previous →
      LeadsTo segments (chain ++ [s.id]) s.id

namespace Mark

/-- The marks along a chain. -/
def along (marks : List (SegmentId × Mark)) (chain : List SegmentId) : List Mark :=
  chain.flatMap fun k => (marks.filter (·.1 = k)).map (·.2)

/-- `v` is read, and no suspension follows. -/
def LeavesFresh (v : Tracked) (l : List Mark) : Prop :=
  ∃ before after, l = before ++ read v :: after ∧ suspend ∉ after

/-- `v` is read, and later comes a suspension. -/
def LeavesOutdated (v : Tracked) (l : List Mark) : Prop :=
  ∃ before between after, l = before ++ read v :: (between ++ suspend :: after)

/-- Some chain to `k` leaves `v` fresh. -/
def FreshAt (segments : List Segment) (marks : List (SegmentId × Mark)) (k : SegmentId)
    (v : Tracked) : Prop :=
  ∃ chain, Segment.LeadsTo segments chain k ∧ LeavesFresh v (along marks chain)

/-- Some chain to `k` leaves `v` outdated. -/
def OutdatedAt (segments : List Segment) (marks : List (SegmentId × Mark)) (k : SegmentId)
    (v : Tracked) : Prop :=
  ∃ chain, Segment.LeadsTo segments chain k ∧ LeavesOutdated v (along marks chain)

theorem leavesFresh_concat_read {v w : Tracked} {l : List Mark} :
    LeavesFresh v (l ++ [read w]) ↔ v = w ∨ LeavesFresh v l := by
  constructor
  · rintro ⟨before, after, h, hs⟩
    rcases List.eq_nil_or_concat after with rfl | ⟨after, m, rfl⟩
    · obtain ⟨-, hm⟩ := List.append_inj' h rfl
      left
      simpa using hm.symm
    · rw [List.concat_eq_append, ← List.cons_append, ← List.append_assoc] at h
      obtain ⟨rfl, hm⟩ := List.append_inj' h rfl
      exact .inr ⟨before, after, rfl, fun h => hs (by simp [h])⟩
  · rintro (rfl | ⟨before, after, rfl, hs⟩)
    · exact ⟨l, [], rfl, List.not_mem_nil⟩
    · exact ⟨before, after ++ [read w], by simp, by simpa using hs⟩

theorem not_leavesFresh_concat_suspend {v : Tracked} {l : List Mark} :
    ¬ LeavesFresh v (l ++ [suspend]) := by
  rintro ⟨before, after, h, hs⟩
  rcases List.eq_nil_or_concat after with rfl | ⟨after, m, rfl⟩
  · obtain ⟨-, hm⟩ := List.append_inj' h rfl
    simp at hm
  · rw [List.concat_eq_append, ← List.cons_append, ← List.append_assoc] at h
    obtain ⟨-, hm⟩ := List.append_inj' h rfl
    obtain rfl : suspend = m := by simpa using hm
    exact hs (by simp)

theorem leavesOutdated_concat_read {v w : Tracked} {l : List Mark} :
    LeavesOutdated v (l ++ [read w]) ↔ LeavesOutdated v l := by
  constructor
  · rintro ⟨before, between, after, h⟩
    rcases List.eq_nil_or_concat after with rfl | ⟨after, m, rfl⟩
    · rw [← List.cons_append, ← List.append_assoc] at h
      obtain ⟨-, hm⟩ := List.append_inj' h rfl
      simp at hm
    · rw [List.concat_eq_append, ← List.cons_append, ← List.append_assoc, ← List.cons_append,
        ← List.append_assoc] at h
      obtain ⟨rfl, -⟩ := List.append_inj' h rfl
      exact ⟨before, between, after, by simp⟩
  · rintro ⟨before, between, after, rfl⟩
    exact ⟨before, between, after ++ [read w], by simp⟩

theorem leavesOutdated_concat_suspend {v : Tracked} {l : List Mark} :
    LeavesOutdated v (l ++ [suspend]) ↔ LeavesFresh v l ∨ LeavesOutdated v l := by
  constructor
  · rintro ⟨before, between, after, h⟩
    rcases List.eq_nil_or_concat after with rfl | ⟨after, m, rfl⟩
    · rw [← List.cons_append, ← List.append_assoc] at h
      obtain ⟨rfl, -⟩ := List.append_inj' h rfl
      by_cases hs : suspend ∈ between
      · obtain ⟨first, last, rfl⟩ := List.append_of_mem hs
        exact .inr ⟨before, first, last, rfl⟩
      · exact .inl ⟨before, between, rfl, hs⟩
    · rw [List.concat_eq_append, ← List.cons_append, ← List.append_assoc, ← List.cons_append,
        ← List.append_assoc] at h
      obtain ⟨rfl, -⟩ := List.append_inj' h rfl
      exact .inr ⟨before, between, after, by simp⟩
  · rintro (⟨before, after, rfl, -⟩ | ⟨before, between, after, rfl⟩)
    · exact ⟨before, after, [], by simp⟩
    · exact ⟨before, between, after ++ [suspend], by simp⟩

end Mark

end LostUpdate
