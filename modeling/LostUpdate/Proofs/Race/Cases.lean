import LostUpdate.Proofs.Race.Dataflow
import LostUpdate.Proofs.Walk.Finals

namespace LostUpdate

namespace Node

open LostUpdate.Flow Walk Event

/-- The case that starts in `z` after `earlier` comes right behind `s`, and what is known where it
starts is what is known of `s`, if that can be reached. -/
structure StartsBehind (s : Segment) (earlier : List Event) (z : Segment) : Prop where
  previous : z.previous = if s.isReachable then [s.id] else []
  known : ∀ c session, Session.initial.run c (earlier ++ [.segment z]) = .ok session →
    ∃ st, session.tracker.states.state? z.id = some st ∧ ∀ v,
      (v ∈ st.fresh ↔ s.isReachable = true ∧
        ∃ ss, session.tracker.states.state? s.id = some ss ∧ v ∈ ss.fresh) ∧
      (v ∈ st.outdated ↔ s.isReachable = true ∧
        ∃ ss, session.tracker.states.state? s.id = some ss ∧ v ∈ ss.outdated)

variable {n y subject x : Node} {cases : List Node} {done : List Event} {around : Surroundings}
  {p : Spot}

theorem innerFlow_match (hy : y.form = .matchStmt subject cases) :
    y.innerFlow = .seq subject.flow (.choose true (cases.map flow)) := by
  cases y with
  | mk i s f =>
    obtain rfl : f = .matchStmt subject cases := hy
    rw [innerFlow]

theorem exists_case (h : At done around p) (hy : y.form = .matchStmt subject cases)
    (hx : x ∈ cases) : ∃ before r rest, (y.flow.walk around p).1 = .enter y ::
      ((subject.flow.walk around p).1 ++ before ++
        .segment (startSegment around.path [(subject.flow.walk around p).2.current] r).2.current ::
          .enter x :: rest) := by
  have asked : At (done ++ [.enter y] ++ (subject.flow.walk around p).1) around
      (subject.flow.walk around p).2 := (h.walk (.enter y)).walk subject.flow
  obtain ⟨-, -, before, r, later, harms, -⟩ := mem_of_forall₂
    (walkArms_each asked (List.forall_mem_singleton.2 asked.current) (cases.map flow))
    (List.mem_map_of_mem hx)
  obtain ⟨inArm, harm⟩ := walkArm_flow x around [(subject.flow.walk around p).2.current] r
  refine ⟨before, r, ?_⟩
  rw [walk_flow, innerFlow_match hy]
  simp only [walk, andThen, harms, harm, List.append_assoc, List.cons_append]
  exact ⟨_, rfl⟩

/-- Where a `match` is walked, every case starts behind the segment in which the subject is left. -/
theorem startsBehind_of_at (h : At done around p) (hy : y.form = .matchStmt subject cases)
    (hevents : done ++ (y.flow.walk around p).1 <+: n.events) :
    ∃ s, LeftIn n.events subject s ∧ ∀ x ∈ cases, ∃ earlier z rest,
      n.events = earlier ++ .segment z :: .enter x :: rest ∧ z.id.path = around.path ∧
        StartsBehind s earlier z := by
  have inside : At (done ++ [.enter y]) around p := h.walk (.enter y)
  let s := (subject.flow.walk around p).2.current
  obtain ⟨later, hlater⟩ := hevents
  have upToSubject : done ++ [.enter y] ++ (subject.flow.walk around p).1 <+: n.events := by
    rw [← hlater, walk_flow y, innerFlow_match hy]
    simp [walk, andThen]
  refine ⟨s, leftIn_flow inside subject upToSubject, fun x hx => ?_⟩
  obtain ⟨before, r, rest, hwalk⟩ := exists_case h hy hx
  let z := (startSegment around.path [s] r).2.current
  let earlier := done ++ .enter y :: ((subject.flow.walk around p).1 ++ before)
  have hsplit : n.events = earlier ++ .segment z :: .enter x :: (rest ++ later) := by
    rw [← hlater, hwalk]
    simp [earlier, z, s]
  have hprevious : z.previous = if s.isReachable then [s.id] else [] := by
    cases hs : s.isReachable <;>
      simp [z, startSegment, Segment.distinct, List.eraseDups_cons, hs]
  refine ⟨earlier, z, rest ++ later, hsplit, rfl, hprevious, fun c session hrun => ?_⟩
  have allowed : Trail.empty.AllowsAll (earlier ++ [.segment z]) := by
    have all := n.events_allowed.1
    rw [hsplit, List.append_cons] at all
    exact (Trail.allowsAll_append.1 all).1
  obtain ⟨st, hst, known⟩ := Session.state?_started allowed hrun
  refine ⟨st, hst, fun v => ?_⟩
  rw [(known v).1, (known v).2, hprevious]
  cases s.isReachable <;> simp

end Node

namespace CodePath

open Node

variable {t : GrammaticalTree} {n y subject : Node} {p : CodePath} {cases : List Node}

/-- The cases of a `match` in a code path all start behind the segment in which the subject is left,
and know what is known of it. What a case reads or waits for before its body is not known to those
after it. -/
theorem cases_start_behind (hn : n ∈ t.nodes) (hp : p ∈ ofEvents n.events)
    (hy : y.form = .matchStmt subject cases)
    (hruns : p.owner.Runs (fun _ _ => True) y) :
    ∃ s, Event.LeftIn n.events subject s ∧ ∀ x ∈ cases, ∃ earlier z rest,
      n.events = earlier ++ .segment z :: .enter x :: rest ∧ z.id.path = p.id ∧
        StartsBehind s earlier z := by
  obtain ⟨done, around, q, hevents, here, hpath, -⟩ :=
    exists_at_of_runs hn hp (List.nil_subset _) (by simp [HandsOn]) hruns
  rw [← hpath]
  exact startsBehind_of_at here hy hevents

end CodePath

end LostUpdate
