import LostUpdate.Proofs.Walk.Trail
import Mathlib.Data.List.Perm.Basic

namespace LostUpdate

/-- What a walk does to a node. -/
inductive Stop
  | enter (n : Node)
  | exit (n : Node)
  /-- The code path of `n` starts. -/
  | start (n : Node)

namespace Flow

mutual

/-- The visits of a flow inside the code of `owners`. -/
def visits (owners : List Node) : Flow → List (List Node × Stop)
  | idle | jump _ => []
  | enter n => [(owners, .enter n)]
  | exit n => [(owners, .exit n)]
  | seq first second => first.visits owners ++ second.visits owners
  | choose _ arms | chain arms => visitsEach owners arms
  | loop head body orelse => head.visits owners ++ body.visits owners ++ orelse.visits owners
  | attempt body handlers orelse final =>
    body.visits owners ++ visitsEach owners handlers ++ orelse.visits owners ++
      match final with
      | none => []
      | some final => final.visits owners
  | codePath owner body => (owners, .start owner) :: body.visits (owner :: owners)

def visitsEach (owners : List Node) : List Flow → List (List Node × Stop)
  | [] => []
  | f :: rest => f.visits owners ++ visitsEach owners rest

end

theorem visitsEach_eq (owners : List Node) (l : List Flow) :
    visitsEach owners l = l.flatMap (visits owners) := by
  induction l with
  | nil => rfl
  | cons f l ih => simp [visitsEach, ih]

theorem visits_sequence (owners : List Node) (l : List Flow) :
    (sequence l).visits owners = l.flatMap (visits owners) := by
  induction l with
  | nil => rfl
  | cons f l ih => simp [sequence, visits, ih]

end Flow

namespace Event

/-- The visits among events that come inside the code of `owners`. -/
def visits : List Node → List Event → List (List Node × Stop)
  | _, [] => []
  | owners, .enter n :: events => (owners, .enter n) :: visits owners events
  | owners, .exit n :: events => (owners, .exit n) :: visits owners events
  | owners, .pathStart _ owner _ :: events =>
    (owners, .start owner) :: visits (owner :: owners) events
  | owners, .pathEnd .. :: events => visits owners.tail events
  | owners, .segment _ :: events | owners, .backEdge .. :: events => visits owners events

end Event

namespace Walk

variable (owners : List Node) (later : List Event)

theorem startSegment_visits (path : PathId) (previous : List Segment) (p : Spot) :
    Event.visits owners ((startSegment path previous p).1 ++ later) = Event.visits owners later :=
  rfl

theorem goBack_visits (target : Segment) (p : Spot) :
    Event.visits owners ((goBack target p).1 ++ later) = Event.visits owners later := by
  unfold goBack
  split_ifs <;> rfl

theorem leave_visits (around : Surroundings) (kind : Jump) (p : Spot) :
    Event.visits owners ((leave around kind p).1 ++ later) = Event.visits owners later := by
  cases kind with
  | continueLoop =>
    unfold leave
    dsimp only
    split
    · simp only [andThen, List.append_assoc]
      rw [goBack_visits, startSegment_visits]
    · rfl
  | _ => rfl

end Walk

namespace Flow

open Walk

mutual

/-- The walk of a flow visits what the flow says, and comes back to the path where it starts. -/
theorem walk_visits (owners : List Node) (later : List Event) (around : Surroundings) (f : Flow)
    (p : Spot) : Event.visits owners ((walk around f p).1 ++ later) =
      f.visits owners ++ Event.visits owners later := by
  cases f with
  | idle => rfl
  | enter n => rfl
  | exit n => rfl
  | seq first second =>
    simp only [walk, andThen, List.append_assoc, visits]
    rw [walk_visits, walk_visits]
  | choose fallsThrough arms =>
    simp only [walk, List.append_assoc, visits]
    rw [walkArms_visits, startSegment_visits]
  | chain arms =>
    simp only [walk, List.append_assoc, visits]
    rw [walkChain_visits, startSegment_visits]
  | loop head body orelse =>
    simp only [walk, List.append_assoc, visits]
    rw [startSegment_visits, walk_visits, startSegment_visits, walk_visits, goBack_visits,
      startSegment_visits, walk_visits, startSegment_visits]
  | attempt body handlers orelse final =>
    cases final with
    | none =>
      simp only [walk, List.append_assoc, visits, List.nil_append]
      rw [startSegment_visits, walk_visits, walkArms_visits, startSegment_visits, walk_visits,
        startSegment_visits]
    | some final =>
      simp only [walk, andThen, List.append_assoc, visits]
      rw [startSegment_visits, walk_visits, walkArms_visits, startSegment_visits, walk_visits,
        startSegment_visits, walk_visits]
  | jump kind => exact leave_visits owners later around kind p
  | codePath owner body =>
    simp only [walk, ownPath, List.append_assoc, List.cons_append, visits, Event.visits]
    rw [walk_visits]
    rfl
termination_by structural f

theorem walkArms_visits (owners : List Node) (later : List Event) (around : Surroundings)
    (starts : List Segment) (arms : List Flow) (p : Spot) :
    Event.visits owners ((walkArms around starts arms p).1 ++ later) =
      visitsEach owners arms ++ Event.visits owners later := by
  cases arms with
  | nil => rfl
  | cons arm arms =>
    simp only [walkArms, List.append_assoc, visitsEach]
    rw [startSegment_visits, walk_visits, walkArms_visits]
termination_by structural arms

theorem walkChain_visits (owners : List Node) (later : List Event) (around : Surroundings)
    (arms : List Flow) (p : Spot) :
    Event.visits owners ((walkChain around arms p).1 ++ later) =
      visitsEach owners arms ++ Event.visits owners later := by
  cases arms with
  | nil => rfl
  | cons arm arms =>
    simp only [walkChain, List.append_assoc, visitsEach]
    rw [startSegment_visits, walk_visits, walkChain_visits]
termination_by structural arms

end

end Flow

theorem Walk.ownPath_visits (owners : List Node) (later : List Event) (upper : Option PathId)
    (owner : Node) (body : Flow) (paths : Nat) :
    Event.visits owners ((ownPath upper owner (fun inside => body.walk inside) paths).1 ++ later) =
      (owners, .start owner) :: body.visits (owner :: owners) ++ Event.visits owners later := by
  simp only [ownPath, List.append_assoc, List.cons_append, Event.visits]
  rw [Flow.walk_visits]
  rfl

theorem Node.visits_events (n : Node) :
    Event.visits [] n.events = ([], .start n) :: n.programFlow.visits [n] := by
  have h := Walk.ownPath_visits [] [] none n n.programFlow 0
  simpa [Event.visits, Node.events] using h

theorem Node.programFlow_of_plain {n : Node} (hn : n.isFunctionLike = false) :
    n.programFlow = n.flow := by
  rw [programFlow, if_neg (by simp [hn])]

theorem Node.visits_events_of_plain {n : Node} (hn : n.isFunctionLike = false) :
    Event.visits [] n.events = ([], .start n) :: n.flow.visits [n] := by
  rw [visits_events, programFlow_of_plain hn]

namespace Trail

def owners (t : Trail) : List Node := t.opened.map (·.owner)

theorem visits_cons (t : Trail) {e : Event} (he : t.Allows e) (events : List Event) :
    Event.visits t.owners (e :: events) =
      Event.visits t.owners [e] ++ Event.visits (t.record e).owners events := by
  cases e with
  | segment s =>
    obtain ⟨p, rest, hp, -⟩ := he
    simp [Event.visits, Trail.record, owners, hp]
  | pathEnd id owner returned thrown => simp [Event.visits, Trail.record, owners, List.map_tail]
  | _ => rfl

theorem visits_append (t : Trail) {first : List Event} (h : t.AllowsAll first)
    (second : List Event) : Event.visits t.owners (first ++ second) =
      Event.visits t.owners first ++ Event.visits (t.after first).owners second := by
  induction first generalizing t with
  | nil => rfl
  | cons e first ih =>
    rw [List.cons_append, visits_cons t h.1, visits_cons t h.1 first, ih _ h.2,
      List.append_assoc, after_cons]

end Trail

end LostUpdate
