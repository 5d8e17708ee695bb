import LostUpdate.Flow.Walk
import LostUpdate.Proofs.Syntax.Parts

namespace LostUpdate

namespace Event

/-- The names that an event evaluates. -/
def names : Event → List Node
  | .enter n => if n.isName then [n] else []
  | _ => []

/-- What happens in a path up to its end, when `depth` more paths are open inside of it. -/
def own : ℕ → List Event → List Event
  | _, [] => []
  | depth, .pathStart .. :: later => own (depth + 1) later
  | 0, .pathEnd path owner returned thrown :: _ => [.pathEnd path owner returned thrown]
  | depth + 1, .pathEnd .. :: later => own depth later
  | 0, e :: later => e :: own 0 later
  | depth + 1, _ :: later => own (depth + 1) later

/-- Events that end all paths they start, and no others. -/
structure Whole (events : List Event) : Prop where
  inside : ∀ depth later, own (depth + 1) (events ++ later) = own (depth + 1) later
  level : ∀ later, own 0 (events ++ later) = own 0 events ++ own 0 later

namespace Whole

theorem nil : Whole [] := ⟨fun _ _ => rfl, fun _ => rfl⟩

theorem append {first second : List Event} (hf : Whole first) (hs : Whole second) :
    Whole (first ++ second) := by
  constructor
  · intro depth later
    rw [List.append_assoc, hf.inside, hs.inside]
  · intro later
    rw [List.append_assoc, hf.level, hs.level, hf.level, List.append_assoc]

theorem segment (s : Segment) : Whole [.segment s] := ⟨fun _ _ => rfl, fun _ => rfl⟩

theorem backEdge (source target : Segment) : Whole [.backEdge source target] :=
  ⟨fun _ _ => rfl, fun _ => rfl⟩

theorem enter (n : Node) : Whole [.enter n] := ⟨fun _ _ => rfl, fun _ => rfl⟩

theorem exit (n : Node) : Whole [.exit n] := ⟨fun _ _ => rfl, fun _ => rfl⟩

end Whole

/-- The events of stretches of code, with the paths inside of them as a whole. -/
inductive Nested : List Event → Prop
  | nil : Nested []
  | append {first second : List Event} (h : Nested first) (k : Nested second) :
      Nested (first ++ second)
  | segment (s : Segment) : Nested [.segment s]
  | backEdge (source target : Segment) : Nested [.backEdge source target]
  | enter (n : Node) : Nested [.enter n]
  | exit (n : Node) : Nested [.exit n]
  | path (id : PathId) (owner : Node) (upper : Option PathId) (returned thrown : List Segment)
      {inside : List Event} (h : Nested inside) :
      Nested (.pathStart id owner upper :: .segment ⟨⟨id, 1⟩, [], true⟩ :: inside ++
        [.pathEnd id owner returned thrown])

theorem Nested.whole {events : List Event} (h : Nested events) : Whole events := by
  induction h with
  | nil => exact .nil
  | append _ _ first second => exact first.append second
  | segment s => exact .segment s
  | backEdge source target => exact .backEdge source target
  | enter n => exact .enter n
  | exit n => exact .exit n
  | path id owner upper returned thrown _ inside =>
    constructor
    · intro depth later
      simp [own, inside.inside]
    · intro later
      simp [own, inside.inside]

/-- What is left of two lists from an element on, which is in one of them. -/
theorem suffix_append {e : Event} {later first second : List Event}
    (h : e :: later <:+ first ++ second) :
    e :: later <:+ second ∨ ∃ rest, later = rest ++ second ∧ e :: rest <:+ first := by
  induction first with
  | nil => exact .inl h
  | cons d first ih =>
    rcases List.suffix_cons_iff.1 h with same | h
    · obtain ⟨rfl, rfl⟩ := List.cons.inj same
      exact .inr ⟨first, rfl, List.suffix_rfl⟩
    · exact (ih h).imp_right fun ⟨rest, hrest, hs⟩ => ⟨rest, hrest, hs.trans (List.suffix_cons d _)⟩

theorem Nested.first_segment {events later : List Event} (h : Nested events) {id : PathId}
    {owner : Node} {upper : Option PathId} (hs : .pathStart id owner upper :: later <:+ events) :
    ∃ rest, later = .segment ⟨⟨id, 1⟩, [], true⟩ :: rest := by
  induction h generalizing later with
  | nil => simp at hs
  | append _ _ first second =>
    rcases suffix_append hs with inSecond | ⟨rest, rfl, inFirst⟩
    · exact second inSecond
    · obtain ⟨rest, rfl⟩ := first inFirst
      exact ⟨rest ++ _, rfl⟩
  | path _ _ _ _ _ _ inside =>
    rcases List.suffix_cons_iff.1 hs with same | hs
    · cases same
      exact ⟨_, rfl⟩
    · rcases suffix_append hs with atEnd | ⟨rest, rfl, within⟩
      · simp [List.suffix_cons_iff] at atEnd
      · obtain ⟨rest, rfl⟩ := inside (by simpa [List.suffix_cons_iff] using within)
        exact ⟨rest ++ _, rfl⟩
  | _ => simp [List.suffix_cons_iff] at hs

end Event

namespace Walk

open Event

theorem startSegment_nested (path : PathId) (previous : List Segment) (p : Spot) :
    Nested (startSegment path previous p).1 :=
  .segment _

theorem goBack_nested (target : Segment) (p : Spot) : Nested (goBack target p).1 := by
  unfold goBack
  split_ifs
  · exact .backEdge _ _
  · exact .nil

theorem leave_nested (around : Surroundings) (kind : Jump) (p : Spot) :
    Nested (leave around kind p).1 := by
  cases kind with
  | continueLoop =>
    unfold leave
    dsimp only
    split
    · exact (goBack_nested _ p).append (startSegment_nested _ _ _)
    · exact startSegment_nested _ _ p
  | _ => exact startSegment_nested _ _ _

theorem ownPath_nested (upper : Option PathId) (owner : Node) {body : Surroundings → Walk}
    (paths : Nat) (h : ∀ around p, Nested (body around p).1) :
    Nested (ownPath upper owner body paths).1 :=
  .path _ _ _ _ _ (h _ _)

theorem startSegment_whole (path : PathId) (previous : List Segment) (p : Spot) :
    Whole (startSegment path previous p).1 :=
  (startSegment_nested path previous p).whole

theorem goBack_whole (target : Segment) (p : Spot) : Whole (goBack target p).1 :=
  (goBack_nested target p).whole

end Walk

namespace Flow

open Walk Event

mutual

/-- The walk of a flow is well nested. -/
theorem walk_nested (around : Surroundings) (f : Flow) (p : Spot) : Nested (walk around f p).1 := by
  cases f with
  | idle => exact .nil
  | enter n => exact .enter n
  | exit n => exact .exit n
  | seq first second => exact (walk_nested around first p).append (walk_nested around second _)
  | choose fallsThrough arms =>
    exact (walkArms_nested around [p.current] arms p).append (startSegment_nested _ _ _)
  | chain arms => exact (walkChain_nested around arms p).append (startSegment_nested _ _ _)
  | loop head body orelse =>
    exact (startSegment_nested _ _ p).append (walk_nested _ head _)
      |>.append (startSegment_nested _ _ _) |>.append (walk_nested _ body _)
      |>.append (goBack_nested _ _) |>.append (startSegment_nested _ _ _)
      |>.append (walk_nested _ orelse _) |>.append (startSegment_nested _ _ _)
  | attempt body handlers orelse final =>
    cases final with
    | none =>
      exact (startSegment_nested _ _ p).append (walk_nested around body _)
        |>.append (walkArms_nested around _ handlers _) |>.append (startSegment_nested _ _ _)
        |>.append (walk_nested around orelse _) |>.append (startSegment_nested _ _ _)
    | some final =>
      exact (startSegment_nested _ _ p).append (walk_nested around body _)
        |>.append (walkArms_nested around _ handlers _) |>.append (startSegment_nested _ _ _)
        |>.append (walk_nested around orelse _)
        |>.append ((startSegment_nested _ _ _).append (walk_nested around final _))
  | jump kind => exact leave_nested around kind p
  | codePath owner body =>
    exact ownPath_nested (some around.path) owner p.paths fun inside q => walk_nested inside body q
termination_by structural f

theorem walkArms_nested (around : Surroundings) (starts : List Segment) (arms : List Flow)
    (p : Spot) : Nested (walkArms around starts arms p).1 := by
  cases arms with
  | nil => exact .nil
  | cons arm arms =>
    exact ((startSegment_nested _ _ p).append (walk_nested around arm _)).append
      (walkArms_nested around starts arms _)
termination_by structural arms

theorem walkChain_nested (around : Surroundings) (arms : List Flow) (p : Spot) :
    Nested (walkChain around arms p).1 := by
  cases arms with
  | nil => exact .nil
  | cons arm arms =>
    exact ((startSegment_nested _ _ p).append (walk_nested around arm _)).append
      (walkChain_nested around arms _)
termination_by structural arms

end

theorem walk_whole (around : Surroundings) (f : Flow) (p : Spot) : Whole (walk around f p).1 :=
  (walk_nested around f p).whole

/-- A path that starts and ends inside of another leaves nothing in it. -/
theorem own_walk_codePath (around : Surroundings) (owner : Node) (body : Flow) (p : Spot) :
    own 0 (walk around (.codePath owner body) p).1 = [] := by
  simp only [walk, ownPath, List.cons_append, own, (walk_whole _ body _).inside]

end Flow

theorem Node.events_nested (n : Node) : Event.Nested n.events :=
  Walk.ownPath_nested none n 0 fun inside p => n.programFlow.walk_nested inside p

end LostUpdate
