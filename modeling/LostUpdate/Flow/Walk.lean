import LostUpdate.Flow.Basic
import LostUpdate.Flow.Segment

namespace LostUpdate

inductive Event
  | pathStart (path : PathId) (owner : Node) (upper : Option PathId)
  | segment (s : Segment)
  | backEdge (source target : Segment)
  | enter (n : Node)
  | exit (n : Node)
  | pathEnd (path : PathId) (owner : Node) (returned thrown : List Segment)

/-- Where a walk stands in a code path: the segment that runs, the numbers of segments of this path
and of paths so far, and the segments at which jumps have left that no construct has taken yet. -/
structure Spot where
  current : Segment
  segments : Nat
  paths : Nat
  broken : List Segment
  returned : List Segment
  thrown : List Segment

/-- What surrounds a stretch of a walk: the code path, and the segment to which `continue` goes. -/
structure Surroundings where
  path : PathId
  continuation : Option Segment

/-- A stretch of a walk: the events on the way, and where it ends. -/
abbrev Walk := Spot → List Event × Spot

namespace Walk

def stay : Walk := fun p => ([], p)

def emit (e : Event) : Walk := fun p => ([e], p)

def andThen (a b : Walk) : Walk := fun p =>
  let (first, p) := a p
  let (second, p) := b p
  (first ++ second, p)

/-- Starts a segment behind the reachable ones among `previous`. With none of these it cannot be
reached itself. -/
def startSegment (path : PathId) (previous : List Segment) : Walk := fun p =>
  let live := Segment.distinct (previous.filter (·.isReachable))
  let s : Segment := ⟨⟨path, p.segments + 1⟩, live.map (·.id), !live.isEmpty⟩
  ([.segment s], { p with current := s, segments := p.segments + 1 })

/-- An edge from the segment that runs back to `target`, if there is a way to it. -/
def goBack (target : Segment) : Walk := fun p =>
  (if p.current.isReachable then [.backEdge p.current target] else [], p)

/-- Leaves by a jump. What follows cannot be reached. -/
def leave (around : Surroundings) (kind : Jump) : Walk := fun p =>
  let dead := startSegment around.path []
  match kind with
  | .breakLoop => dead { p with broken := p.broken ++ [p.current] }
  | .continueLoop =>
    match around.continuation with
    | some target => andThen (goBack target) dead p
    | none => dead p
  | .returnOut => dead { p with returned := p.returned ++ [p.current] }
  | .raiseOut => dead { p with thrown := p.thrown ++ [p.current] }

/-- The walk of a code path of its own, when `paths` have started before it, with their number after
it. -/
def ownPath (upper : Option PathId) (owner : Node) (body : Surroundings → Walk) (paths : Nat) :
    List Event × Nat :=
  let path := PathId.ordinal (paths + 1)
  let initial : Segment := ⟨⟨path, 1⟩, [], true⟩
  let (inBody, p) := body ⟨path, none⟩ ⟨initial, 1, paths + 1, [], [], []⟩
  (.pathStart path owner upper :: .segment initial :: inBody ++
    [.pathEnd path owner p.returned p.thrown], p.paths)

end Walk

namespace Flow

open Walk

mutual

def walk (around : Surroundings) : Flow → Walk
  | idle => stay
  | .enter n => emit (.enter n)
  | .exit n => emit (.exit n)
  | seq first second => andThen (walk around first) (walk around second)
  | choose fallsThrough arms => fun p =>
    let (inArms, ends, q) := walkArms around [p.current] arms p
    let (after, q) :=
      startSegment around.path ((if fallsThrough then [p.current] else []) ++ ends) q
    (inArms ++ after, q)
  | chain arms => fun p =>
    let (inArms, ends, q) := walkChain around arms p
    let (after, q) := startSegment around.path ends q
    (inArms ++ after, q)
  | loop head body orelse => fun p =>
    let (start, p) := startSegment around.path [p.current] p
    let target := p.current
    let (inHead, p) := walk around head p
    let fork := p.current
    let (turn, p) := startSegment around.path [fork] p
    let (inBody, q) := walk { around with continuation := some target } body { p with broken := [] }
    let (back, q) := goBack target q
    let (leaving, r) := startSegment around.path [fork] { q with broken := p.broken }
    let (inElse, r) := walk around orelse r
    let (after, r) := startSegment around.path (r.current :: q.broken) r
    (start ++ inHead ++ turn ++ inBody ++ back ++ leaving ++ inElse ++ after, r)
  | attempt body handlers orelse final => fun p =>
    let (start, p) := startSegment around.path [p.current] p
    let entry := p.current
    let (inBody, q) := walk around body { p with returned := [], thrown := [] }
    let bodyEnd := q.current
    let caught := q.thrown
    let pending := q.returned
    let (inHandlers, handlerEnds, r) :=
      walkArms around (entry :: bodyEnd :: caught) handlers
        { q with returned := p.returned, thrown := p.thrown }
    let (goOn, r) := startSegment around.path [bodyEnd] r
    let (inElse, r) := walk around orelse r
    let ends := r.current :: handlerEnds
    let (rest, r) := match final with
      | none =>
        startSegment around.path ends
          { r with
            returned := r.returned ++ pending
            thrown := r.thrown ++ if handlers.isEmpty then caught else [] }
      | some final =>
        andThen
          (startSegment around.path
            (if ends.any (·.isReachable) then ends else caught ++ pending))
          (walk around final) r
    (start ++ inBody ++ inHandlers ++ goOn ++ inElse ++ rest, r)
  | .jump kind => leave around kind
  | .codePath owner body => fun p =>
    let (events, paths) := ownPath (some around.path) owner (fun inside => walk inside body) p.paths
    (events, { p with paths := paths })

/-- The walk of arms that all start behind the same segments, with the segments at their ends. -/
def walkArms (around : Surroundings) (starts : List Segment) :
    List Flow → Spot → List Event × List Segment × Spot
  | [], p => ([], [], p)
  | arm :: rest, p =>
    let (start, p) := startSegment around.path starts p
    let (inArm, p) := walk around arm p
    let (inRest, ends, q) := walkArms around starts rest p
    (start ++ inArm ++ inRest, p.current :: ends, q)

/-- The walk of arms that follow one another, with the segments at which it may stop. -/
def walkChain (around : Surroundings) : List Flow → Spot → List Event × List Segment × Spot
  | [], p => ([], [p.current], p)
  | arm :: rest, p =>
    let (start, q) := startSegment around.path [p.current] p
    let (inArm, q) := walk around arm q
    let (inRest, ends, q) := walkChain around rest q
    (start ++ inArm ++ inRest, p.current :: ends, q)

end

end Flow

/-- The events of walking a program, or the body of one function of it. -/
def Node.events (n : Node) : List Event :=
  (Walk.ownPath none n (fun inside => n.programFlow.walk inside) 0).1

end LostUpdate
