import LostUpdate.Race.Tracker

namespace LostUpdate

/-- The code paths of a walk and the tracker that follows it, both up to the same event. -/
structure Session where
  paths : List CodePath
  tracker : Tracker

namespace Session

def initial : Session := ⟨[], .initial⟩

def innermost? (s : Session) : Option CodePath :=
  s.tracker.frames.head?.bind fun frame => s.paths[frame.path]?

/-- The segments that run in the innermost code path. -/
def current (s : Session) : List SegmentId :=
  match s.innermost? with
  | some path => path.current.map (·.id)
  | none => []

def startPath (c : Subject) (path : Nat) (s : Session) : Session :=
  match s.paths[path]? with
  | some p => { s with tracker := s.tracker.startPath c path p.owner }
  | none => s

def withTracker (s : Session) (outcome : Tracker × Option Fault) : Session × Option Fault :=
  ({ s with tracker := outcome.1 }, outcome.2)

def endPath (path : Nat) (s : Session) : Session × Option Fault :=
  match s.paths[path]? with
  | some p => s.withTracker (s.tracker.endPath path p)
  | none => (s, none)

def startSegment (segment : Segment) (s : Session) : Session × Option Fault :=
  s.withTracker (s.tracker.startSegment segment)

def enter (c : Subject) (n : Node) (s : Session) : Session :=
  { s with tracker := s.tracker.enter c s.current n }

def exit (c : Subject) (n : Node) (s : Session) : Session × Option Fault :=
  s.withTracker (s.tracker.exit c s.current n)

/-- The place of the path `id` among the paths. -/
def place (s : Session) (id : PathId) : Nat := s.paths.findIdx (·.id = id)

/-- Takes in one event of a walk: first the graph, then the tracker. -/
def step (c : Subject) (s : Session) (e : Event) : Session × Option Fault :=
  let s := { s with paths := CodePath.record s.paths e }
  match e with
  | .pathStart id .. => (s.startPath c (s.place id), none)
  | .segment segment => s.startSegment segment
  | .backEdge .. => (s, none)
  | .enter n => (s.enter c n, none)
  | .exit n => s.exit c n
  | .pathEnd id .. => s.endPath (s.place id)

def after (c : Subject) (s : Session) (e : Event) : Except Fault Session :=
  match s.step c e with
  | (s, none) => .ok s
  | (_, some fault) => .error fault

def run (c : Subject) (s : Session) (events : List Event) : Except Fault Session :=
  events.foldlM (after c) s

/-- Each event with the sessions before and after it. -/
def history (c : Subject) (s : Session) :
    List Event → Except Fault (List (Event × Session × Session))
  | [] => .ok []
  | e :: rest => do
    let next ← s.after c e
    let later ← next.history c rest
    return (e, s, next) :: later

end Session

namespace Subject

/-- The analysis of a program from a node of it: the root, or one function. -/
def analyze (c : Subject) (n : Node) : Except Fault Tracker :=
  (Session.initial.run c n.events).map (·.tracker)

end Subject

end LostUpdate
