import LostUpdate.Flow.Walk
import LostUpdate.Syntax.Kind

namespace LostUpdate

/-- A vertex of the graph. It has no segment if only edges have named it. -/
structure Vertex where
  id : SegmentId
  segment : Option Segment
  /-- Where its edges lead, and whether they are looped. -/
  successors : List (SegmentId × Bool)

/-- The segments of one function or program as a graph. Its vertices and edges are kept in the way
that `networkx.DiGraph` documents: an edge brings in the vertices it joins, what is added again keeps
its place and takes the new data, and all are listed in the order in which they came. -/
structure CodePath where
  id : PathId
  owner : Node
  upper : Option PathId
  vertices : List Vertex
  /-- The number of segments added so far. -/
  count : Nat
  current : List Segment
  returned : List Segment
  thrown : List Segment

/-- Why a graph cannot be traversed. -/
inductive GraphFault
  | noSegment
  | cycle
  deriving DecidableEq, Repr

namespace CodePath

def start (id : PathId) (owner : Node) (upper : Option PathId) : CodePath :=
  ⟨id, owner, upper, [], 0, [], [], []⟩

def describe (p : CodePath) : String := "CodePath(" ++ p.id.text ++ ", " ++ p.owner.kind ++ ")"

/-- Changes the vertex `id`, which is added if it is not there yet. -/
def touch (id : SegmentId) (f : Vertex → Vertex) (vertices : List Vertex) : List Vertex :=
  if vertices.any (·.id = id) then vertices.map fun v => if v.id = id then f v else v
  else vertices ++ [f ⟨id, none, []⟩]

/-- An edge drawn again keeps its place and takes the new mark. -/
def setEdge (target : SegmentId) (looped : Bool) (edges : List (SegmentId × Bool)) :
    List (SegmentId × Bool) :=
  if edges.any (·.1 = target) then
    edges.map fun e => if e.1 = target then (target, looped) else e
  else edges ++ [(target, looped)]

def connect (source target : SegmentId) (looped : Bool) (vertices : List Vertex) : List Vertex :=
  touch target (fun v => v) (touch source (fun v =>
    { v with successors := setEdge target looped v.successors }) vertices)

/-- Adds a segment with an edge from each segment before it. -/
def insert (p : CodePath) (s : Segment) : CodePath :=
  let withVertex := touch s.id (fun v => { v with segment := some s }) p.vertices
  { p with
    vertices := s.previous.foldl (fun vertices before => connect before s.id false vertices)
      withVertex
    count := p.count + 1 }

/-- The next segment of a path, if it starts behind `previous`. -/
def nextSegment (p : CodePath) (previous : List Segment) (isReachable : Bool) : Segment :=
  ⟨⟨p.id, p.count + 1⟩, previous.map (·.id), isReachable⟩

def addLoopedEdge (p : CodePath) (source target : Segment) : CodePath :=
  if source.isReachable then
    { p with vertices := connect source.id target.id true p.vertices }
  else p

/-- Adds a segment, which becomes the one that runs. -/
def startSegment (p : CodePath) (s : Segment) : CodePath :=
  { p.insert s with current := [s] }

def segments (p : CodePath) : List Segment := p.vertices.filterMap (·.segment)

def initial? (p : CodePath) : Option SegmentId := (p.vertices.head?).map (·.id)

def successors (p : CodePath) (s : SegmentId) : List (SegmentId × Bool) :=
  (p.vertices.filter (·.id = s)).flatMap (·.successors)

def loopedEdges (p : CodePath) : List (SegmentId × SegmentId) :=
  p.vertices.flatMap fun v => (v.successors.filter (·.2)).map fun e => (v.id, e.1)

/-- Where the edges lead that are not looped. -/
def forward (p : CodePath) (s : SegmentId) : List SegmentId :=
  ((p.successors s).filter (!·.2)).map (·.1)

/-- The number of edges into each vertex that are not looped. -/
def inDegrees (p : CodePath) : List (SegmentId × Nat) :=
  let targets := p.vertices.flatMap fun v => (v.successors.filter (!·.2)).map (·.1)
  p.vertices.map fun v => (v.id, targets.count v.id)

/-- Follows edges to `targets` one after the other. The vertices come out whose last edge has been
followed, with the numbers of edges that are left. -/
def release (degrees : List (SegmentId × Nat)) :
    List SegmentId → List SegmentId × List (SegmentId × Nat)
  | [] => ([], degrees)
  | t :: rest =>
    let left := degrees.map fun (s, n) => if s = t then (s, n - 1) else (s, n)
    let (free, left) := release left rest
    (if (t, 1) ∈ degrees then t :: free else free, left)

/-- The vertices that come from `generation` on, when `degrees` edges into each are left. -/
def orderFrom (p : CodePath) :
    Nat → List (SegmentId × Nat) → List SegmentId → List SegmentId
  | 0, _, _ => []
  | _, _, [] => []
  | fuel + 1, degrees, generation =>
    let (next, degrees) := release degrees (generation.flatMap p.forward)
    generation ++ orderFrom p fuel degrees next

/-- The order of `networkx.topological_sort` on the view without looped edges: first the vertices into
which no edge leads, then those that are free once all edges from these have been followed, and so
on. Vertices on a cycle are left out; for these the sort raises `NetworkXUnfeasible`. -/
def order (p : CodePath) : List SegmentId :=
  let degrees := p.inDegrees
  p.orderFrom p.vertices.length degrees ((degrees.filter (·.2 = 0)).map (·.1))

def segment? (p : CodePath) (s : SegmentId) : Option Segment :=
  (p.vertices.find? (·.id = s)).bind (·.segment)

/-- The segments in topological order. -/
def traverse (p : CodePath) : Except GraphFault (List Segment) := do
  let segments ← p.order.mapM fun s =>
    match p.segment? s with
    | some segment => .ok segment
    | none => .error .noSegment
  if p.order.length < p.vertices.length then .error .cycle else return segments

/-- What an event adds to the paths of a walk. -/
def record (paths : List CodePath) : Event → List CodePath
  | .pathStart id owner upper => paths ++ [start id owner upper]
  | .segment s => paths.map fun p => if p.id = s.id.path then p.startSegment s else p
  | .backEdge source target =>
    paths.map fun p => if p.id = source.id.path then p.addLoopedEdge source target else p
  | .enter _ | .exit _ => paths
  | .pathEnd id _ returned thrown =>
    paths.map fun p => if p.id = id then { p with returned := returned, thrown := thrown } else p

/-- The code paths of a walk, in the order in which they start. -/
def ofEvents (events : List Event) : List CodePath := events.foldl record []

end CodePath

end LostUpdate
