import LostUpdate.Flow.CodePath
import LostUpdate.Race.SegmentStates
import LostUpdate.Reference.Escape
import LostUpdate.Scope.Describe
import LostUpdate.Syntax.Excerpt
import LostUpdate.Syntax.Layout
import LostUpdate.Syntax.Resumable

namespace LostUpdate

/-- An update that may be lost. -/
structure Violation where
  target : String
  assignment : Option Node
  line : Int
  column : Int

def Violation.message (v : Violation) : String :=
  "Possible race condition: `" ++ v.target ++
    "` might be reassigned based on an outdated value of `" ++ v.target ++ "`."

structure Stats where
  codePaths : Nat
  resumableFunctions : Nat
  segments : Nat
  backEdges : Nat
  unreachableSegments : Nat
  suspensionPoints : Nat
  checkedAssignments : Nat
  deriving DecidableEq, Repr

def Stats.zero : Stats := ⟨0, 0, 0, 0, 0, 0, 0⟩

/-- Why a tracker cannot follow: the events are not those of a walk, a report is asked for that no
assignment stands behind, or its target has no text. -/
inductive Fault
  | inactivePath (path : CodePath)
  | segmentOutsidePath (s : Segment)
  | valueWithoutAssignment (r : NameUse)
  | referenceOutsideAssignment (r : NameUse)
  | graph (fault : GraphFault)
  | excerpt (e : ExcerptError)
  | layout (e : LayoutError)

def Fault.message : Fault → String
  | inactivePath path => path.describe ++ " ended but is not the active code path"
  | segmentOutsidePath s => s.describe ++ " started outside of any code path"
  | valueWithoutAssignment r => "write expression of " ++ r.describe ++ " has no assignment"
  | referenceOutsideAssignment r => r.describe ++ " is not inside its assignment"
  | graph .noSegment => "'segment'"
  | graph .cycle => "Graph contains a cycle or graph changed during iteration"
  | excerpt e => e.message
  | layout e => e.message

/-- What a tracker works on: a program with its scopes, its text if it is known, and the names whose
variables count as shared wherever they are bound. -/
structure Subject where
  scoping : Scoping
  source : Option String
  shared : List String

/-- A code path that has started and not ended, by its place among the paths, with the references to
follow if it belongs to a resumable function. -/
structure Frame where
  path : Nat
  references : Option (List Reference)

structure Tracker where
  states : SegmentStates SegmentId Tracked
  violations : List Violation
  stats : Stats
  /-- The open code paths, innermost first. -/
  frames : List Frame
  /-- The references met so far to each name without binding. -/
  unbound : List (String × List Reference)
  /-- Values under evaluation, each with the references that will store it. -/
  pending : List (Node × List Reference)

namespace Tracker

def initial : Tracker := ⟨.empty, [], .zero, [], [], []⟩

/-- The references to follow in the code of `owner`. -/
def followed (c : Subject) (owner : Node) : Option (List Reference) :=
  match c.scoping.opened? owner.id with
  | some s =>
    if c.scoping.kind? s = some .function ∧ owner.isResumable then some (c.scoping.codeReferences s)
    else none
  | none => none

def startPath (c : Subject) (path : Nat) (owner : Node) (t : Tracker) : Tracker :=
  let references := followed c owner
  { t with
    frames := ⟨path, references⟩ :: t.frames
    stats := { t.stats with
      codePaths := t.stats.codePaths + 1
      resumableFunctions := t.stats.resumableFunctions + if references.isSome then 1 else 0 } }

/-- Ends the code path at place `path`, whose graph is `graph`. The frame is gone and the back edges
are counted even if the graph cannot be traversed. -/
def endPath (path : Nat) (graph : CodePath) (t : Tracker) : Tracker × Option Fault :=
  match t.frames with
  | [] => (t, some (.inactivePath graph))
  | frame :: rest =>
    if frame.path = path then
      let stats := { t.stats with backEdges := t.stats.backEdges + graph.loopedEdges.length }
      match graph.traverse with
      | .ok segments =>
        let dead := segments.countP (!·.isReachable)
        ({ t with
          frames := rest
          stats := { stats with unreachableSegments := stats.unreachableSegments + dead } }, none)
      | .error fault => ({ t with frames := rest, stats := stats }, some (.graph fault))
    else (t, some (.inactivePath graph))

def startSegment (s : Segment) (t : Tracker) : Tracker × Option Fault :=
  if t.frames.isEmpty then (t, some (.segmentOutsidePath s))
  else
    ({ t with
      states := t.states.start s.id s.previous
      stats := { t.stats with segments := t.stats.segments + 1 } }, none)

def references (t : Tracker) : Option (List Reference) :=
  t.frames.head?.bind (·.references)

def unboundReferences (t : Tracker) (name : String) : List Reference :=
  ((t.unbound.find? (·.1 = name)).map (·.2)).getD []

/-- Keeps a reference in mind if its name has no binding. -/
def remember (c : Subject) (r : Reference) (t : Tracker) : Tracker :=
  match c.scoping.tracked r with
  | .bound .. => t
  | .unbound name =>
    let known := t.unboundReferences name
    if known.any fun u => u.identifier.id = r.identifier.id then t
    else { t with unbound := (name, known ++ [r]) :: t.unbound.filter (·.1 ≠ name) }

/-- All references to a variable, as far as they are known. -/
def knownReferences (c : Subject) (t : Tracker) : Tracked → List Reference
  | .bound s name => c.scoping.referencesTo s name
  | .unbound name => t.unboundReferences name

/-- Adds a reference to those that wait for `value`. -/
def await (value : Node) (r : Reference) (t : Tracker) : Tracker :=
  if t.pending.any fun (v, _) => v.id = value.id then
    { t with pending := t.pending.map fun (v, waiting) =>
        if v.id = value.id then (v, waiting ++ [r]) else (v, waiting) }
  else { t with pending := t.pending ++ [(value, [r])] }

/-- Meets a name in the segments `current`: marks what is read, and lets an assignment to a variable
that others can reach wait for its value. -/
def meet (c : Subject) (current : List SegmentId) (r : Reference) (t : Tracker) : Tracker :=
  let t := t.remember c r
  let v := c.scoping.tracked r
  let stored := c.scoping.tree.storedValue? r.toNameUse
  let t :=
    if c.scoping.tree.countsAsRead r.toNameUse stored then
      { t with states := t.states.read current v }
    else t
  match stored with
  | some value =>
    if c.scoping.tree.isAssignmentValue stored ∧
        !c.scoping.isConfined c.shared v (t.knownReferences c v)
          (c.scoping.tree.path r.toNameUse) then
      t.await value r
    else t
  | none => t

def enter (c : Subject) (current : List SegmentId) (n : Node) (t : Tracker) : Tracker :=
  match n.form with
  | .name .. =>
    match (t.references.getD []).findRev? (·.identifier.id = n.id) with
    | some r => t.meet c current r
    | none => t
  | _ => t

/-- The text of a target: its piece of the program, or the node written out. -/
def targetText (c : Subject) (n : Node) : Except Fault String :=
  let piece : Except ExcerptError (Option String) := match c.source, n.span with
    | some source, some span => span.excerpt? source
    | _, _ => .ok none
  match piece with
  | .error e => .error (.excerpt e)
  | .ok piece =>
    match piece.filter (· ≠ "") with
    | some text => .ok text
    | none => n.text.mapError .layout

/-- Reports that the assignment of `value` may store an outdated value through `r`. -/
def report (c : Subject) (r : Reference) (value : Node) (t : Tracker) : Tracker × Option Fault :=
  match c.scoping.tree.parent? value.id with
  | none => (t, some (.valueWithoutAssignment r.toNameUse))
  | some assignment =>
    match c.scoping.tree.targetIn? r.toNameUse assignment.id with
    | none => (t, some (.referenceOutsideAssignment r.toNameUse))
    | some target =>
      match targetText c target with
      | .error fault => (t, some fault)
      | .ok text =>
        let (line, column) := match assignment.span with
          | some span => (span.line, span.column)
          | none => (0, 0)
        ({ t with violations := t.violations ++ [⟨text, some assignment, line, column⟩] }, none)

/-- Checks the references that waited for `value`, one after the other. -/
def check (c : Subject) (current : List SegmentId) (value : Node) :
    List Reference → Tracker → Tracker × Option Fault
  | [], t => (t, none)
  | r :: rest, t =>
    let t := t.remember c r
    if t.states.isOutdated current (c.scoping.tracked r) then
      match t.report c r value with
      | (t, none) => check c current value rest t
      | (t, some fault) => (t, some fault)
    else check c current value rest t

/-- The evaluation of `n` has ended in the segments `current`. -/
def evaluated (c : Subject) (current : List SegmentId) (n : Node) (t : Tracker) :
    Tracker × Option Fault :=
  let t :=
    if c.scoping.tree.isSuspension n then
      { t with
        states := t.states.suspend current
        stats := { t.stats with suspensionPoints := t.stats.suspensionPoints + 1 } }
    else t
  match t.pending.find? fun (v, _) => v.id = n.id with
  | none => (t, none)
  | some (_, waiting) =>
    check c current n waiting
      { t with
        pending := t.pending.filter fun (v, _) => v.id ≠ n.id
        stats := { t.stats with checkedAssignments := t.stats.checkedAssignments + 1 } }

/-- Whether leaving a node ends an evaluation: that of an expression, or of an `async with`, which
suspends once more at its end. -/
def isEvaluation (n : Node) : Bool :=
  n.form.isExpression || match n.form with
    | .withStmt true .. => true
    | _ => false

def exit (c : Subject) (current : List SegmentId) (n : Node) (t : Tracker) :
    Tracker × Option Fault :=
  if t.references.isSome ∧ isEvaluation n then t.evaluated c current n else (t, none)

end Tracker

end LostUpdate
