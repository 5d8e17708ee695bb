namespace LostUpdate

/-- Code paths met on a walk are numbered from one; a path made by hand has a name of its own. -/
inductive PathId
  | ordinal (n : Nat)
  | named (name : String)
  deriving DecidableEq, Repr

def PathId.text : PathId → String
  | ordinal n => "s" ++ toString n
  | named name => name

/-- The segments of a path are numbered from one in the order in which they start. -/
structure SegmentId where
  path : PathId
  number : Nat
  deriving DecidableEq, Repr

def SegmentId.text (s : SegmentId) : String := s.path.text ++ "_" ++ toString s.number

/-- A stretch of code that runs from start to end, with the segments that lead into it. -/
structure Segment where
  id : SegmentId
  previous : List SegmentId
  isReachable : Bool
  deriving DecidableEq, Repr

namespace Segment

def describe (s : Segment) : String :=
  "CodePathSegment(" ++ s.id.text ++ (if s.isReachable then "" else ", unreachable") ++ ")"

/-- Segments without repetitions, each at its first place. -/
def distinct (l : List Segment) : List Segment := l.eraseDups

end Segment

end LostUpdate
