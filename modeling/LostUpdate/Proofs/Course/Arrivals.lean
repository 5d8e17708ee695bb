import LostUpdate.Proofs.Course.Bounds
import LostUpdate.Proofs.Course.Program
import LostUpdate.Proofs.Walk.Moves

namespace LostUpdate

/-- The sequences of names on which control may arrive at each segment. -/
abbrev Arrivals := SegmentId → Language Node

namespace Arrivals

variable (contents : Contents) (A : Arrivals)

/-- What may have been evaluated at a point. -/
def upTo (x : Point) : Language Node := A x.segment.id * {x.names}

/-- What may have been evaluated at the end of a segment. -/
def through (k : SegmentId) : Language Node := A k * {contents k}

/-- Whether what passes along the edges that an event draws is among the arrivals. -/
def Admits : Event → Prop
  | .segment s => ∀ k ∈ s.previous, A.through contents k ≤ A s.id
  | .backEdge source target => A.through contents source.id ≤ A target.id
  | _ => True

variable {contents A}

@[simp] theorem upTo_start (s : Segment) : A.upTo ⟨s, []⟩ = A s.id := mul_one (A s.id)

theorem upTo_eq_through {x : Point} (h : contents x.segment.id = x.names) :
    A.upTo x = A.through contents x.segment.id := by
  rw [upTo, through, h]

theorem upTo_exit (x : Point) (n : Node) : A.upTo (x.record (.exit n)) = A.upTo x := by
  simp [upTo, Point.record, Event.names]

theorem upTo_enter (x : Point) (n : Node) :
    A.upTo (x.record (.enter n)) = if n.isName then A.upTo x * {[n]} else A.upTo x := by
  have single (l : List Node) : ({l ++ [n]} : Language Node) = {l} * {[n]} := by
    ext w
    simp only [Language.mem_mul]
    constructor
    · rintro rfl
      exact ⟨l, rfl, [n], rfl, rfl⟩
    · rintro ⟨u, rfl, v, rfl, rfl⟩
      rfl
  by_cases hn : n.isName = true
  · simp only [upTo, Point.record, Event.names, hn, if_true, single, mul_assoc]
  · simp [upTo, Point.record, Event.names, hn]

end Arrivals

end LostUpdate
