import LostUpdate.Syntax.Kind
import LostUpdate.Syntax.Tree

namespace LostUpdate

namespace Node

/-- Whether a `yield` is in `n` outside of nested functions and classes. -/
def containsYield (n : Node) : Bool :=
  match n.form with
  | .yield .. | .yieldFrom .. => true
  | .function .. | .lambda .. | .comprehension .generator .. | .classDef .. => false
  | _ => n.children.attach.any fun ⟨c, _⟩ => c.containsYield
termination_by n
decreasing_by exact sizeOf_lt_of_mem_children ‹_›

def isResumable (n : Node) : Bool :=
  match n.form with
  | .function true .. | .comprehension .generator .. => true
  | .function false _ _ body .. => body.any containsYield
  | .lambda _ body => body.containsYield
  | _ => false

end Node

namespace Tree

/-- Whether other code may run while `n` is evaluated, on its own account. Besides `await` and
`yield` that is the iterable of an asynchronous loop, unless it is the first of a generator
expression, which is evaluated outside, and the manager of an asynchronous `with`. -/
def isSuspension (t : Tree) (n : Node) : Bool :=
  match n.form with
  | .await .. | .yield .. | .yieldFrom .. | .withStmt true .. => true
  | _ =>
    match t.parent? n.id with
    | none => false
    | some p =>
      match p.form with
      | .forLoop true _ iterable .. => iterable.id = n.id
      | .clause _ iterable _ true =>
        iterable.id = n.id && match (t.parent? p.id).map Node.form with
          | some (.comprehension .generator _ (first :: _)) => first.id ≠ p.id
          | _ => true
      | .withItem manager _ =>
        manager.id = n.id && match (t.parent? p.id).map Node.form with
          | some (.withStmt true ..) => true
          | _ => false
      | _ => false

end Tree

end LostUpdate
