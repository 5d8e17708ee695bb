import LostUpdate.Syntax.Heading
import LostUpdate.Syntax.Kind

namespace LostUpdate

inductive Jump
  | breakLoop | continueLoop | returnOut | raiseOut
  deriving DecidableEq, Repr

inductive Flow
  | idle
  | enter (n : Node)
  | exit (n : Node)
  | seq (first second : Flow)
  /-- One of several arms, or none of them if `fallsThrough`. -/
  | choose (fallsThrough : Bool) (arms : List Flow)
  /-- Arms one after the other, any of which may be the last. -/
  | chain (arms : List Flow)
  /-- The head runs before every turn; when it ends the loop, `orelse` follows. -/
  | loop (head body orelse : Flow)
  /-- A body with the handlers of what it raises, a part after its normal end, and a final part. -/
  | attempt (body : Flow) (handlers : List Flow) (orelse : Flow) (final : Option Flow)
  | jump (kind : Jump)
  /-- The body of a function, or a whole program: code that runs on its own. -/
  | codePath (owner : Node) (body : Flow)

namespace Flow

def sequence : List Flow → Flow
  | [] => idle
  | f :: rest => seq f (sequence rest)

/-- Induction over flows, with a hypothesis for each of several arms, handlers and a final part. -/
@[elab_as_elim, induction_eliminator]
theorem induct {motive : Flow → Prop} (idle : motive .idle) (enter : ∀ n, motive (.enter n))
    (exit : ∀ n, motive (.exit n))
    (seq : ∀ first second, motive first → motive second → motive (.seq first second))
    (choose : ∀ fallsThrough arms, (∀ arm ∈ arms, motive arm) →
      motive (.choose fallsThrough arms))
    (chain : ∀ arms, (∀ arm ∈ arms, motive arm) → motive (.chain arms))
    (loop : ∀ head body orelse, motive head → motive body → motive orelse →
      motive (.loop head body orelse))
    (attempt : ∀ body handlers orelse final, motive body → (∀ h ∈ handlers, motive h) →
      motive orelse → (∀ f ∈ final, motive f) → motive (.attempt body handlers orelse final))
    (jump : ∀ kind, motive (.jump kind))
    (codePath : ∀ owner body, motive body → motive (.codePath owner body)) (f : Flow) :
    motive f := by
  refine @Flow.rec motive (fun l => ∀ f ∈ l, motive f) (fun o => ∀ f ∈ o, motive f) idle enter exit
    seq choose chain loop attempt jump codePath ?_ ?_ ?_ ?_ f
  · simp
  · exact fun f l hf hl => List.forall_mem_cons.2 ⟨hf, hl⟩
  · simp
  · rintro f hf g ⟨⟩
    exact hf

end Flow

namespace Node

/-- Each value of a dictionary display after its key. -/
def interleave : List (Option Node) → List Node → List Node
  | key :: keys, value :: values => key.toList ++ value :: interleave keys values
  | _, _ => []

theorem mem_children_of_mem_interleave {c : Node} {keys : List (Option Node)}
    {values : List Node} (h : c ∈ interleave keys values) :
    c ∈ (Form.dict keys values).children := by
  fun_induction interleave keys values with
  | case1 key keys value values ih =>
    simp only [List.mem_append, Option.mem_toList, List.mem_cons, Form.children] at h ih ⊢
    rcases h with rfl | rfl | h
    · simp
    · simp
    · rcases ih h with ih | ih
      · left
        cases key <;> simp_all
      · simp [ih]
  | case2 => simp at h

mutual

def flow (n : Node) : Flow :=
  .seq (.enter n) (.seq n.innerFlow (.exit n))
termination_by (n, 3)

/-- The flow between entering and leaving a node. -/
def innerFlow (n : Node) : Flow :=
  match _h : n with
  | .mk _ _ (.function ..) | .mk _ _ (.lambda ..) | .mk _ _ (.comprehension .generator ..) =>
    .seq (.sequence (n.heading.attach.map fun ⟨c, _⟩ => c.flow)) (.codePath n n.bodyFlow)
  | .mk _ _ (.classDef _ _ _ body _) =>
    .seq (.sequence (n.heading.attach.map fun ⟨c, _⟩ => c.flow)) (.sequence (body.map flow))
  | .mk _ _ (.comprehension _ elements clauses) =>
    .seq (.sequence (clauses.map (clauseFlow false))) (.sequence (elements.map flow))
  | .mk _ _ (.ifStmt test body orelse) =>
    .seq test.flow (.choose false [.sequence (body.map flow), .sequence (orelse.map flow)])
  | .mk _ _ (.conditional test body orelse) =>
    .seq test.flow (.choose false [body.flow, orelse.flow])
  | .mk _ _ (.boolean _ []) => .chain []
  | .mk _ _ (.boolean _ (first :: rest)) => .seq first.flow (.chain (rest.map flow))
  | .mk _ _ (.matchStmt subject cases) => .seq subject.flow (.choose true (cases.map flow))
  | .mk _ _ (.whileLoop test body orelse) =>
    .loop test.flow (.sequence (body.map flow)) (.sequence (orelse.map flow))
  | .mk _ _ (.forLoop _ target iterable body orelse) =>
    .seq iterable.flow
      (.loop target.flow (.sequence (body.map flow)) (.sequence (orelse.map flow)))
  | .mk _ _ (.tryStmt _ body handlers orelse final) =>
    .attempt (.sequence (body.map flow)) (handlers.map flow) (.sequence (orelse.map flow))
      (if final.isEmpty then none else some (.sequence (final.map flow)))
  | .mk _ _ .breakStmt => .jump .breakLoop
  | .mk _ _ .continueStmt => .jump .continueLoop
  | .mk _ _ (.returnStmt _) =>
    .seq (.sequence (n.children.attach.map fun ⟨c, _⟩ => c.flow)) (.jump .returnOut)
  | .mk _ _ (.raiseStmt ..) =>
    .seq (.sequence (n.children.attach.map fun ⟨c, _⟩ => c.flow)) (.jump .raiseOut)
  | .mk _ _ (.dict keys values) =>
    .sequence ((interleave keys values).attach.map fun ⟨c, _⟩ => c.flow)
  | _ => .sequence (n.children.attach.map fun ⟨c, _⟩ => c.flow)
termination_by (n, 2)
decreasing_by
  all_goals
    first
    | exact .left _ _ (_h ▸ sizeOf_lt_of_mem_heading ‹_›)
    | exact .left _ _ (_h ▸ sizeOf_lt_of_mem_children ‹_›)
    | (subst _h
       exact .left _ _ (sizeOf_lt_of_mem_children
         (mem_children_of_mem_interleave ‹_ ∈ interleave _ _›)))
    | (subst _h; exact .right _ (by decide))
    | decreasing_tactic

/-- The flow of the code that belongs to a node alone: the body of a function, lambda or generator
expression, without what its heading holds. -/
def bodyFlow (n : Node) : Flow :=
  match n with
  | .mk _ _ (.function _ _ _ body _ _) => .sequence (body.map flow)
  | .mk _ _ (.lambda _ body) => body.flow
  | .mk _ _ (.comprehension .generator elements clauses) =>
    .seq
      (match clauses with
      | [] => .idle
      | first :: rest =>
        .seq (first.clauseFlow true) (.sequence (rest.map (clauseFlow false))))
      (.sequence (elements.map flow))
  | _ => .idle
termination_by (n, 1)

/-- The flow of one `for` part of a comprehension, with its iterable or without. -/
def clauseFlow (skipsIterable : Bool) (n : Node) : Flow :=
  match n with
  | .mk _ _ (.clause target iterable conditions _) =>
    .seq (.enter n) (.seq
      (.seq (if skipsIterable then .idle else iterable.flow)
        (.seq target.flow (.sequence (conditions.map flow))))
      (.exit n))
  | _ => .idle
termination_by (n, 0)

end

/-- The flow of a program: the body of a function alone, anything else as a whole. -/
def programFlow (n : Node) : Flow := if n.isFunctionLike then n.bodyFlow else n.flow

end Node

end LostUpdate
