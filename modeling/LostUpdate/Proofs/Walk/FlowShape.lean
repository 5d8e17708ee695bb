import LostUpdate.Flow.Basic
import LostUpdate.Proofs.Syntax.Parts

namespace LostUpdate

open LostUpdate.Flow

/-- Whether the parts of a node run one after the other, in the order of the fields. -/
def Form.isRow {α : Type} : Form α → Bool
  | .function .. | .lambda .. | .comprehension .. | .classDef .. | .ifStmt .. | .conditional ..
  | .boolean .. | .matchStmt .. | .whileLoop .. | .forLoop .. | .tryStmt .. | .breakStmt
  | .continueStmt | .returnStmt .. | .raiseStmt .. | .dict .. => false
  | _ => true

namespace Node

theorem map_flow_attach (l : List Node) : (l.attach.map fun ⟨c, _⟩ => c.flow) = l.map flow := by
  simp

theorem interleave_perm (keys : List (Option Node)) (values : List Node)
    (h : keys.length = values.length) :
    (interleave keys values).Perm (Form.dict keys values).children := by
  induction keys generalizing values with
  | nil =>
    obtain rfl : values = [] := List.length_eq_zero_iff.1 h.symm
    simp [interleave, Form.children]
  | cons key keys ih =>
    cases values with
    | nil => simp at h
    | cons value values =>
      have later := ih values (by simpa using h)
      classical
      rw [List.perm_iff_count] at later ⊢
      intro q
      have hq := later q
      simp only [Form.children, List.count_append] at hq
      cases key <;> simp [interleave, Form.children, List.count_cons, hq] <;> omega

/-- The flow of a node where it stands: clauses run their iterable first. -/
def placedFlow (n : Node) : Flow := if n.isClause then n.clauseFlow false else n.flow

/-- How the flow of a node is put together from the flows of its parts, between entering the node and
leaving it. -/
inductive FlowShape (n : Node) : Flow → Prop
  | row (hn : n.form.isRow = true) : FlowShape n (sequence (n.children.map placedFlow))
  | entries {keys : List (Option Node)} {values : List Node} (hn : n.form = .dict keys values)
      (complete : keys.length = values.length) :
      FlowShape n (sequence ((interleave keys values).map placedFlow))
  | function (hf : n.isFunctionLike = true) :
      FlowShape n (.seq (sequence (n.heading.map placedFlow)) (.codePath n n.bodyFlow))
  | classDef {name : String} {bases keywords body decorators : List Node}
      (hn : n.form = .classDef name bases keywords body decorators) :
      FlowShape n (.seq (sequence (n.heading.map placedFlow)) (sequence (body.map placedFlow)))
  | turns {collector : Collector} {elements clauses : List Node}
      (hn : n.form = .comprehension collector elements clauses) (hf : n.isFunctionLike = false) :
      FlowShape n (.seq (sequence (clauses.map placedFlow)) (sequence (elements.map placedFlow)))
  | branch {test : Node} {body orelse : List Node} (hn : n.form = .ifStmt test body orelse) :
      FlowShape n (.seq test.placedFlow
        (.choose false [sequence (body.map placedFlow), sequence (orelse.map placedFlow)]))
  | conditional {test body orelse : Node} (hn : n.form = .conditional test body orelse) :
      FlowShape n (.seq test.placedFlow (.choose false [body.placedFlow, orelse.placedFlow]))
  | noLinks {op : BooleanOp} (hn : n.form = .boolean op []) : FlowShape n (.chain [])
  | links {op : BooleanOp} {first : Node} {rest : List Node}
      (hn : n.form = .boolean op (first :: rest)) :
      FlowShape n (.seq first.placedFlow (.chain (rest.map placedFlow)))
  | cases {subject : Node} {cases : List Node} (hn : n.form = .matchStmt subject cases) :
      FlowShape n (.seq subject.placedFlow (.choose true (cases.map placedFlow)))
  | whileLoop {test : Node} {body orelse : List Node} (hn : n.form = .whileLoop test body orelse) :
      FlowShape n (.loop test.placedFlow (sequence (body.map placedFlow))
        (sequence (orelse.map placedFlow)))
  | forLoop {isAsync : Bool} {target iterable : Node} {body orelse : List Node}
      (hn : n.form = .forLoop isAsync target iterable body orelse) :
      FlowShape n (.seq iterable.placedFlow (.loop target.placedFlow (sequence (body.map placedFlow))
        (sequence (orelse.map placedFlow))))
  | attempt {isStar : Bool} {body handlers orelse : List Node}
      (hn : n.form = .tryStmt isStar body handlers orelse []) :
      FlowShape n (.attempt (sequence (body.map placedFlow)) (handlers.map placedFlow)
        (sequence (orelse.map placedFlow)) none)
  | final {isStar : Bool} {body handlers orelse rest : List Node} {first : Node}
      (hn : n.form = .tryStmt isStar body handlers orelse (first :: rest)) :
      FlowShape n (.attempt (sequence (body.map placedFlow)) (handlers.map placedFlow)
        (sequence (orelse.map placedFlow)) (some (sequence ((first :: rest).map placedFlow))))
  | breakStmt (hn : n.form = .breakStmt) : FlowShape n (.jump .breakLoop)
  | continueStmt (hn : n.form = .continueStmt) : FlowShape n (.jump .continueLoop)
  | returnStmt {value : Option Node} (hn : n.form = .returnStmt value) :
      FlowShape n (.seq (sequence (n.children.map placedFlow)) (.jump .returnOut))
  | raiseStmt {exception cause : Option Node} (hn : n.form = .raiseStmt exception cause) :
      FlowShape n (.seq (sequence (n.children.map placedFlow)) (.jump .raiseOut))

variable {n c : Node} {l : List Node}

theorem flow_eq (n : Node) : n.flow = .seq (.enter n) (.seq n.innerFlow (.exit n)) := by
  rw [flow]

theorem clauseFlow_eq {n target iterable : Node} {conditions : List Node} {isAsync : Bool}
    (hn : n.form = .clause target iterable conditions isAsync) (skipsIterable : Bool) :
    n.clauseFlow skipsIterable = .seq (.enter n) (.seq
      (.seq (if skipsIterable then .idle else iterable.flow)
        (.seq target.flow (.sequence (conditions.map flow))))
      (.exit n)) := by
  cases n with
  | mk i s f =>
    subst hn
    rw [clauseFlow.eq_def]

theorem innerFlow_clause {n target iterable : Node} {conditions : List Node} {isAsync : Bool}
    (hn : n.form = .clause target iterable conditions isAsync) :
    n.innerFlow = .sequence ((target :: iterable :: conditions).map flow) := by
  cases n with
  | mk i s f =>
    subst hn
    rw [innerFlow.eq_def]
    rw [← map_flow_attach]
    rfl

theorem bodyFlow_function {isAsync : Bool} {name : String} {parameters : Node}
    {body decorators : List Node} {returns : Option Node}
    (hn : n.form = .function isAsync name parameters body decorators returns) :
    n.bodyFlow = .sequence (body.map flow) := by
  cases n with
  | mk i s f =>
    subst hn
    rw [bodyFlow.eq_def]

theorem bodyFlow_lambda {parameters body : Node} (hn : n.form = .lambda parameters body) :
    n.bodyFlow = body.flow := by
  cases n with
  | mk i s f =>
    subst hn
    rw [bodyFlow.eq_def]

theorem bodyFlow_generator {first : Node} {elements rest : List Node}
    (hn : n.form = .comprehension .generator elements (first :: rest)) :
    n.bodyFlow = .seq (.seq (first.clauseFlow true) (.sequence (rest.map (clauseFlow false))))
      (.sequence (elements.map flow)) := by
  cases n with
  | mk i s f =>
    subst hn
    rw [bodyFlow.eq_def]

theorem innerFlow_try {n : Node} {isStar : Bool} {body handlers orelse final : List Node}
    (hn : n.form = .tryStmt isStar body handlers orelse final) :
    n.innerFlow = .attempt (sequence (body.map flow)) (handlers.map flow)
      (sequence (orelse.map flow))
      (if final.isEmpty then none else some (sequence (final.map flow))) := by
  cases n with
  | mk i s f =>
    subst hn
    rw [innerFlow.eq_def]

theorem placedFlow_of_isClause (h : c.isClause = false) : c.placedFlow = c.flow := by
  simp [placedFlow, h]

theorem map_placedFlow (h : ∀ c ∈ l, c.isClause = false) : l.map placedFlow = l.map flow :=
  List.map_congr_left fun c hc => placedFlow_of_isClause (h c hc)

theorem map_placedFlow_of_isClause (h : ∀ c ∈ l, c.isClause = true) :
    l.map placedFlow = l.map (clauseFlow false) :=
  List.map_congr_left fun c hc => if_pos (h c hc)

theorem isFunctionLike_of_isRow (hn : n.form.isRow = true) : n.isFunctionLike = false := by
  unfold isFunctionLike
  generalize n.form = f at hn ⊢
  cases f <;> first | rfl | cases hn

theorem isClause_of_category (h : c.form.category ≠ .clause) : c.isClause = false := by
  rw [← Bool.not_eq_true, isClause_eq_true_iff]
  exact h

theorem innerFlow_functionLike (hf : n.isFunctionLike = true) :
    n.innerFlow = .seq (.sequence (n.heading.map flow)) (.codePath n n.bodyFlow) := by
  rcases isFunctionLike_cases hf with ⟨isAsync, name, parameters, body, decorators, returns, hn⟩ |
    ⟨parameters, body, hn⟩ | ⟨elements, clauses, hn⟩
  all_goals
    cases n with
    | mk i s f =>
      subst hn
      rw [innerFlow.eq_def]
      simp only [map_flow_attach]

theorem innerFlow_comprehension {collector : Collector} {elements clauses : List Node}
    (hn : n.form = .comprehension collector elements clauses) (hf : n.isFunctionLike = false) :
    n.innerFlow = .seq (.sequence (clauses.map (clauseFlow false)))
      (.sequence (elements.map flow)) := by
  cases n with
  | mk i s f =>
    subst hn
    rw [innerFlow.eq_def]
    cases collector <;> first | rfl | simp [isFunctionLike, form, Form.isFunctionLike] at hf

theorem innerFlow_shape_of_comprehension {collector : Collector} {elements clauses : List Node}
    (h : n.isGrammatical = true) (hn : n.form = .comprehension collector elements clauses)
    (hf : n.isFunctionLike = false) : n.FlowShape n.innerFlow := by
  have fits := isGrammatical.fits h
  have inClauses : clauses.map placedFlow = clauses.map (clauseFlow false) :=
    map_placedFlow_of_isClause fun c hc => isClause_eq_true_iff.2 <|
      category_of_fits fits (l := clauses) (by simp [hn, Form.fields]) hc
  have inElements : elements.map placedFlow = elements.map flow := map_placedFlow fun c hc =>
    isClause_of_category <| by
      simp [category_of_fits fits (l := elements) (k := .expression) (by simp [hn, Form.fields]) hc]
  rw [innerFlow_comprehension hn hf, ← inClauses, ← inElements]
  exact .turns hn hf

/-- A node without clauses among its parts. -/
theorem innerFlow_shape_of_plain (h : n.isGrammatical = true) (hf : n.isFunctionLike = false)
    (plain : ∀ c ∈ n.children, c.isClause = false)
    (hn : ∀ collector elements clauses, n.form ≠ .comprehension collector elements clauses) :
    n.FlowShape n.innerFlow := by
  have one {c : Node} (hc : c ∈ n.children) : c.flow = c.placedFlow :=
    (placedFlow_of_isClause (plain c hc)).symm
  have row {l : List Node} (hl : ∀ c ∈ l, c ∈ n.children) : l.map flow = l.map placedFlow :=
    (map_placedFlow fun c hc => plain c (hl c hc)).symm
  have all := row (l := n.children) fun c hc => hc
  have below : n.children = n.form.children := rfl
  cases n with
  | mk i s f =>
    rw [innerFlow.eq_def]
    cases f <;> simp only [form, Form.children] at below
    case function | lambda => simp [isFunctionLike, form, Form.isFunctionLike] at hf
    case comprehension => simp [form] at hn
    case classDef name bases keywords body decorators =>
      simp only [map_flow_attach]
      rw [row (l := body) fun c hc => by simp [below, hc], row fun c hc => ?_]
      · exact .classDef rfl
      · simp only [heading, form, List.mem_append] at hc
        simp only [below, List.mem_append]
        tauto
    case ifStmt test body orelse =>
      simp only [one (c := test) (by simp [below]), row (l := body) (by simp +contextual [below]),
        row (l := orelse) (by simp +contextual [below])]
      exact .branch rfl
    case conditional test body orelse =>
      simp only [one (c := test) (by simp [below]), one (c := body) (by simp [below]),
        one (c := orelse) (by simp [below])]
      exact .conditional rfl
    case boolean op values =>
      cases values with
      | nil => exact .noLinks rfl
      | cons first rest =>
        simp only [one (c := first) (by simp [below]), row (l := rest) (by simp +contextual [below])]
        exact .links rfl
    case matchStmt subject cases =>
      simp only [one (c := subject) (by simp [below]), row (l := cases) (by simp +contextual [below])]
      exact .cases rfl
    case whileLoop test body orelse =>
      simp only [one (c := test) (by simp [below]), row (l := body) (by simp +contextual [below]),
        row (l := orelse) (by simp +contextual [below])]
      exact .whileLoop rfl
    case forLoop isAsync target iterable body orelse =>
      simp only [one (c := target) (by simp [below]), one (c := iterable) (by simp [below]),
        row (l := body) (by simp +contextual [below]),
        row (l := orelse) (by simp +contextual [below])]
      exact .forLoop rfl
    case tryStmt isStar body handlers orelse final =>
      simp only [row (l := body) (by simp +contextual [below]),
        row (l := handlers) (by simp +contextual [below]),
        row (l := orelse) (by simp +contextual [below]),
        row (l := final) (by simp +contextual [below])]
      cases final with
      | nil => exact .attempt rfl
      | cons first rest => exact .final rfl
    case breakStmt => exact .breakStmt rfl
    case continueStmt => exact .continueStmt rfl
    case returnStmt =>
      simp only [map_flow_attach, all]
      exact .returnStmt rfl
    case raiseStmt =>
      simp only [map_flow_attach, all]
      exact .raiseStmt rfl
    case dict keys values =>
      have complete : keys.length = values.length := by
        have := (Bool.and_eq_true_iff.1 (isGrammatical.fits h)).1
        simpa [isComplete, form] using this
      simp only [map_flow_attach, row fun c hc => mem_children_of_mem_interleave hc]
      exact .entries rfl complete
    all_goals
      simp only [map_flow_attach, all]
      exact .row rfl

theorem innerFlow_shape (h : n.isGrammatical = true) : n.FlowShape n.innerFlow := by
  by_cases hf : n.isFunctionLike = true
  · have heading := map_placedFlow (l := n.heading) fun c hc => isClause_of_category (c := c) <| by
      simp [category_of_heading h hf hc]
    rw [innerFlow_functionLike hf, ← heading]
    exact .function hf
  rw [Bool.not_eq_true] at hf
  by_cases hn : ∃ collector elements clauses, n.form = .comprehension collector elements clauses
  · obtain ⟨collector, elements, clauses, hn⟩ := hn
    exact innerFlow_shape_of_comprehension h hn hf
  · refine innerFlow_shape_of_plain h hf (fun c hc => ?_) fun k e q hk => hn ⟨k, e, q, hk⟩
    by_contra clause
    exact hn (exists_comprehension h hc (by simpa using clause))

end Node

end LostUpdate
