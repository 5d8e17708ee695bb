import LostUpdate.Proofs.Course.Basic
import LostUpdate.Proofs.Walk.Coverage

namespace LostUpdate

open Courses

namespace Flow

mutual

def courses : Flow → Courses
  | idle | exit _ | codePath .. => .idle
  | enter n => if n.isName then .name n else .idle
  | seq first second => first.courses.andThen second.courses
  | choose fallsThrough arms =>
    (if fallsThrough then Courses.idle else .never).either (.oneOf (coursesEach arms))
  | chain arms => .someOf (coursesEach arms)
  | loop head body orelse => .loop head.courses body.courses orelse.courses
  | attempt .. => .never
  | jump kind => .leave kind

def coursesEach : List Flow → List Courses
  | [] => []
  | f :: rest => f.courses :: coursesEach rest

end

mutual

/-- Whether a flow attempts nothing and leaves and continues loops only inside of them. -/
def isStructured (inLoop : Bool) : Flow → Bool
  | idle | enter _ | exit _ | codePath .. => true
  | seq first second => first.isStructured inLoop && second.isStructured inLoop
  | choose _ arms | chain arms => isStructuredEach inLoop arms
  | loop head body orelse =>
    head.isStructured inLoop && body.isStructured true && orelse.isStructured inLoop
  | attempt .. => false
  | jump .breakLoop | jump .continueLoop => inLoop
  | jump .returnOut | jump .raiseOut => true

def isStructuredEach (inLoop : Bool) : List Flow → Bool
  | [] => true
  | f :: rest => f.isStructured inLoop && isStructuredEach inLoop rest

end

end Flow

/-- Whether a node does nothing else in its place than to run all its steps. -/
def Form.runsSteps {α : Type} : Form α → Bool
  | .name .. | .ifStmt .. | .conditional .. | .boolean _ (_ :: _) | .whileLoop .. | .forLoop ..
  | .breakStmt | .continueStmt | .returnStmt .. | .raiseStmt .. | .tryStmt .. | .matchStmt .. => false
  | _ => true

namespace Node

/-- The parts of a node that run in its place, in the order in which they do when there is nothing
to choose. -/
def steps (n : Node) : List Node :=
  match n.form with
  | .function .. | .lambda .. | .comprehension .generator .. => n.heading
  | .classDef _ _ _ body _ => n.heading ++ body
  | .comprehension _ elements clauses => clauses ++ elements
  | .clause target iterable conditions _ => iterable :: target :: conditions
  | .dict keys values => interleave keys values
  | _ => n.children

theorem mem_inPlace_of_mem_steps {n c : Node} (h : c ∈ n.steps) : c ∈ n.inPlace := by
  cases n with
  | mk i s f =>
    cases f
    case comprehension collector elements clauses =>
      cases collector <;>
        simp_all [steps, inPlace, isFunctionLike, Form.isFunctionLike, form, children,
          Form.children, or_comm]
    case classDef name bases keywords body decorators =>
      simp only [steps, heading, form, List.mem_append] at h
      simp only [inPlace, isFunctionLike, Form.isFunctionLike, form, children, Form.children,
        List.mem_append, Bool.false_eq_true, if_false]
      tauto
    case clause target iterable conditions isAsync =>
      simp only [steps, form, List.mem_cons] at h
      simp only [inPlace, isFunctionLike, Form.isFunctionLike, form, children, Form.children,
        List.mem_cons, Bool.false_eq_true, if_false]
      tauto
    case dict keys values => exact mem_children_of_mem_interleave h
    all_goals exact h

theorem sizeOf_lt_of_mem_steps {n c : Node} (h : c ∈ n.steps) : sizeOf c < sizeOf n := by
  have part := mem_inPlace_of_mem_steps h
  unfold inPlace at part
  split_ifs at part
  · exact sizeOf_lt_of_mem_heading part
  · exact sizeOf_lt_of_mem_children part

/-- The courses through a node where it stands. -/
def courses (n : Node) : Courses :=
  match _h : n with
  | .mk _ _ (.name ..) => .name n
  | .mk _ _ (.ifStmt test body orelse) =>
    test.courses.andThen (.either (.all (body.map courses)) (.all (orelse.map courses)))
  | .mk _ _ (.conditional test body orelse) =>
    test.courses.andThen (.either body.courses orelse.courses)
  | .mk _ _ (.boolean _ (first :: rest)) =>
    first.courses.andThen (.someOf (rest.map courses))
  | .mk _ _ (.whileLoop test body orelse) =>
    .loop test.courses (.all (body.map courses)) (.all (orelse.map courses))
  | .mk _ _ (.forLoop _ target iterable body orelse) =>
    iterable.courses.andThen
      (.loop target.courses (.all (body.map courses)) (.all (orelse.map courses)))
  | .mk _ _ .breakStmt => .leave .breakLoop
  | .mk _ _ .continueStmt => .leave .continueLoop
  | .mk _ _ (.returnStmt _) =>
    (Courses.all (n.steps.attach.map fun ⟨c, _⟩ => c.courses)).andThen (.leave .returnOut)
  | .mk _ _ (.raiseStmt ..) =>
    (Courses.all (n.steps.attach.map fun ⟨c, _⟩ => c.courses)).andThen (.leave .raiseOut)
  | .mk _ _ (.tryStmt ..) | .mk _ _ (.matchStmt ..) => .never
  | _ => .all (n.steps.attach.map fun ⟨c, _⟩ => c.courses)
termination_by n
decreasing_by
  all_goals
    first
    | exact _h ▸ sizeOf_lt_of_mem_steps ‹_›
    | decreasing_tactic

/-- Whether a node has neither `try` nor `match` where it stands, and `break` and `continue` only in
loops. -/
def isStructured (inLoop : Bool) (n : Node) : Bool :=
  match _h : n with
  | .mk _ _ (.whileLoop test body orelse) =>
    test.isStructured inLoop && body.attach.all (fun ⟨c, _⟩ => c.isStructured true) &&
      orelse.attach.all fun ⟨c, _⟩ => c.isStructured inLoop
  | .mk _ _ (.forLoop _ target iterable body orelse) =>
    iterable.isStructured inLoop && target.isStructured inLoop &&
      body.attach.all (fun ⟨c, _⟩ => c.isStructured true) &&
      orelse.attach.all fun ⟨c, _⟩ => c.isStructured inLoop
  | .mk _ _ .breakStmt | .mk _ _ .continueStmt => inLoop
  | .mk _ _ (.tryStmt ..) | .mk _ _ (.matchStmt ..) => false
  | _ => n.steps.attach.all fun ⟨c, _⟩ => c.isStructured inLoop
termination_by n
decreasing_by
  all_goals
    first
    | exact _h ▸ sizeOf_lt_of_mem_steps ‹_›
    | decreasing_tactic

end Node

namespace Flow

theorem coursesEach_eq (l : List Flow) : coursesEach l = l.map courses := by
  induction l with
  | nil => rfl
  | cons f l ih => rw [coursesEach, ih, List.map_cons]

theorem isStructuredEach_eq (inLoop : Bool) (l : List Flow) :
    isStructuredEach inLoop l = l.all (isStructured inLoop) := by
  induction l with
  | nil => rfl
  | cons f l ih => rw [isStructuredEach, ih, List.all_cons]

theorem isStructured_of_mem {inLoop : Bool} {l : List Flow} {f : Flow}
    (h : isStructuredEach inLoop l = true) (hf : f ∈ l) : f.isStructured inLoop = true := by
  rw [isStructuredEach_eq] at h
  exact List.all_eq_true.1 h f hf

/-- Control goes through a flow as it goes through a node, if the node is structured. -/
def RunsAs (f : Flow) (n : Node) : Prop :=
  ∀ inLoop, n.isStructured inLoop = true → f.isStructured inLoop = true ∧ f.courses = n.courses

variable {g : Node → Flow} {l : List Node} {inLoop : Bool}

theorem runsAs_each (h : ∀ c ∈ l, (g c).RunsAs c) (hl : ∀ c ∈ l, c.isStructured inLoop = true) :
    isStructuredEach inLoop (l.map g) = true ∧ coursesEach (l.map g) = l.map Node.courses := by
  rw [isStructuredEach_eq, coursesEach_eq, List.all_map, List.all_eq_true, List.map_map]
  exact ⟨fun c hc => (h c hc inLoop (hl c hc)).1,
    List.map_congr_left fun c hc => (h c hc inLoop (hl c hc)).2⟩

theorem runsAs_sequence (h : ∀ c ∈ l, (g c).RunsAs c)
    (hl : ∀ c ∈ l, c.isStructured inLoop = true) :
    (sequence (l.map g)).isStructured inLoop = true ∧
      (sequence (l.map g)).courses = .all (l.map Node.courses) := by
  induction l with
  | nil => exact ⟨rfl, rfl⟩
  | cons c l ih =>
    have first := h c List.mem_cons_self inLoop (hl c List.mem_cons_self)
    have rest := ih (fun d hd => h d (List.mem_cons_of_mem _ hd))
      fun d hd => hl d (List.mem_cons_of_mem _ hd)
    simp only [List.map_cons, sequence, isStructured, courses, first, rest, Bool.and_self,
      all_cons, and_self]

/-- Entering and leaving a node is no step, unless it is a name. -/
theorem RunsAs.around {n : Node} {f : Flow} (hn : n.isName = false) (h : f.RunsAs n) :
    (seq (.enter n) (.seq f (.exit n))).RunsAs n := by
  intro inLoop hs
  obtain ⟨structured, same⟩ := h inLoop hs
  simp [isStructured, courses, hn, structured, same]

end Flow

namespace Node

open LostUpdate.Flow

theorem placedFlow_of_category {n : Node} (h : n.form.category ≠ .clause) :
    n.placedFlow = n.flow := by
  rw [placedFlow, if_neg fun hc => h (isClause_eq_true_iff.1 hc)]

/-- What stands in a field for no clauses has a flow of its own. -/
theorem flow_runsAs {n c : Node} (h : n.fits = true) {k : Category} {l : List Node}
    (hl : (k, l) ∈ n.form.fields) (hk : k ≠ .clause) (hc : c ∈ l) (ih : c.placedFlow.RunsAs c) :
    c.flow.RunsAs c := by
  obtain rfl := category_of_fits h hl hc
  rwa [← placedFlow_of_category hk]

theorem clauseFlow_runsAs_of_field {n c : Node} (h : n.fits = true) {l : List Node}
    (hl : (.clause, l) ∈ n.form.fields) (hc : c ∈ l) (ih : c.placedFlow.RunsAs c) :
    (c.clauseFlow false).RunsAs c := by
  rwa [placedFlow, if_pos (isClause_eq_true_iff.2 (category_of_fits h hl hc))] at ih

theorem map_courses_attach (l : List Node) :
    (l.attach.map fun ⟨c, _⟩ => c.courses) = l.map courses := by
  simp

theorem all_isStructured_attach (inLoop : Bool) (l : List Node) :
    (l.attach.all fun ⟨c, _⟩ => c.isStructured inLoop) = l.all (isStructured inLoop) := by
  simp

section RunsAs

variable {n : Node}

theorem steps_of_isRow (hn : n.form.isRow = true) (hclause : n.isClause = false) :
    n.steps = n.children := by
  unfold steps isClause at *
  generalize n.form = f at hn hclause ⊢
  cases f <;> first | rfl | (cases hn; done) | cases hclause

theorem runsSteps_of_isRow (hn : n.form.isRow = true) (hname : n.isName = false) :
    n.form.runsSteps = true := by
  unfold isName at hname
  generalize n.form = f at hn hname ⊢
  cases f <;> first | rfl | (cases hn; done) | cases hname

/-- The flow of a node that runs all its steps, one after the other. -/
theorem runsAs_of_runsSteps {f : Flow} (hn : n.form.runsSteps = true)
    (h : ∀ inLoop, (∀ c ∈ n.steps, c.isStructured inLoop = true) →
      f.isStructured inLoop = true ∧ f.courses = .all (n.steps.map courses)) : f.RunsAs n := by
  intro inLoop hs
  have all : n.isStructured inLoop = n.steps.all (isStructured inLoop) ∧
      n.courses = .all (n.steps.map courses) := by
    rw [isStructured.eq_def, courses.eq_def, ← map_courses_attach, ← all_isStructured_attach]
    cases n with
    | mk i s f =>
      cases f
      case boolean op values =>
        cases values with
        | nil => exact ⟨rfl, rfl⟩
        | cons => simp [form, Form.runsSteps] at hn
      all_goals first | exact ⟨rfl, rfl⟩ | cases hn
  rw [all.1, List.all_eq_true] at hs
  rw [all.2]
  exact h inLoop hs

section Grammatical

variable (h : n.isGrammatical = true)

include h

theorem innerFlow_runsAs (hname : n.isName = false) (hclause : n.isClause = false)
    (ih : ∀ c ∈ n.inPlace, c.placedFlow.RunsAs c) : n.innerFlow.RunsAs n := by
  have shape := innerFlow_shape h
  generalize n.innerFlow = g at shape ⊢
  have step : ∀ c ∈ n.steps, c.placedFlow.RunsAs c := fun c hc => ih c (mem_inPlace_of_mem_steps hc)
  cases shape with
  | row hn =>
    refine runsAs_of_runsSteps (runsSteps_of_isRow hn hname) fun inLoop hs => ?_
    rw [steps_of_isRow hn hclause] at step hs ⊢
    exact runsAs_sequence step hs
  | entries hn =>
    refine runsAs_of_runsSteps (by rw [hn]; rfl) fun inLoop hs => ?_
    simp only [steps, hn] at step hs ⊢
    exact runsAs_sequence step hs
  | function hf =>
    obtain ⟨runs, steps_eq⟩ : n.form.runsSteps = true ∧ n.steps = n.heading := by
      rcases isFunctionLike_cases hf with ⟨_, _, _, _, _, _, hn⟩ | ⟨_, _, hn⟩ | ⟨_, _, hn⟩ <;>
        simp [Form.runsSteps, steps, hn]
    refine runsAs_of_runsSteps runs fun inLoop hs => ?_
    rw [steps_eq] at step hs ⊢
    simp [Flow.isStructured, Flow.courses, runsAs_sequence step hs]
  | classDef hn =>
    refine runsAs_of_runsSteps (by rw [hn]; rfl) fun inLoop hs => ?_
    simp only [steps, hn, List.forall_mem_append] at step hs
    simp [Flow.isStructured, Flow.courses, runsAs_sequence step.1 hs.1,
      runsAs_sequence step.2 hs.2, all_append, steps, hn]
  | @turns collector elements clauses hn hf =>
    have steps_eq : n.steps = clauses ++ elements := by
      cases collector <;> simp_all [steps, isFunctionLike, Form.isFunctionLike]
    refine runsAs_of_runsSteps (by rw [hn]; rfl) fun inLoop hs => ?_
    rw [steps_eq] at step hs ⊢
    simp only [List.forall_mem_append] at step hs
    simp [Flow.isStructured, Flow.courses, runsAs_sequence step.1 hs.1,
      runsAs_sequence step.2 hs.2, all_append]
  | noLinks hn =>
    refine runsAs_of_runsSteps (by rw [hn]; rfl) fun inLoop _ => ?_
    simp [Flow.isStructured, Flow.courses, isStructuredEach, coursesEach, someOf, steps, hn,
      children, Form.children]
  -- What is left chooses among its parts, repeats them or jumps.
  | cases hn | attempt hn | final hn =>
    intro inLoop hs
    cases n with
    | mk i s f =>
      obtain rfl : f = _ := hn
      rw [isStructured.eq_def] at hs
      simp at hs
  | breakStmt hn | continueStmt hn =>
    intro inLoop hs
    cases n with
    | mk i s f =>
      obtain rfl : f = _ := hn
      rw [isStructured.eq_def] at hs
      rw [courses.eq_def]
      exact ⟨hs, rfl⟩
  | returnStmt hn | raiseStmt hn =>
    intro inLoop hs
    cases n with
    | mk i s f =>
      obtain rfl : f = _ := hn
      rw [isStructured.eq_def] at hs
      rw [courses.eq_def]
      simp only [map_courses_attach, all_isStructured_attach, List.all_eq_true] at hs ⊢
      have values := runsAs_sequence step hs
      simp only [Flow.isStructured, Flow.courses, Bool.and_true]
      exact ⟨values.1, congrArg (andThen · _) values.2⟩
  | branch hn =>
    intro inLoop hs
    cases n with
    | mk i s f =>
      obtain rfl : f = _ := hn
      rw [isStructured.eq_def] at hs
      rw [courses.eq_def]
      simp only [all_isStructured_attach, List.all_eq_true, steps, children, form, Form.children,
        List.forall_mem_cons, List.forall_mem_append] at hs step
      obtain ⟨inTest, inBody, inElse⟩ := step
      simp [Flow.isStructured, Flow.courses, isStructuredEach, coursesEach, oneOf,
        inTest inLoop hs.1, runsAs_sequence inBody hs.2.1, runsAs_sequence inElse hs.2.2]
  | conditional hn =>
    intro inLoop hs
    cases n with
    | mk i s f =>
      obtain rfl : f = _ := hn
      rw [isStructured.eq_def] at hs
      rw [courses.eq_def]
      simp only [all_isStructured_attach, List.all_eq_true, steps, children, form, Form.children,
        List.forall_mem_cons, List.not_mem_nil, false_imp_iff, implies_true, and_true] at hs step
      obtain ⟨inTest, inBody, inElse⟩ := step
      simp [Flow.isStructured, Flow.courses, isStructuredEach, coursesEach, oneOf,
        inTest inLoop hs.1, inBody inLoop hs.2.1, inElse inLoop hs.2.2]
  | links hn =>
    intro inLoop hs
    cases n with
    | mk i s f =>
      obtain rfl : f = _ := hn
      rw [isStructured.eq_def] at hs
      rw [courses.eq_def]
      simp only [all_isStructured_attach, List.all_eq_true, steps, children, form, Form.children,
        List.forall_mem_cons] at hs step
      obtain ⟨inFirst, inRest⟩ := step
      simp [Flow.isStructured, Flow.courses, inFirst inLoop hs.1, runsAs_each inRest hs.2]
  | whileLoop hn =>
    intro inLoop hs
    cases n with
    | mk i s f =>
      obtain rfl : f = _ := hn
      rw [isStructured.eq_def] at hs
      rw [courses.eq_def]
      simp only [all_isStructured_attach, Bool.and_eq_true, List.all_eq_true] at hs
      simp only [steps, children, form, Form.children, List.forall_mem_cons,
        List.forall_mem_append] at step
      obtain ⟨inTest, inBody, inElse⟩ := step
      simp [Flow.isStructured, Flow.courses, inTest inLoop hs.1.1, runsAs_sequence inBody hs.1.2,
        runsAs_sequence inElse hs.2]
  | forLoop hn =>
    intro inLoop hs
    cases n with
    | mk i s f =>
      obtain rfl : f = _ := hn
      rw [isStructured.eq_def] at hs
      rw [courses.eq_def]
      simp only [all_isStructured_attach, Bool.and_eq_true, List.all_eq_true] at hs
      simp only [steps, children, form, Form.children, List.forall_mem_cons,
        List.forall_mem_append] at step
      obtain ⟨inTarget, inIterable, inBody, inElse⟩ := step
      simp [Flow.isStructured, Flow.courses, inTarget inLoop hs.1.1.2, inIterable inLoop hs.1.1.1,
        runsAs_sequence inBody hs.1.2, runsAs_sequence inElse hs.2]

theorem clauseFlow_runsAs (hn : n.isClause = true)
    (ih : ∀ c ∈ n.children, c.placedFlow.RunsAs c) : (n.clauseFlow false).RunsAs n := by
  obtain ⟨target, iterable, conditions, isAsync, hform⟩ :=
    exists_clause (isClause_eq_true_iff.1 hn)
  have parts : ∀ c ∈ target :: iterable :: conditions, c.flow.RunsAs c := fun c hc =>
    flow_runsAs (isGrammatical.fits h) (k := .expression) (by simp [hform, Form.fields]) (by simp)
      hc (ih c (by simpa [children, hform, Form.children] using hc))
  simp only [List.forall_mem_cons] at parts
  obtain ⟨inTarget, inIterable, inConditions⟩ := parts
  rw [clauseFlow_eq hform]
  refine RunsAs.around (by simp [isName, hform]) fun inLoop hs => ?_
  cases n with
  | mk i s f =>
    subst hform
    rw [isStructured.eq_def] at hs
    rw [courses.eq_def]
    simp only [all_isStructured_attach, List.all_eq_true, steps, form, List.forall_mem_cons] at hs
    simp [Flow.isStructured, Flow.courses, inIterable inLoop hs.1, inTarget inLoop hs.2.1,
      runsAs_sequence inConditions hs.2.2, steps, form]

/-- The flow of a node takes the courses of the node. -/
theorem placedFlow_runsAs : n.placedFlow.RunsAs n := by
  induction n, h using induct_parts with
  | step n h ih =>
    have part {c : Node} (hc : c ∈ n.inPlace) : c.placedFlow.RunsAs c :=
      ih c (List.mem_append_left _ hc)
    by_cases hclause : n.isClause = true
    · rw [placedFlow, if_pos hclause]
      refine clauseFlow_runsAs h hclause fun c hc => part ?_
      rwa [inPlace_of_plain]
      cases hform : n.form <;> simp_all [isClause, isFunctionLike, Form.isFunctionLike]
    rw [placedFlow, if_neg hclause, flow_eq]
    rw [Bool.not_eq_true] at hclause
    by_cases hname : n.isName = true
    · intro inLoop _
      cases n with
      | mk i s f =>
        cases f
        case name =>
          rw [innerFlow.eq_def, courses.eq_def]
          simp [Flow.isStructured, Flow.courses, Flow.sequence, children, form, Form.children, isName]
        all_goals simp [isName, form] at hname
    rw [Bool.not_eq_true] at hname
    exact RunsAs.around hname (innerFlow_runsAs h hname hclause fun c hc => part hc)

end Grammatical

/-- The courses through the code that a node runs in a path of its own: the body of a function, or
the node itself. -/
def ownCourses (n : Node) : Courses :=
  if n.isFunctionLike then .all (n.ownCode.map courses) else n.courses

/-- Whether the code that a node runs in a path of its own is structured. -/
def runsStructured (n : Node) : Bool :=
  if n.isFunctionLike then n.ownCode.all (isStructured false) else n.isStructured false

theorem bodyFlow_runs (h : n.isGrammatical = true) (hf : n.isFunctionLike = true)
    (hs : ∀ c ∈ n.ownCode, c.isStructured false = true) :
    n.bodyFlow.isStructured false = true ∧ n.bodyFlow.courses = .all (n.ownCode.map courses) := by
  have part {c : Node} (hc : c ∈ n.ownCode) : c.placedFlow.RunsAs c :=
    placedFlow_runsAs (isGrammatical_of_part h (List.mem_append_right _ hc))
  have fits := isGrammatical.fits h
  rcases isFunctionLike_cases hf with ⟨isAsync, name, parameters, body, decorators, returns, hn⟩ |
    ⟨parameters, body, hn⟩ | ⟨elements, clauses, hn⟩
  · have inBody : ∀ c ∈ body, c.flow.RunsAs c := fun c hc =>
      flow_runsAs fits (l := body) (k := .statement) (by simp [hn, Form.fields]) (by simp) hc
        (part (by simpa [ownCode, hn] using hc))
    rw [bodyFlow_function hn]
    simp only [ownCode, hn] at hs ⊢
    exact runsAs_sequence inBody hs
  · have inBody : body.flow.RunsAs body :=
      flow_runsAs fits (l := [body]) (k := .expression) (by simp [hn, Form.fields]) (by simp)
        (by simp) (part (by simp [ownCode, hn]))
    simp only [ownCode, hn, List.mem_singleton, forall_eq] at hs
    rw [bodyFlow_lambda hn]
    simpa [ownCode, hn] using inBody false hs
  · obtain ⟨first, rest, target, iterable, conditions, isAsync, rfl, hfirst⟩ := exists_first h hn
    have own : n.ownCode = target :: conditions ++ rest ++ elements := by
      simp [ownCode, hn, turn, hfirst]
    have inner := isGrammatical.fits (isGrammatical_child h (c := first)
      (by simp [children, hn, Form.children]))
    rw [own] at part hs ⊢
    simp only [List.mem_append] at part
    have inTurn : ∀ c ∈ target :: conditions, c.flow.RunsAs c := fun c hc =>
      flow_runsAs inner (l := target :: iterable :: conditions) (k := .expression)
        (by simp [hfirst, Form.fields]) (by simp) (by simp only [List.mem_cons] at hc ⊢; tauto)
        (part (.inl (.inl hc)))
    have inRest : ∀ c ∈ rest, (c.clauseFlow false).RunsAs c := fun c hc =>
      clauseFlow_runsAs_of_field fits (l := first :: rest) (by simp [hn, Form.fields])
        (List.mem_cons_of_mem _ hc) (part (.inl (.inr hc)))
    have inElements : ∀ c ∈ elements, c.flow.RunsAs c := fun c hc =>
      flow_runsAs fits (l := elements) (k := .expression) (by simp [hn, Form.fields]) (by simp) hc
        (part (.inr hc))
    have name : first.isName = false := by simp [isName, hfirst]
    simp only [List.forall_mem_append] at hs
    have turn := runsAs_sequence inTurn hs.1.1
    simp only [List.map_cons, Flow.sequence, Flow.isStructured, Flow.courses, Bool.and_eq_true] at turn
    rw [bodyFlow_generator hn]
    simp [clauseFlow_eq hfirst, Flow.isStructured, Flow.courses, name, turn,
      runsAs_sequence inRest hs.1.2, runsAs_sequence inElements hs.2, all_append, andThen_assoc]

/-- The flow of a program takes the courses of the program. -/
theorem programFlow_runs (h : n.isGrammatical = true) (hc : n.isClause = false)
    (hs : n.runsStructured = true) :
    n.programFlow.isStructured false = true ∧ n.programFlow.courses = n.ownCourses := by
  unfold runsStructured at hs
  unfold programFlow ownCourses
  split_ifs at hs ⊢ with hf
  · exact bodyFlow_runs h hf (List.all_eq_true.1 hs)
  · have runs := placedFlow_runsAs h
    rw [placedFlow, hc] at runs
    exact runs false hs

end RunsAs

end Node

end LostUpdate
