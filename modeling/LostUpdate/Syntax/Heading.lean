import LostUpdate.Syntax.Node

namespace LostUpdate.Node

/-- The names that a function's parameter list declares, with the node of each. -/
def declaredParameters (n : Node) : List (String × Node) :=
  match n.form with
  | .parameterList p => p.declared.filterMap fun q =>
    match q.form with
    | .parameter name _ => some (name, q)
    | _ => none
  | _ => []

/-- The annotation of a parameter, if it has one. -/
def hint (n : Node) : List Node :=
  match n.form with
  | .parameter _ a => a.toList
  | _ => []

/-- Default values, then annotations. -/
def parameterParts (n : Node) : List Node :=
  match n.form with
  | .parameterList p => p.defaultValues ++ p.declared.flatMap hint
  | _ => []

def iterable (n : Node) : List Node :=
  match n.form with
  | .clause _ iterable _ _ => [iterable]
  | _ => []

def heading (n : Node) : List Node :=
  match n.form with
  | .function _ _ parameters _ decorators returns =>
    decorators ++ parameters.parameterParts ++ returns.toList
  | .lambda parameters _ => parameters.parameterParts
  | .classDef _ bases keywords _ decorators => decorators ++ bases ++ keywords
  | .comprehension _ _ clauses => clauses.head?.toList.flatMap iterable
  | _ => []

theorem mem_children_of_mem_hint {n c : Node} (h : c ∈ n.hint) : c ∈ n.children := by
  cases n with
  | mk i s f =>
    cases f <;> simp_all [hint, children, form, Form.children]

theorem mem_children_of_mem_iterable {n c : Node} (h : c ∈ n.iterable) : c ∈ n.children := by
  cases n with
  | mk i s f =>
    cases f <;> simp_all [iterable, children, form, Form.children]

theorem sizeOf_lt_of_mem_parameterParts {n c : Node} (h : c ∈ n.parameterParts) :
    sizeOf c < sizeOf n := by
  cases n with
  | mk i s f =>
    cases f
    case parameterList p =>
      simp only [parameterParts, form, List.mem_append, List.mem_flatMap] at h
      rcases h with h | ⟨q, hq, hc⟩
      · exact sizeOf_lt_of_mem_children (Parameters.mem_children_of_mem_defaultValues h)
      · exact Nat.lt_trans (sizeOf_lt_of_mem_children (mem_children_of_mem_hint hc))
          (sizeOf_lt_of_mem_children (Parameters.mem_children_of_mem_declared hq))
    all_goals simp [parameterParts, form] at h

/-- Induction and recursion may pass from a node to its heading. -/
theorem sizeOf_lt_of_mem_heading {n c : Node} (h : c ∈ n.heading) : sizeOf c < sizeOf n := by
  have parameter {q : Node} (hq : q ∈ n.children) (hc : c ∈ q.parameterParts) :=
    Nat.lt_trans (sizeOf_lt_of_mem_parameterParts hc) (sizeOf_lt_of_mem_children hq)
  have first {q : Node} (hq : q ∈ n.children) (hc : c ∈ q.iterable) :=
    Nat.lt_trans (sizeOf_lt_of_mem_children (mem_children_of_mem_iterable hc))
      (sizeOf_lt_of_mem_children hq)
  cases n with
  | mk i s f =>
    cases f
    case function isAsync name parameters body decorators returns =>
      simp only [heading, form, List.mem_append] at h
      rcases h with (h | h) | h
      · exact sizeOf_lt_of_mem_children (by simp [children, form, Form.children, h])
      · exact parameter (by simp [children, form, Form.children]) h
      · exact sizeOf_lt_of_mem_children (by simp_all [children, form, Form.children])
    case lambda parameters body =>
      exact parameter (by simp [children, form, Form.children]) h
    case classDef name bases keywords body decorators =>
      simp only [heading, form, List.mem_append] at h
      refine sizeOf_lt_of_mem_children ?_
      rcases h with (h | h) | h <;> simp [children, form, Form.children, h]
    case comprehension collector elements clauses =>
      simp only [heading, form, List.mem_flatMap, Option.mem_toList] at h
      obtain ⟨q, hq, hc⟩ := h
      exact first (by simp [children, form, Form.children, List.mem_of_head? hq]) hc
    all_goals simp [heading, form] at h

end LostUpdate.Node
