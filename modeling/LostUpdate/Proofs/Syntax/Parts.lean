import LostUpdate.Proofs.Syntax.Grammar
import LostUpdate.Proofs.Syntax.Identity
import LostUpdate.Syntax.Heading

namespace LostUpdate.Node

/-- Parameter lists and parameters, which have parts but are nothing that runs. -/
def isSignature (n : Node) : Bool :=
  match n.form with
  | .parameterList .. | .parameter .. => true
  | _ => false

def isClause (n : Node) : Bool :=
  match n.form with
  | .clause .. => true
  | _ => false

def isName (n : Node) : Bool :=
  match n.form with
  | .name .. => true
  | _ => false

def parameters (n : Node) : List Node :=
  match n.form with
  | .parameterList p => p.declared
  | _ => []

/-- What one `for` part of a comprehension does for each element of its iterable. -/
def turn (n : Node) : List Node :=
  match n.form with
  | .clause target _ conditions _ => target :: conditions
  | _ => []

/-- The parts that run where the node stands. -/
def inPlace (n : Node) : List Node := if n.isFunctionLike then n.heading else n.children

/-- The parts that run in the node's own code path. -/
def ownCode (n : Node) : List Node :=
  match n.form with
  | .function _ _ _ body _ _ => body
  | .lambda _ body => [body]
  | .comprehension .generator elements clauses =>
    clauses.head?.toList.flatMap turn ++ clauses.tail ++ elements
  | _ => []

def signature (n : Node) : List Node :=
  match n.form with
  | .function _ _ parameters .. | .lambda parameters _ => parameters :: parameters.parameters
  | _ => []

/-- The clause of a generator expression whose iterable runs in place and the rest apart. -/
def firstClause (n : Node) : List Node :=
  match n.form with
  | .comprehension .generator _ clauses => clauses.head?.toList
  | _ => []

/-- The nodes between a function and its parts. -/
def framing (n : Node) : List Node := n.signature ++ n.firstClause

theorem mem_children_of_mem_turn {n c : Node} (h : c ∈ n.turn) : c ∈ n.children := by
  cases n with
  | mk i s f =>
    cases f
    case clause target iterable conditions isAsync =>
      simp only [turn, children, form, Form.children, List.mem_cons] at h ⊢
      rcases h with rfl | h
      · exact .inl rfl
      · exact .inr (.inr h)
    all_goals simp [turn, form] at h

theorem inPlace_of_plain {n : Node} (h : n.isFunctionLike = false) : n.inPlace = n.children := by
  simp [inPlace, h]

theorem ownCode_of_plain {n : Node} (h : n.isFunctionLike = false) : n.ownCode = [] := by
  cases n with
  | mk i s f =>
    cases f
    case comprehension collector elements clauses =>
      cases collector <;> simp_all [ownCode, form, isFunctionLike, Form.isFunctionLike]
    all_goals simp_all [ownCode, form, isFunctionLike, Form.isFunctionLike]

theorem framing_of_plain {n : Node} (h : n.isFunctionLike = false) : n.framing = [] := by
  cases n with
  | mk i s f =>
    cases f
    case comprehension collector elements clauses =>
      cases collector <;>
        simp_all [framing, signature, firstClause, form, isFunctionLike, Form.isFunctionLike]
    all_goals
      simp_all [framing, signature, firstClause, form, isFunctionLike, Form.isFunctionLike]

section Category

variable {n c : Node}

theorem exists_parameterList (h : c.form.category = .parameterList) :
    ∃ p, c.form = .parameterList p := by
  cases c with
  | mk i s f => cases f <;> simp_all [form, Form.category, Form.isExpression]

theorem exists_parameter (h : c.form.category = .parameter) : ∃ x hint, c.form = .parameter x hint := by
  cases c with
  | mk i s f => cases f <;> simp_all [form, Form.category, Form.isExpression]

theorem exists_clause (h : c.form.category = .clause) :
    ∃ target iterable conditions isAsync, c.form = .clause target iterable conditions isAsync := by
  cases c with
  | mk i s f => cases f <;> simp_all [form, Form.category, Form.isExpression]

theorem isClause_eq_true_iff : c.isClause = true ↔ c.form.category = .clause := by
  cases c with
  | mk i s f => cases f <;> simp [form, Form.category, isClause, Form.isExpression]

end Category

theorem isFunctionLike_cases {n : Node} (h : n.isFunctionLike = true) :
    (∃ isAsync name parameters body decorators returns,
      n.form = .function isAsync name parameters body decorators returns) ∨
    (∃ parameters body, n.form = .lambda parameters body) ∨
    ∃ elements clauses, n.form = .comprehension .generator elements clauses := by
  cases n with
  | mk i s f =>
    cases f
    case comprehension collector elements clauses =>
      cases collector <;> simp_all [form, isFunctionLike, Form.isFunctionLike]
    all_goals simp_all [form, isFunctionLike, Form.isFunctionLike]

theorem mem_preorder_of_below {n c : Node} (hc : c ∈ n.children.flatMap preorder) :
    c ∈ n.preorder := by
  rw [preorder_eq]
  exact List.mem_cons_of_mem _ hc

/-- A part of a function is a child of the function or of a node that holds the parts together. -/
theorem exists_parent {n c : Node} (hf : n.isFunctionLike = true)
    (hc : c ∈ n.inPlace ++ n.ownCode) : ∃ q, (q = n ∨ q ∈ n.framing) ∧ c ∈ q.children := by
  have child (h : c ∈ n.children) : ∃ q, (q = n ∨ q ∈ n.framing) ∧ c ∈ q.children :=
    ⟨n, .inl rfl, h⟩
  have part {parameters : Node} (hframing : parameters :: parameters.parameters = n.framing)
      (h : c ∈ parameters.parameterParts) : ∃ q, (q = n ∨ q ∈ n.framing) ∧ c ∈ q.children := by
    cases hp : parameters.form
    case parameterList p =>
      simp only [parameterParts, hp, List.mem_append, List.mem_flatMap] at h
      rcases h with h | ⟨q, hq, h⟩
      · refine ⟨parameters, .inr (hframing ▸ List.mem_cons_self), ?_⟩
        simpa [children, hp, Form.children] using Parameters.mem_children_of_mem_defaultValues h
      · refine ⟨q, .inr (hframing ▸ List.mem_cons_of_mem _ ?_), mem_children_of_mem_hint h⟩
        simpa [Node.parameters, hp] using hq
    all_goals simp [parameterParts, hp] at h
  rw [inPlace, if_pos hf, List.mem_append] at hc
  rcases isFunctionLike_cases hf with ⟨isAsync, name, parameters, body, decorators, returns, hn⟩ |
    ⟨parameters, body, hn⟩ | ⟨elements, clauses, hn⟩
  · simp only [heading, ownCode, hn, List.mem_append] at hc
    rcases hc with ((h | h) | h) | h
    · exact child (by simp [children, hn, Form.children, h])
    · exact part (by simp [framing, signature, firstClause, hn]) h
    · exact child (by simp_all [children, Form.children])
    · exact child (by simp [children, hn, Form.children, h])
  · simp only [heading, ownCode, hn, List.mem_singleton] at hc
    rcases hc with h | rfl
    · exact part (by simp [framing, signature, firstClause, hn]) h
    · exact child (by simp [children, hn, Form.children])
  · simp only [heading, ownCode, hn, List.mem_append, List.mem_flatMap] at hc
    rcases hc with ⟨q, hq, h⟩ | (⟨q, hq, h⟩ | h) | h
    · exact ⟨q, .inr (by simpa [framing, signature, firstClause, hn] using hq),
        mem_children_of_mem_iterable h⟩
    · exact ⟨q, .inr (by simpa [framing, signature, firstClause, hn] using hq),
        mem_children_of_mem_turn h⟩
    · exact child (by simp [children, hn, Form.children, List.mem_of_mem_tail h])
    · exact child (by simp [children, hn, Form.children, h])

section Grammatical

variable {n c q : Node} (h : n.isGrammatical = true)

include h

/-- The nodes of a parameter list: itself, the parameters, and what is below its parts. -/
theorem preorder_parameterList (hn : n.form.category = .parameterList) :
    n.preorder.Perm (n :: n.parameters ++ n.parameterParts.flatMap preorder) := by
  obtain ⟨p, hp⟩ := exists_parameterList hn
  have declared : ∀ l : List Node, (∀ c ∈ l, c ∈ p.declared) →
      (l.flatMap preorder).Perm (l ++ (l.flatMap hint).flatMap preorder) := by
    intro l hl
    induction l with
    | nil => simp
    | cons c l ih =>
      have later := ih fun d hd => hl d (List.mem_cons_of_mem _ hd)
      have category : c.form.category = .parameter := by
        have hc := hl c List.mem_cons_self
        have fits := isGrammatical.fits h
        simp only [Parameters.declared, List.mem_append] at hc
        rcases hc with (((hc | hc) | hc) | hc) | hc
        all_goals exact category_of_fits fits (by rw [hp, Form.fields]; simp) hc
      obtain ⟨x, annotation, hform⟩ := exists_parameter category
      have inner : c.preorder = c :: c.hint.flatMap preorder := by
        rw [preorder_eq]
        simp [children, hint, hform, Form.children]
      simp only [List.flatMap_cons, List.flatMap_append, inner, List.cons_append]
      refine List.Perm.cons _ ?_
      exact (later.append_left _).trans (List.perm_append_comm_assoc _ _ _)
  have parts : (p.children.flatMap preorder).Perm
      (p.declared.flatMap preorder ++ p.defaultValues.flatMap preorder) := by
    classical
    rw [List.perm_iff_count]
    intro q
    simp only [Parameters.children, Parameters.declared, Parameters.defaultValues,
      List.flatMap_append, List.count_append]
    omega
  rw [preorder_eq]
  simp only [children, hp, Form.children, parameters, parameterParts, List.cons_append,
    List.flatMap_append]
  refine List.Perm.cons _ (parts.trans ?_)
  have named := (declared p.declared fun _ hc => hc).append_right (p.defaultValues.flatMap preorder)
  refine named.trans ?_
  rw [List.append_assoc]
  exact List.Perm.append_left _ List.perm_append_comm

/-- A generator expression has a first clause, which is one. -/
theorem exists_first {elements clauses : List Node}
    {collector : Collector} (hn : n.form = .comprehension collector elements clauses) :
    ∃ first rest target iterable conditions isAsync, clauses = first :: rest ∧
      first.form = .clause target iterable conditions isAsync := by
  have fits := isGrammatical.fits h
  have complete : n.isComplete = true := (Bool.and_eq_true_iff.1 fits).1
  cases clauses with
  | nil => simp [isComplete, hn] at complete
  | cons first rest =>
    have category : first.form.category = .clause :=
      category_of_fits fits (by rw [hn, Form.fields]; simp; rfl) List.mem_cons_self
    obtain ⟨target, iterable, conditions, isAsync, hform⟩ := exists_clause category
    exact ⟨first, rest, target, iterable, conditions, isAsync, rfl, hform⟩

/-- The nodes of a tree: the node, those that hold its parts together, and those of its parts. -/
theorem preorder_parts :
    n.preorder.Perm (n :: n.framing ++ (n.inPlace ++ n.ownCode).flatMap preorder) := by
  by_cases hf : n.isFunctionLike = true
  · rw [preorder_eq, inPlace, if_pos hf, List.cons_append]
    refine List.Perm.cons _ ?_
    have held {p : Node} (hc : p ∈ n.children) (hl : (.parameterList, [p]) ∈ n.form.fields) :=
      preorder_parameterList (isGrammatical_child h hc)
        (category_of_fits (isGrammatical.fits h) hl List.mem_cons_self)
    classical
    rw [List.perm_iff_count]
    intro q
    rcases isFunctionLike_cases hf with ⟨isAsync, name, parameters, body, decorators, returns, hn⟩ |
      ⟨parameters, body, hn⟩ | ⟨elements, clauses, hn⟩
    · have inner := List.perm_iff_count.1 (held (p := parameters)
        (by simp [children, hn, Form.children]) (by simp [hn, Form.fields])) q
      simp only [children, hn, Form.children, framing, signature, firstClause, heading, ownCode,
        List.flatMap_cons, List.flatMap_append, List.cons_append, List.append_nil,
        List.count_cons, List.count_append] at inner ⊢
      omega
    · have inner := List.perm_iff_count.1 (held (p := parameters)
        (by simp [children, hn, Form.children]) (by simp [hn, Form.fields])) q
      simp only [children, hn, Form.children, framing, signature, firstClause, heading, ownCode,
        List.flatMap_cons, List.flatMap_nil, List.flatMap_append, List.cons_append, List.append_nil,
        List.count_cons, List.count_append] at inner ⊢
      omega
    · obtain ⟨first, rest, target, iterable, conditions, isAsync, rfl, hfirst⟩ := exists_first h hn
      have inner : first.preorder = first :: (target :: iterable :: conditions).flatMap preorder := by
        rw [preorder_eq first]
        simp [children, hfirst, Form.children]
      simp only [children, hn, Form.children, framing, signature, firstClause, heading, ownCode,
        Node.iterable, turn, hfirst, inner,
        List.head?_cons, Option.toList_some, List.tail_cons, List.flatMap_cons,
        List.flatMap_nil, List.flatMap_append, List.cons_append, List.nil_append, List.append_nil,
        List.count_cons, List.count_append]
      omega
  · rw [Bool.not_eq_true] at hf
    rw [inPlace_of_plain hf, ownCode_of_plain hf, framing_of_plain hf, preorder_eq]
    simp

theorem below_parts :
    (n.children.flatMap preorder).Perm (n.framing ++ (n.inPlace ++ n.ownCode).flatMap preorder) := by
  have parts := preorder_parts h
  rw [preorder_eq] at parts
  exact parts.cons_inv

theorem mem_below_of_part (hc : c ∈ n.inPlace ++ n.ownCode) :
    c ∈ n.children.flatMap preorder := by
  rw [(below_parts h).mem_iff, List.mem_append]
  exact .inr (List.mem_flatMap.2 ⟨c, hc, c.mem_preorder_self⟩)

theorem mem_preorder_of_part (hc : c ∈ n.inPlace ++ n.ownCode) : c ∈ n.preorder :=
  mem_preorder_of_below (mem_below_of_part h hc)

theorem isGrammatical_of_part (hc : c ∈ n.inPlace ++ n.ownCode) : c.isGrammatical = true :=
  isGrammatical_of_mem h (mem_preorder_of_part h hc)

theorem mem_preorder_of_framing (hq : q ∈ n.framing) : q ∈ n.preorder := by
  refine mem_preorder_of_below ?_
  rw [(below_parts h).mem_iff]
  exact List.mem_append_left _ hq

theorem isSignature_of_signature (hq : q ∈ n.signature) : q.isSignature = true := by
  have held {a : Node} (hl : (.parameterList, [a]) ∈ n.form.fields)
      (hc : a ∈ n.children) (hq : q ∈ a :: a.parameters) : q.isSignature = true := by
    have fits := isGrammatical.fits h
    obtain ⟨p, hp⟩ := exists_parameterList (category_of_fits fits hl List.mem_cons_self)
    rcases List.mem_cons.1 hq with rfl | hq
    · simp [isSignature, hp]
    · have inner := isGrammatical.fits (isGrammatical_child h hc)
      have category : q.form.category = .parameter := by
        simp only [Node.parameters, hp, Parameters.declared, List.mem_append] at hq
        rcases hq with (((hq | hq) | hq) | hq) | hq
        all_goals exact category_of_fits inner (by rw [hp, Form.fields]; simp) hq
      obtain ⟨x, annotation, hform⟩ := exists_parameter category
      simp [isSignature, hform]
  cases hn : n.form
  case function isAsync name parameters body decorators returns =>
    exact held (a := parameters) (by simp [hn, Form.fields])
      (by simp [children, hn, Form.children]) (by simpa [signature, hn] using hq)
  case lambda parameters body =>
    exact held (a := parameters) (by simp [hn, Form.fields])
      (by simp [children, hn, Form.children]) (by simpa [signature, hn] using hq)
  all_goals simp [signature, hn] at hq

theorem isClause_of_firstClause (hq : q ∈ n.firstClause) : q.isClause = true := by
  cases hn : n.form
  case comprehension collector elements clauses =>
    cases collector
    case generator =>
      refine isClause_eq_true_iff.2 (category_of_fits (isGrammatical.fits h) (l := clauses)
        (by simp [hn, Form.fields]) ?_)
      simp only [firstClause, hn, Option.mem_toList] at hq
      exact List.mem_of_head? hq
    all_goals simp [firstClause, hn] at hq
  all_goals simp [firstClause, hn] at hq

/-- Between a function and its parts there are only parameter lists, parameters and clauses. -/
theorem framing_cases (hq : q ∈ n.framing) :
    q.isSignature = true ∨ q.isClause = true :=
  (List.mem_append.1 hq).imp (isSignature_of_signature h) (isClause_of_firstClause h)

theorem category_of_child (hc : c ∈ n.children) :
    ∃ l, (c.form.category, l) ∈ n.form.fields ∧ c ∈ l := by
  rw [children, ← Form.flatMap_fields, List.mem_flatMap] at hc
  obtain ⟨⟨k, l⟩, hl, hc⟩ := hc
  obtain rfl := category_of_fits (isGrammatical.fits h) hl hc
  exact ⟨l, hl, hc⟩

theorem exists_comprehension (hc : c ∈ n.children)
    (hclause : c.isClause = true) :
    ∃ collector elements clauses, n.form = .comprehension collector elements clauses := by
  obtain ⟨l, hl, -⟩ := category_of_child h hc
  rw [isClause_eq_true_iff.1 hclause] at hl
  generalize hform : n.form = f at hl
  cases f <;> simp_all [Form.fields]

theorem category_of_parameterPart (hn : n.form.category = .parameterList)
    (hc : c ∈ n.parameterParts) : c.form.category = .expression := by
  obtain ⟨p, hp⟩ := exists_parameterList hn
  have fits := isGrammatical.fits h
  simp only [parameterParts, hp, Parameters.defaultValues, List.mem_append, List.mem_flatMap] at hc
  rcases hc with (hc | hc) | ⟨q, hq, hc⟩
  · exact category_of_fits fits (by rw [hp, Form.fields]; simp) hc
  · exact category_of_fits fits (by rw [hp, Form.fields]; simp) hc
  · have below : q ∈ n.children := by
      simpa [children, hp, Form.children] using Parameters.mem_children_of_mem_declared hq
    cases hform : q.form
    case parameter x annotation =>
      simp only [hint, hform] at hc
      exact category_of_fits (isGrammatical.fits (isGrammatical_child h below))
        (by rw [hform, Form.fields]; simp) hc
    all_goals simp [hint, hform] at hc

theorem category_of_heading (hf : n.isFunctionLike = true) (hc : c ∈ n.heading) :
    c.form.category = .expression := by
  have fits := isGrammatical.fits h
  have part {p : Node} (hl : (.parameterList, [p]) ∈ n.form.fields)
      (hp : p ∈ n.children) (hc : c ∈ p.parameterParts) :
      c.form.category = .expression :=
    category_of_parameterPart (isGrammatical_child h hp)
      (category_of_fits fits hl List.mem_cons_self) hc
  rcases isFunctionLike_cases hf with ⟨isAsync, name, parameters, body, decorators, returns, hn⟩ |
    ⟨parameters, body, hn⟩ | ⟨elements, clauses, hn⟩
  · simp only [heading, hn, List.mem_append] at hc
    rcases hc with (hc | hc) | hc
    · exact category_of_fits fits (by rw [hn, Form.fields]; simp) hc
    · exact part (p := parameters) (by simp [hn, Form.fields])
        (by simp [children, hn, Form.children]) hc
    · exact category_of_fits fits (by rw [hn, Form.fields]; simp) hc
  · simp only [heading, hn] at hc
    exact part (p := parameters) (by simp [hn, Form.fields])
      (by simp [children, hn, Form.children]) hc
  · obtain ⟨first, rest, target, iterable, conditions, isAsync, rfl, hfirst⟩ := exists_first h hn
    have inner := isGrammatical.fits (isGrammatical_child h (c := first)
      (by simp [children, hn, Form.children]))
    simp only [heading, hn, Node.iterable, hfirst, List.head?_cons, Option.toList_some,
      List.flatMap_cons, List.flatMap_nil, List.append_nil, List.mem_singleton] at hc
    obtain rfl := hc
    exact category_of_fits inner (l := target :: c :: conditions)
      (by simp [hfirst, Form.fields]) (by simp)

end Grammatical

/-- Whatever passes from the parts of a node to the node holds of every node that keeps to the
grammar. -/
@[elab_as_elim]
theorem induct_parts {motive : ∀ n : Node, n.isGrammatical = true → Prop}
    (step : ∀ n (h : n.isGrammatical = true), (∀ c (hc : c ∈ n.inPlace ++ n.ownCode),
      motive c (isGrammatical_of_part h hc)) → motive n h) (n : Node)
    (h : n.isGrammatical = true) : motive n h := by
  induction n using induct_below with
  | step n ih => exact step n h fun c hc => ih c (mem_below_of_part h hc) _

end LostUpdate.Node
