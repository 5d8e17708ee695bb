import LostUpdate.Proofs.Scope.DirectiveShape
import LostUpdate.Proofs.Syntax.Identity
import LostUpdate.Reference.Chain
import Mathlib.Tactic.Tauto

namespace LostUpdate

namespace Node

/-- Forms through which a target passes a value on to what stands in it. -/
def passesOn (n : Node) : Bool :=
  match n.form with
  | .tuple .. | .list .. | .starred .. | .member .. | .subscript .. => true
  | _ => false

/-- `x` is the target, or stands in it below nothing but forms that pass values on. -/
inductive Reaches (x : Node) : Node → Prop
  | self : Reaches x x
  | step {n c : Node} : n.passesOn = true → c ∈ n.children → Reaches x c → Reaches x n

def targets (n : Node) : List Node :=
  match n.form with
  | .assign targets _ => targets
  | .augmented target .. | .annotated target .. | .walrus target _ => [target]
  | _ => []

/-- The assignment `n` stores `value` into a target in which `x` stands. -/
def Stores (n value x : Node) : Prop :=
  n.assignedValue? = some value ∧ ∃ target ∈ n.targets, Reaches x target

/-- An occurrence of a name in `n`, with the assignment in `n` that it serves. -/
structure Mentions (n : Node) (o : NameUse) : Prop where
  identifier : o.identifier ∈ n.preorder
  name : ∃ context, o.identifier.form = .name o.name context
  stored : ∀ v, o.value = some v → ∃ p ∈ n.preorder, p.Stores v o.identifier

/-- The scope of a block in `n`. It is that of a function if the block is one. -/
structure Opens (n : Node) (kind : ScopeKind) (block : Node) : Prop where
  mem : block ∈ n.preorder
  inner : kind ≠ .module
  function_iff : kind = .function ↔ block.isFunctionLike = true

/-- What the directives of `n` may be: their names and scopes are of nodes in `n`. -/
def Says (n : Node) : Directive → Prop
  | .use o => n.Mentions o
  | .openScope kind block => n.Opens kind block
  | _ => True

theorem Mentions.mono {n p : Node} {o : NameUse} (h : p.Mentions o) (hp : p ∈ n.preorder) :
    n.Mentions o := by
  refine ⟨mem_preorder_trans hp h.identifier, h.name, fun v hv => ?_⟩
  obtain ⟨q, hq, hs⟩ := h.stored v hv
  exact ⟨q, mem_preorder_trans hp hq, hs⟩

theorem Says.mono {n p : Node} {d : Directive} (h : p.Says d) (hp : p ∈ n.preorder) : n.Says d := by
  cases d with
  | use o => exact Mentions.mono h hp
  | openScope kind block => exact ⟨mem_preorder_trans hp h.mem, h.inner, h.function_iff⟩
  | _ => trivial

/-- An occurrence as a target, or in one, of an assignment of `value`. -/
def Fills (n : Node) (value : Option Node) (d : Directive) : Prop :=
  n.Says d ∨ ∃ o, d = .use o ∧ o.identifier ∈ n.preorder ∧
    (∃ context, o.identifier.form = .name o.name context) ∧ o.value = value ∧
      Reaches o.identifier n

theorem Fills.meant {n p : Node} {value : Option Node} {d : Directive} (h : n.Fills value d)
    (hn : n ∈ p.preorder) (hp : ∀ v, value = some v → p.assignedValue? = some v ∧ n ∈ p.targets) :
    p.Says d := by
  rcases h with h | ⟨o, rfl, hmem, hname, hvalue, hreach⟩
  · exact h.mono hn
  · refine ⟨mem_preorder_trans hn hmem, hname, fun v hv => ?_⟩
    obtain ⟨hv, htarget⟩ := hp v (hvalue.symm.trans hv)
    exact ⟨p, p.mem_preorder_self, hv, n, htarget, hreach⟩

theorem says_of_mem_bindName {n p : Node} {name : Option String} {d : Directive}
    (h : d ∈ bindName name p) : n.Says d := by
  unfold bindName at h
  cases name with
  | none => simp at h
  | some x =>
    dsimp only at h
    split_ifs at h
    · simp at h
    · obtain rfl := List.mem_singleton.1 h
      trivial

theorem mem_below_of_mem_children {n c : Node} (hc : c ∈ n.children) :
    c ∈ n.children.flatMap preorder :=
  List.mem_flatMap.2 ⟨c, hc, c.mem_preorder_self⟩

theorem mem_below_trans {n c d : Node} (hc : c ∈ n.children) (hd : d ∈ c.children) :
    d ∈ n.children.flatMap preorder :=
  List.mem_flatMap.2 ⟨c, hc, mem_preorder_of_mem_children hd⟩

theorem mem_below_of_mem_heading {n c : Node} (hc : c ∈ n.heading) :
    c ∈ n.children.flatMap preorder := by
  have part {q : Node} (hq : q ∈ n.children) (hc : c ∈ q.parameterParts) :
      c ∈ n.children.flatMap preorder := by
    cases hform : q.form
    case parameterList p =>
      simp only [parameterParts, hform, List.mem_append, List.mem_flatMap] at hc
      rcases hc with hc | ⟨r, hr, hc⟩
      · exact mem_below_trans hq (by
          simpa [children, hform, Form.children] using Parameters.mem_children_of_mem_defaultValues hc)
      · have below : r ∈ q.children := by
          simpa [children, hform, Form.children] using Parameters.mem_children_of_mem_declared hr
        exact List.mem_flatMap.2 ⟨q, hq, mem_preorder_trans (mem_preorder_of_mem_children below)
          (mem_preorder_of_mem_children (mem_children_of_mem_hint hc))⟩
    all_goals simp [parameterParts, hform] at hc
  cases hform : n.form
  case function isAsync name parameters body decorators returns =>
    simp only [heading, hform, List.mem_append] at hc
    rcases hc with (hc | hc) | hc
    · exact mem_below_of_mem_children (by simp [children, hform, Form.children, hc])
    · exact part (by simp [children, hform, Form.children]) hc
    · exact mem_below_of_mem_children (by simp_all [children, Form.children])
  case lambda parameters body =>
    simp only [heading, hform] at hc
    exact part (by simp [children, hform, Form.children]) hc
  case classDef name bases keywords body decorators =>
    simp only [heading, hform, List.mem_append] at hc
    refine mem_below_of_mem_children ?_
    simp only [children, hform, Form.children, List.mem_append]
    tauto
  case comprehension collector elements clauses =>
    simp only [heading, hform, List.mem_flatMap, Option.mem_toList] at hc
    obtain ⟨q, hq, hc⟩ := hc
    exact mem_below_trans (by simp [children, hform, Form.children, List.mem_of_head? hq])
      (mem_children_of_mem_iterable hc)
  all_goals simp [heading, hform] at hc

/-- What `n` says is about names and scopes of its own nodes, whether it stands for itself, as a target
or as a clause. -/
structure KeepsToOwn (n : Node) : Prop where
  whole : ∀ d ∈ n.directives, n.Says d
  target : ∀ value isRead, ∀ d ∈ n.storeDirectives value isRead, n.Fills value d
  clause : ∀ skips, ∀ d ∈ n.clauseDirectives skips, n.Says d

theorem says_openScope {n : Node} {kind : ScopeKind} (hkind : kind ≠ .module)
    (hn : kind = .function ↔ n.isFunctionLike = true) : n.Says (.openScope kind n) :=
  ⟨n.mem_preorder_self, hkind, hn⟩

section Parts

variable {n : Node} {d : Directive} (ih : ∀ c ∈ n.children.flatMap preorder, c.KeepsToOwn)

include ih

theorem says_below {c : Node} (hc : c ∈ n.children.flatMap preorder) (hd : d ∈ c.directives) :
    n.Says d := by
  refine ((ih c hc).whole d hd).mono ?_
  rw [preorder_eq]
  exact List.mem_cons_of_mem _ hc

theorem says_child {c : Node} (hc : c ∈ n.children) (hd : d ∈ c.directives) : n.Says d :=
  says_below ih (mem_below_of_mem_children hc) hd

theorem says_flatMap {l : List Node} (hl : ∀ c ∈ l, c ∈ n.children)
    (hd : d ∈ l.flatMap directives) : n.Says d := by
  obtain ⟨c, hc, hd⟩ := List.mem_flatMap.1 hd
  exact says_child ih (hl c hc) hd

theorem says_heading (hd : d ∈ n.heading.flatMap directives) : n.Says d := by
  obtain ⟨c, hc, hd⟩ := List.mem_flatMap.1 hd
  exact says_below ih (mem_below_of_mem_heading hc) hd

theorem says_clause {c : Node} {skips : Bool} (hc : c ∈ n.children)
    (hd : d ∈ c.clauseDirectives skips) : n.Says d :=
  ((ih c (mem_below_of_mem_children hc)).clause skips d hd).mono (mem_preorder_of_mem_children hc)

/-- What a part says as a target is so if the value is that of an assignment to the part. -/
theorem says_target {c : Node} {value : Option Node} {isRead : Bool} (hc : c ∈ n.children)
    (hp : ∀ v, value = some v → n.assignedValue? = some v ∧ c ∈ n.targets)
    (hd : d ∈ c.storeDirectives value isRead) : n.Says d :=
  ((ih c (mem_below_of_mem_children hc)).target value isRead d hd).meant
    (mem_preorder_of_mem_children hc) hp

theorem says_directives (hd : d ∈ n.directives) : n.Says d := by
  have below : n.children = n.form.children := rfl
  have named {x : String} {context : Context} (hn : n.form = .name x context)
      (isRead isWrite : Bool) : n.Mentions ⟨n, x, isRead, isWrite, none⟩ :=
    ⟨n.mem_preorder_self, ⟨context, hn⟩, by simp⟩
  have shape := n.directives_shape
  generalize n.directives = ds at shape hd
  cases shape with
  | quiet => exact says_flatMap ih (fun c hc => hc) hd
  | read hn =>
    obtain rfl := List.mem_singleton.1 hd
    exact named hn true false
  | stored hn =>
    simp only [List.mem_cons, List.not_mem_nil, or_false] at hd
    rcases hd with rfl | rfl
    · trivial
    · exact named hn false true
  | assign hn =>
    simp only [List.mem_append, List.mem_flatMap] at hd
    rcases hd with ⟨c, hc, hd⟩ | hd
    · refine says_target ih (by simp [below, hn, Form.children, hc]) ?_ hd
      rintro v ⟨⟩
      exact ⟨by simp [assignedValue?, hn], by simpa [targets, hn] using hc⟩
    · exact says_child ih (by simp [below, hn, Form.children]) hd
  | augmented hn =>
    rcases List.mem_append.1 hd with hd | hd
    · refine says_target ih (by simp [below, hn, Form.children]) ?_ hd
      rintro v ⟨⟩
      exact ⟨by simp [assignedValue?, hn], by simp [targets, hn]⟩
    · exact says_child ih (by simp [below, hn, Form.children]) hd
  | annotated hn =>
    simp only [List.mem_append] at hd
    rcases hd with (hd | hd) | hd
    · refine says_target ih (by simp [below, hn, Form.children]) ?_ hd
      rintro v ⟨⟩
      exact ⟨by simp [assignedValue?, hn], by simp [targets, hn]⟩
    · exact says_child ih (by simp [below, hn, Form.children]) hd
    · exact says_child ih (by simp [below, hn, Form.children]) hd
  | declared hn =>
    rcases List.mem_append.1 hd with hd | hd
    · obtain rfl := List.mem_singleton.1 hd
      trivial
    · exact says_child ih (by simp [below, hn, Form.children]) hd
  | hinted hn =>
    rcases List.mem_append.1 hd with hd | hd
    · exact says_child ih (by simp [below, hn, Form.children]) hd
    · exact says_child ih (by simp [below, hn, Form.children]) hd
  | @walrus target value x context hn ht =>
    simp only [List.mem_append, List.mem_cons, List.not_mem_nil, or_false] at hd
    rcases hd with (rfl | rfl) | hd
    · trivial
    · refine ⟨mem_preorder_of_mem_children (by simp [below, hn, Form.children]), ⟨context, ht⟩, ?_⟩
      rintro v ⟨⟩
      exact ⟨n, n.mem_preorder_self, by simp [assignedValue?, hn], target, by simp [targets, hn],
        .self⟩
    · exact says_child ih (by simp [below, hn, Form.children]) hd
  | bareWalrus hn => exact says_child ih (by simp [below, hn, Form.children]) hd
  | globalDecl | nonlocalDecl =>
    obtain rfl := List.mem_singleton.1 hd
    trivial
  | importStmt | importFrom =>
    obtain ⟨x, -, rfl⟩ := List.mem_map.1 hd
    trivial
  | capture before after hn parts =>
    simp only [List.mem_append] at hd
    rcases hd with (hd | hd) | hd
    · exact says_flatMap ih (fun c hc => by simp [parts, hc]) hd
    · exact says_of_mem_bindName hd
    · exact says_flatMap ih (fun c hc => by simp [parts, hc]) hd
  | function hn =>
    simp only [parameterDirectives, List.mem_append, List.mem_cons, List.not_mem_nil, or_false,
      List.mem_map] at hd
    rcases hd with (((hd | rfl | rfl) | ⟨p, -, rfl⟩) | hd) | rfl
    · exact says_heading ih hd
    · trivial
    · exact says_openScope (by simp) (by simp [isFunctionLike, hn, Form.isFunctionLike])
    · trivial
    · exact says_flatMap ih (fun c hc => by simp [below, hn, Form.children, hc]) hd
    · trivial
  | lambda hn =>
    simp only [parameterDirectives, List.mem_append, List.mem_cons, List.not_mem_nil, or_false,
      List.mem_map] at hd
    rcases hd with (((hd | rfl) | ⟨p, -, rfl⟩) | hd) | rfl
    · exact says_heading ih hd
    · exact says_openScope (by simp) (by simp [isFunctionLike, hn, Form.isFunctionLike])
    · trivial
    · exact says_child ih (by simp [below, hn, Form.children]) hd
    · trivial
  | classDef hn =>
    simp only [List.mem_append, List.mem_cons, List.not_mem_nil, or_false] at hd
    rcases hd with ((hd | rfl | rfl) | hd) | rfl
    · exact says_heading ih hd
    · trivial
    · exact says_openScope (by simp) (by simp [isFunctionLike, hn, Form.isFunctionLike])
    · exact says_flatMap ih (fun c hc => by simp [below, hn, Form.children, hc]) hd
    · trivial
  | @comprehension collector elements clauses hn =>
    have parts : n.children = elements ++ clauses := by simp [below, hn, Form.children]
    simp only [List.mem_append, List.mem_flatMap, List.mem_cons, List.not_mem_nil, or_false] at hd
    rcases hd with (((hd | rfl) | ⟨c, hc, hd⟩ | ⟨c, hc, hd⟩) | hd) | rfl
    · exact says_heading ih (List.mem_flatMap.2 hd)
    · apply says_openScope <;> cases collector <;>
        simp [collectorScope, isFunctionLike, hn, Form.isFunctionLike]
    · have inClauses := List.mem_of_head? (Option.mem_toList.1 hc)
      exact says_clause ih (by simp [parts, inClauses]) hd
    · exact says_clause ih (by simp [parts, List.mem_of_mem_tail hc]) hd
    · exact says_flatMap ih (fun c hc => by simp [parts, hc]) (List.mem_flatMap.2 hd)
    · trivial

/-- What a node says as a target fills it, or its parts if it is taken apart. -/
theorem fills_store {value : Option Node} {isRead : Bool}
    (hd : d ∈ n.storeDirectives value isRead) : n.Fills value d := by
  have element {c : Node} (hc : c ∈ n.children) (hp : n.passesOn = true)
      (hd : d ∈ c.storeDirectives value false) : n.Fills value d := by
    have inside := mem_preorder_of_mem_children hc
    rcases (ih c (mem_below_of_mem_children hc)).target value false d hd with
      h | ⟨o, rfl, hmem, hname, hvalue, hreach⟩
    · exact .inl (h.mono inside)
    · exact .inr ⟨o, rfl, mem_preorder_trans inside hmem, hname, hvalue, .step hp hc hreach⟩
  cases n with
  | mk i s f =>
    rw [storeDirectives.eq_def] at hd
    cases f
    case name x context =>
      simp only [List.mem_cons, List.not_mem_nil, or_false] at hd
      rcases hd with rfl | rfl
      · exact .inl trivial
      · exact .inr ⟨_, rfl, mem_preorder_self _, ⟨context, rfl⟩, rfl, .self⟩
    case tuple elements context =>
      obtain ⟨c, hc, hd⟩ := List.mem_flatMap.1 hd
      exact element hc rfl hd
    case list elements context =>
      obtain ⟨c, hc, hd⟩ := List.mem_flatMap.1 hd
      exact element hc rfl hd
    case starred inner context =>
      exact element (c := inner) (by simp [children, form, Form.children]) rfl hd
    all_goals exact .inl (says_directives ih hd)

theorem says_turn {skips : Bool} (hd : d ∈ n.clauseDirectives skips) : n.Says d := by
  cases n with
  | mk i s f =>
    rw [clauseDirectives.eq_def] at hd
    cases f
    case clause target iterable conditions isAsync =>
      simp only [List.mem_append] at hd
      rcases hd with (hd | hd) | hd
      · split_ifs at hd
        · simp at hd
        · exact says_child ih (c := iterable) (by simp [children, form, Form.children]) hd
      · exact says_target ih (c := target) (by simp [children, form, Form.children]) (by simp) hd
      · exact says_flatMap ih (fun c hc => by simp [children, form, Form.children, hc]) hd
    all_goals simp at hd

end Parts

theorem keepsToOwn (n : Node) : n.KeepsToOwn := by
  induction n using induct_below with
  | step n ih =>
    exact ⟨fun d => says_directives ih, fun value isRead d => fills_store ih,
      fun skips d => says_turn ih⟩

theorem says_of_mem {n : Node} {d : Directive} (h : d ∈ n.directives) : n.Says d :=
  n.keepsToOwn.whole d h

end Node

theorem Node.Reaches.trans {x y n : Node} (h : Reaches x y) (hy : Reaches y n) : Reaches x n := by
  induction hy with
  | self => exact h
  | step hn hc _ ih => exact .step hn hc ih

theorem Node.mem_preorder_of_reaches {x n : Node} (h : Reaches x n) : x ∈ n.preorder := by
  induction h with
  | self => exact x.mem_preorder_self
  | step _ hc _ ih => exact mem_preorder_child hc ih

theorem Node.mem_children_of_mem_targets {n c : Node} (h : c ∈ n.targets) : c ∈ n.children := by
  cases n with
  | mk i s f => cases f <;> simp_all [targets, children, form, Form.children]

theorem Node.mem_children_of_assignedValue? {n v : Node} (h : n.assignedValue? = some v) :
    v ∈ n.children := by
  cases hform : n.form <;> simp_all [assignedValue?, children, Form.children]

theorem Node.passesOn_of_mem_targets {n c : Node} (h : c ∈ n.targets) : n.passesOn = false := by
  cases n with
  | mk i s f => cases f <;> simp_all [targets, passesOn, form]

theorem Node.exists_target_of_assigns {n : Node} {i : NodeId} (h : n.assigns i = true) :
    ∃ c ∈ n.targets, c.id = i := by
  cases n with
  | mk j s f => cases f <;> simp_all [assigns, targets, form]

theorem Node.passesOn_of_chainKey? {n : Node} {i : NodeId} (h : (n.chainKey? i).isSome = true) :
    n.passesOn = true := by
  cases n with
  | mk j s f => cases f <;> simp_all [chainKey?, passesOn, form]

namespace Tree

variable {t : Tree}

/-- What is stored through a chain is stored by an assignment in whose target the chain stands. -/
theorem stores_of_chainValue? {x v : Node} (hx : x ∈ t.nodes)
    (h : LostUpdate.chainValue? x.id (t.ancestors x.id) = some v) :
    ∃ p ∈ t.nodes, p.Stores v x := by
  induction hl : (t.ancestors x.id).length generalizing x with
  | zero =>
    rw [List.length_eq_zero_iff.1 hl] at h
    simp [LostUpdate.chainValue?] at h
  | succ len ih =>
    cases hp : t.parent? x.id with
    | none =>
      rw [ancestors_of_none hp] at hl
      simp at hl
    | some p =>
      rw [ancestors_of_parent? hp] at h hl
      obtain ⟨hmem, hchild⟩ := (parent?_eq_some_iff hx).1 hp
      simp only [LostUpdate.chainValue?] at h
      split_ifs at h with hassigns hkey
      · obtain ⟨c, hc, hid⟩ := Node.exists_target_of_assigns hassigns
        have same : c = x := eq_of_id_eq
          (mem_nodes_of_mem_children hmem (Node.mem_children_of_mem_targets hc)) hx hid
        exact ⟨p, hmem, h, x, same ▸ hc, .self⟩
      · obtain ⟨q, hq, hv, target, htarget, hreach⟩ := ih hmem h (by simpa using hl)
        have passes := Node.passesOn_of_chainKey? hkey
        exact ⟨q, hq, hv, target, htarget, (Node.Reaches.step passes hchild .self).trans hreach⟩

/-- A stored value is stored by an assignment in whose target the name stands. -/
theorem stores_of_storedValue? {o : NameUse} {v : Node} (ho : t.root.Mentions o)
    (h : t.storedValue? o = some v) : ∃ p ∈ t.nodes, p.Stores v o.identifier := by
  cases hvalue : o.value with
  | some w =>
    obtain rfl : w = v := by simpa [storedValue?, hvalue] using h
    exact ho.stored w hvalue
  | none =>
    have hchain : t.chainValue? o = some v := by simpa [storedValue?, hvalue] using h
    exact stores_of_chainValue? ho.identifier hchain

/-- The climb to an assignment from a name in one of its targets passes that target last. -/
theorem targetIn?_of_reaches {o : NameUse} {p target : Node} (hp : p ∈ t.nodes)
    (htarget : target ∈ p.targets) (h : Node.Reaches o.identifier target) :
    t.targetIn? o p.id = some target := by
  have hchild := Node.mem_children_of_mem_targets htarget
  have climb {x n : Node} (h : Node.Reaches x n) (hn : n ∈ t.nodes)
      (hbelow : childBelow? p.id n (t.ancestors n.id) = some target) :
      childBelow? p.id x (t.ancestors x.id) = some target := by
    induction h with
    | self => exact hbelow
    | @step n c passes hc _ ih =>
      have other : n.id ≠ p.id := fun hid => by
        rw [eq_of_id_eq hn hp hid, Node.passesOn_of_mem_targets htarget] at passes
        simp at passes
      refine ih (mem_nodes_of_mem_children hn hc) ?_
      rw [ancestors_of_parent? (parent?_of_mem hn hc), childBelow?, if_neg other]
      exact hbelow
  refine climb h (mem_nodes_of_mem_children hp hchild) ?_
  rw [ancestors_of_parent? (parent?_of_mem hp hchild)]
  simp [childBelow?]

/-- An assignment knows in which of its targets a name stands. -/
theorem targetIn?_of_stores {o : NameUse} {p v : Node} (hp : p ∈ t.nodes)
    (hs : p.Stores v o.identifier) : ∃ target ∈ p.targets, Node.Reaches o.identifier target ∧
      t.targetIn? o p.id = some target := by
  obtain ⟨-, target, htarget, hreach⟩ := hs
  exact ⟨target, htarget, hreach, targetIn?_of_reaches hp htarget hreach⟩

end Tree

end LostUpdate
