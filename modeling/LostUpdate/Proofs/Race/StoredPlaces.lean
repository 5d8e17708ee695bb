import LostUpdate.Proofs.Race.Waiting
import LostUpdate.Proofs.Scope.Classification

namespace LostUpdate

namespace Node

/-- `x` is the place `q`, or the name at the head of the chain of attributes and subscripts `q`. -/
inductive Heads (x : Node) : Node → Prop
  | self : Heads x x
  | link {c q : Node} {key : String} : Heads x c → c ∈ q.children → q.chainKey? c.id = some key →
    Heads x q

theorem isLink_of_chainKey? {n : Node} {i : NodeId} {key : String} (h : n.chainKey? i = some key) :
    n.isLink = true := by
  cases hform : n.form <;> simp_all [chainKey?, isLink]

theorem no_target_of_isLink {n : Node} (h : n.isLink = true) :
    n.targets = [] ∧ n.unpacks = false := by
  cases hform : n.form <;> simp_all [isLink, targets, unpacks]

theorem assigns_of_targets_eq_nil {n : Node} (h : n.targets = []) (i : NodeId) :
    n.assigns i = false := by
  cases hform : n.form <;> simp_all [targets, assigns]

theorem chainKey?_of_unpacks {n : Node} (h : n.unpacks = true) (i : NodeId) :
    n.chainKey? i = none := by
  cases hform : n.form <;> simp_all [unpacks, chainKey?]

end Node

namespace Tree

variable {t : Tree} {x q p e target : Node}

/-- The climb from the head of a chain passes the whole chain. -/
theorem chainValue?_of_heads (hq : q ∈ t.nodes) (h : x.Heads q) :
    LostUpdate.chainValue? x.id (t.ancestors x.id) =
      LostUpdate.chainValue? q.id (t.ancestors q.id) := by
  induction h with
  | self => rfl
  | @link c q key _ hc hkey ih =>
    have link := Node.isLink_of_chainKey? hkey
    have apart := Node.assigns_of_targets_eq_nil (Node.no_target_of_isLink link).1 c.id
    rw [ih (mem_nodes_of_mem_children hq hc), ancestors_of_parent? (parent?_of_mem hq hc),
      LostUpdate.chainValue?, if_neg (by simp [apart]), if_pos (by simp [hkey])]

theorem chainValue?_of_assigns (hp : p ∈ t.nodes) (hq : q ∈ p.children)
    (assigns : p.assigns q.id = true) (he : p.assignedValue? = some e) :
    LostUpdate.chainValue? q.id (t.ancestors q.id) = some e := by
  rw [ancestors_of_parent? (parent?_of_mem hp hq), LostUpdate.chainValue?, if_pos assigns, he]

theorem chainValue?_of_element (ht : target ∈ t.nodes) (h : target.Element q) (hne : q ≠ target) :
    LostUpdate.chainValue? q.id (t.ancestors q.id) = none := by
  cases h with
  | self => exact absurd rfl hne
  | @step r q hr hu hq =>
    have mem := mem_nodes_trans ht (Node.mem_preorder_of_element hr)
    have apart := Node.assigns_of_targets_eq_nil (Node.targets_of_unpacks hu) q.id
    rw [ancestors_of_parent? (parent?_of_mem mem hq), LostUpdate.chainValue?,
      if_neg (by simp [apart]), if_neg (by simp [Node.chainKey?_of_unpacks hu])]

/-- The parent of a name at the head of a longer chain is a link of the chain. -/
theorem exists_link_of_heads (hq : q ∈ t.nodes) (h : x.Heads q) (hne : q ≠ x) :
    ∃ s ∈ t.nodes, x ∈ s.children ∧ s.isLink = true := by
  induction h with
  | self => exact absurd rfl hne
  | @link c q key _ hc hkey ih =>
    by_cases hcx : c = x
    · exact ⟨q, hq, hcx ▸ hc, Node.isLink_of_chainKey? hkey⟩
    · exact ih (mem_nodes_of_mem_children hq hc) hcx

/-- A value is stored into the name at the head of a longer chain only through the chain. -/
theorem Classifies.value_of_heads {o : NameUse} (h : t.Classifies o) (hq : q ∈ t.nodes)
    (hx : o.identifier.Heads q) (hne : q ≠ o.identifier) : o.value = none := by
  obtain ⟨s, hs, hchild, hlink⟩ := exists_link_of_heads hq hx hne
  obtain ⟨htargets, hunpacks⟩ := Node.no_target_of_isLink hlink
  refine Option.eq_none_iff_forall_ne_some.2 fun v hv => ?_
  have delivered := (h.value v).1 hv
  rw [delivers_iff hs hchild] at delivered
  simp [htargets, hunpacks] at delivered

/-- A target stores the value of its assignment, into the bare name or through the chain from the name
at its head. -/
theorem Classifies.storedValue?_of_assigns {o : NameUse} (h : t.Classifies o) (hp : p ∈ t.nodes)
    (hq : q ∈ p.targets) (assigns : p.assigns q.id = true) (he : p.assignedValue? = some e)
    (hx : o.identifier.Heads q) : t.storedValue? o = some e := by
  by_cases hbare : q = o.identifier
  · have delivered : p.Delivers e o.identifier := ⟨he, q, hq, hbare ▸ .self⟩
    simp [storedValue?, (h.value e).2 ⟨p, hp, delivered⟩]
  · have child := Node.mem_children_of_mem_targets hq
    have mem := mem_nodes_of_mem_children hp child
    rw [storedValue?, h.value_of_heads mem hx hbare, chainValue?, chainValue?_of_heads mem hx,
      chainValue?_of_assigns hp child assigns he]
    rfl

/-- The value of an assignment statement is one, and reads nothing for its targets. -/
theorem role_of_assigned {targets : List Node} (hp : p ∈ t.nodes)
    (hform : p.form = .assign targets e) (o : NameUse) :
    t.isAssignmentValue (some e) = true ∧ t.countsAsRead o (some e) = false := by
  have assigned : p.assignedValue? = some e := by simp [Node.assignedValue?, hform]
  have child := Node.mem_children_of_assignedValue? assigned
  refine ⟨(isAssignmentValue_iff (mem_nodes_of_mem_children hp child)).2
    ⟨p, hp, assigned, by simp [hform]⟩, ?_⟩
  simp [countsAsRead, parent?_of_mem hp child, hform]

end Tree

/-- Where an assignment stores its value, as a reference to the head of the place has it. A bare name,
and a chain that is itself a target, receives the value and is no read. A chain inside of a tuple, list
or starred target receives nothing, and its head counts as read if it is one. -/
theorem Scoping.stored_into_places {t : Tree} {m : Scoping} (h : ofTree t = .ok m)
    (hg : t.root.isGrammatical = true) (hm : t.root.isMarked = true) {p e target q : Node}
    {targets : List Node} (hp : p ∈ t.nodes) (hform : p.form = .assign targets e)
    (htarget : target ∈ targets) (hq : target.Element q) {r : Reference} (hr : r ∈ m.references)
    (hx : r.identifier.Heads q) :
    (q = r.identifier ∨ q = target → t.storedValue? r.toNameUse = some e ∧
      t.isAssignmentValue (some e) = true ∧ t.countsAsRead r.toNameUse (some e) = false) ∧
    (q ≠ r.identifier → q ≠ target → t.storedValue? r.toNameUse = none ∧
      t.isAssignmentValue none = false ∧ t.countsAsRead r.toNameUse none = r.isRead) := by
  obtain ⟨o, ho⟩ := exists_parsed (t := ⟨⟨t, hg⟩, hm⟩) h
  obtain rfl := tree_eq_of_ofTree h
  have tells := ho.classifies hr
  have child : target ∈ p.children := by simp [Node.children, hform, Form.children, htarget]
  have above := m.tree.mem_nodes_of_mem_children hp child
  have mem := m.tree.mem_nodes_trans above (Node.mem_preorder_of_element hq)
  have climb := Tree.chainValue?_of_heads mem hx
  constructor
  · intro hplace
    refine ⟨?_, Tree.role_of_assigned hp hform r.toNameUse⟩
    by_cases hbare : q = r.identifier
    · have delivered : p.Delivers e r.identifier :=
        ⟨by simp [Node.assignedValue?, hform], target, by simp [Node.targets, hform, htarget],
          hbare ▸ hq⟩
      simp [Tree.storedValue?, (tells.value e).2 ⟨p, hp, delivered⟩]
    · obtain rfl := hplace.resolve_left hbare
      have assigns : p.assigns q.id = true := by
        simp only [Node.assigns, hform, List.any_eq_true, decide_eq_true_eq]
        exact ⟨q, htarget, rfl⟩
      exact tells.storedValue?_of_assigns hp (by simp [Node.targets, hform, htarget]) assigns
        (by simp [Node.assignedValue?, hform]) hx
  · intro hbare hdirect
    refine ⟨?_, rfl, by simp [Tree.countsAsRead]⟩
    rw [Tree.storedValue?, tells.value_of_heads mem hx hbare, Tree.chainValue?, climb,
      Tree.chainValue?_of_element above hq hdirect]
    rfl

end LostUpdate
