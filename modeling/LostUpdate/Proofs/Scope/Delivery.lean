import LostUpdate.Proofs.Scope.Placement

namespace LostUpdate

namespace Node

/-- Targets that are taken apart. -/
def unpacks (n : Node) : Bool :=
  match n.form with
  | .tuple .. | .list .. | .starred .. => true
  | _ => false

/-- What is left of a target when tuples, lists and starred targets are taken apart, itself and the
parts in between included. -/
inductive Element (target : Node) : Node → Prop
  | self : Element target target
  | step {q x : Node} : Element target q → q.unpacks = true → x ∈ q.children → Element target x

/-- The assignment `n` stores `value` into `x`, directly or by taking a target apart. -/
def Delivers (n value x : Node) : Prop :=
  n.assignedValue? = some value ∧ ∃ target ∈ n.targets, target.Element x

/-- An augmented assignment to `x`, which reads `x` before it stores. -/
def Augments (n x : Node) : Prop := ∃ op value, n.form = .augmented x op value

/-- A child to which its parent neither stores nor hands on what is stored to the parent. -/
structure Employs (n c : Node) : Prop where
  child : c ∈ n.children
  whole : n.unpacks = false
  unassigned : ∀ v, n.assignedValue? = some v → c ∉ n.targets
  undeclared : ¬ n.Declares c

section Forms

variable {n x c v : Node}

theorem mem_preorder_of_element (h : n.Element x) : x ∈ n.preorder := by
  induction h with
  | self => exact n.mem_preorder_self
  | step _ _ hx ih => exact mem_preorder_trans ih (mem_preorder_of_mem_children hx)

theorem mem_targets_of_declares (h : n.Declares x) : x ∈ n.targets := by
  obtain ⟨-, hint, simple, hform⟩ := h
  simp [targets, hform]

theorem mem_targets_of_augments (h : n.Augments x) : x ∈ n.targets := by
  obtain ⟨op, value, hform⟩ := h
  simp [targets, hform]

theorem exists_assignedValue_of_augments (h : n.Augments x) : ∃ v, n.assignedValue? = some v := by
  obtain ⟨op, value, hform⟩ := h
  exact ⟨value, by simp [assignedValue?, hform]⟩

theorem assignedValue?_of_declares (h : n.Declares x) : n.assignedValue? = none := by
  obtain ⟨-, hint, simple, hform⟩ := h
  simp [assignedValue?, hform]

theorem targets_of_unpacks (h : n.unpacks = true) : n.targets = [] := by
  cases hform : n.form <;> simp_all [unpacks, targets]

theorem unpacks_of_mem_targets (h : c ∈ n.targets) : n.unpacks = false := by
  rw [← Bool.not_eq_true]
  exact fun hu => by simp [targets_of_unpacks hu] at h

theorem employs_of_targets_eq_nil (ht : n.targets = []) (hu : n.unpacks = false)
    (hc : c ∈ n.children) : n.Employs c where
  child := hc
  whole := hu
  unassigned := by simp [ht]
  undeclared h := by simpa [ht] using mem_targets_of_declares h

/-- The value of an assignment is none of its targets. -/
theorem employs_assignedValue (hn : n.children.Nodup) (h : n.assignedValue? = some v) :
    n.Employs v where
  child := mem_children_of_assignedValue? h
  whole := by cases hform : n.form <;> simp_all [assignedValue?, unpacks]
  unassigned _ _ hv := by
    cases hform : n.form
    case assign places w =>
      obtain rfl : w = v := by simpa [assignedValue?, hform] using h
      rw [children, hform, Form.children, List.nodup_append] at hn
      exact hn.2.2 w (by simpa [targets, hform] using hv) w (List.mem_singleton_self w) rfl
    all_goals simp_all [assignedValue?, targets, children, Form.children]
  undeclared hd := by simp [assignedValue?_of_declares hd] at h

theorem children_sublist_preorder (l : List Node) : l.Sublist (l.flatMap preorder) := by
  induction l with
  | nil => exact List.Sublist.refl _
  | cons c l ih =>
    rw [List.flatMap_cons, preorder_eq, List.cons_append]
    exact (ih.trans (List.sublist_append_right _ _)).cons_cons c

theorem nodup_children (h : n.preorder.Nodup) : n.children.Nodup := by
  rw [preorder_eq] at h
  exact (List.nodup_cons.1 h).2.sublist (children_sublist_preorder n.children)

end Forms

end Node

namespace Tree

variable {t : Tree} {q c v : Node}

theorem nodup_children (hq : q ∈ t.nodes) : q.children.Nodup :=
  Node.nodup_children (nodup_preorder hq)

/-- The parent of a node settles whether a value is delivered to it. -/
theorem delivers_iff (hq : q ∈ t.nodes) (hc : c ∈ q.children) :
    (∃ p ∈ t.nodes, p.Delivers v c) ↔ (q.assignedValue? = some v ∧ c ∈ q.targets) ∨
      (q.unpacks = true ∧ ∃ p ∈ t.nodes, p.Delivers v q) := by
  constructor
  · rintro ⟨p, hp, hv, target, htarget, helement⟩
    have below := mem_nodes_of_mem_children hp (Node.mem_children_of_mem_targets htarget)
    cases helement with
    | self =>
      obtain rfl := parent_unique hp hq (Node.mem_children_of_mem_targets htarget) hc
      exact .inl ⟨hv, htarget⟩
    | @step r _ hr hu hx =>
      have hmem := mem_nodes_trans below (Node.mem_preorder_of_element hr)
      obtain rfl := parent_unique hmem hq hx hc
      exact .inr ⟨hu, p, hp, hv, target, htarget, hr⟩
  · rintro (⟨hv, hmem⟩ | ⟨hu, p, hp, hv, target, htarget, helement⟩)
    · exact ⟨q, hq, hv, c, hmem, .self⟩
    · exact ⟨p, hp, hv, target, htarget, .step helement hu hc⟩

theorem augments_iff (hq : q ∈ t.nodes) (hc : c ∈ q.children) :
    (∃ p ∈ t.nodes, p.Augments c) ↔ q.Augments c := by
  refine ⟨fun ⟨p, hp, h⟩ => ?_, fun h => ⟨q, hq, h⟩⟩
  obtain rfl := parent_unique hp hq
    (Node.mem_children_of_mem_targets (Node.mem_targets_of_augments h)) hc
  exact h

theorem declares_iff (hq : q ∈ t.nodes) (hc : c ∈ q.children) :
    (∃ p ∈ t.nodes, p.Declares c) ↔ q.Declares c := by
  refine ⟨fun ⟨p, hp, h⟩ => ?_, fun h => ⟨q, hq, h⟩⟩
  obtain rfl := parent_unique hp hq
    (Node.mem_children_of_mem_targets (Node.mem_targets_of_declares h)) hc
  exact h

/-- A target and its elements receive the same. -/
theorem delivers_element_iff {target x : Node} (ht : target ∈ t.nodes) (h : target.Element x) :
    (∃ p ∈ t.nodes, p.Delivers v x) ↔ ∃ p ∈ t.nodes, p.Delivers v target := by
  induction h with
  | self => exact Iff.rfl
  | @step q x hq hu hx ih =>
    rw [← ih, delivers_iff (mem_nodes_trans ht (Node.mem_preorder_of_element hq)) hx]
    simp [hu, Node.targets_of_unpacks hu]

/-- What delivers to a name below a node that is not taken apart stands in that node. -/
theorem mem_preorder_of_delivers {p x : Node} (hq : q ∈ t.nodes) (hu : q.unpacks = false)
    (hp : p ∈ t.nodes) (h : p.Delivers v x) (hx : x ∈ q.children.flatMap Node.preorder) :
    p ∈ q.preorder := by
  obtain ⟨-, target, htarget, helement⟩ := h
  have hchild := Node.mem_children_of_mem_targets htarget
  induction helement with
  | self =>
    rcases eq_or_mem_below_of_parent hq hp hchild hx with rfl | hbelow
    · exact p.mem_preorder_self
    · exact Node.mem_preorder_of_below hbelow
  | @step r y hr hunpacks hy ih =>
    have mem := mem_nodes_trans (mem_nodes_of_mem_children hp hchild)
      (Node.mem_preorder_of_element hr)
    rcases eq_or_mem_below_of_parent hq mem hy hx with rfl | hbelow
    · simp [hu] at hunpacks
    · exact ih hbelow

/-- What is stored into a node of the tree, and whether it is read first. -/
structure Receives (t : Tree) (n : Node) (value : Option Node) (isRead : Bool) : Prop where
  value : ∀ v, value = some v ↔ ∃ p ∈ t.nodes, p.Delivers v n
  isRead : isRead = true ↔ ∃ p ∈ t.nodes, p.Augments n
  undeclared : ∀ p ∈ t.nodes, ¬ p.Declares n

theorem receives_root (t : Tree) : t.Receives t.root none false := by
  have top {p c : Node} (hp : p ∈ t.nodes) (hc : c ∈ p.children) : t.root ∉ c.preorder := by
    intro h
    have inner := Node.sizeOf_lt_of_mem_children hc
    have below := Node.sizeOf_le_of_mem_preorder h
    have above := Node.sizeOf_le_of_mem_preorder hp
    omega
  refine ⟨fun v => ?_, ?_, fun p hp hd => ?_⟩
  · simp only [reduceCtorEq, false_iff]
    rintro ⟨p, hp, -, target, htarget, helement⟩
    exact top hp (Node.mem_children_of_mem_targets htarget) (Node.mem_preorder_of_element helement)
  · simp only [Bool.false_eq_true, false_iff]
    rintro ⟨p, hp, h⟩
    exact top hp (Node.mem_children_of_mem_targets (Node.mem_targets_of_augments h))
      t.root.mem_preorder_self
  · exact top hp (Node.mem_children_of_mem_targets (Node.mem_targets_of_declares hd))
      t.root.mem_preorder_self

/-- Nothing is stored into a part that is no target. -/
theorem receives_of_employs (hq : q ∈ t.nodes) (h : q.Employs c) : t.Receives c none false where
  value v := by
    rw [delivers_iff hq h.child]
    simp only [h.whole, Bool.false_eq_true, false_and, or_false, reduceCtorEq, false_iff]
    exact fun ⟨hv, hc⟩ => h.unassigned v hv hc
  isRead := by
    rw [augments_iff hq h.child]
    simp only [Bool.false_eq_true, false_iff]
    intro hu
    obtain ⟨v, hv⟩ := Node.exists_assignedValue_of_augments hu
    exact h.unassigned v hv (Node.mem_targets_of_augments hu)
  undeclared p hp hd := h.undeclared ((declares_iff hq h.child).1 ⟨p, hp, hd⟩)

theorem receives_target (hq : q ∈ t.nodes) (hv : q.assignedValue? = some v) (hc : c ∈ q.targets)
    {isRead : Bool} (hr : isRead = true ↔ q.Augments c) : t.Receives c (some v) isRead where
  value w := by
    rw [delivers_iff hq (Node.mem_children_of_mem_targets hc)]
    simp [hv, hc, Node.unpacks_of_mem_targets hc]
  isRead := by rw [augments_iff hq (Node.mem_children_of_mem_targets hc), hr]
  undeclared p hp hd := by
    have own := (declares_iff hq (Node.mem_children_of_mem_targets hc)).1 ⟨p, hp, hd⟩
    simp [Node.assignedValue?_of_declares own] at hv

/-- The elements of a target receive what the target does, and are not read. -/
theorem receives_element (hq : q ∈ t.nodes) (hu : q.unpacks = true) (hc : c ∈ q.children)
    {value : Option Node} {isRead : Bool} (h : t.Receives q value isRead) :
    t.Receives c value false where
  value v := by
    rw [delivers_iff hq hc, h.value]
    simp [hu, Node.targets_of_unpacks hu]
  isRead := by
    rw [augments_iff hq hc]
    simp only [Bool.false_eq_true, false_iff]
    intro haugments
    simpa [Node.targets_of_unpacks hu] using Node.mem_targets_of_augments haugments
  undeclared p hp hd := by
    have own := (declares_iff hq hc).1 ⟨p, hp, hd⟩
    simpa [Node.targets_of_unpacks hu] using Node.mem_targets_of_declares own

end Tree

end LostUpdate
