import LostUpdate.Syntax.Tree
import Mathlib.Data.List.Nodup
import Mathlib.Data.List.Perm.Basic

namespace LostUpdate

namespace Node

theorem mem_preorder_child {n c p : Node} (hc : c ∈ n.children) (hp : p ∈ c.preorder) :
    p ∈ n.preorder := by
  rw [preorder_eq]
  exact List.mem_cons_of_mem _ (List.mem_flatMap.2 ⟨c, hc, hp⟩)

theorem mem_preorder_of_mem_children {n c : Node} (hc : c ∈ n.children) : c ∈ n.preorder :=
  mem_preorder_child hc c.mem_preorder_self

theorem mem_preorder_trans {n p q : Node} (hp : p ∈ n.preorder) (hq : q ∈ p.preorder) :
    q ∈ n.preorder :=
  (preorder_sublist hp).subset hq

/-- Every node of a tree but the topmost is a child of one. -/
theorem eq_or_exists_parent {n q : Node} (h : q ∈ n.preorder) :
    q = n ∨ ∃ p ∈ n.preorder, q ∈ p.children := by
  induction n using induct with
  | step n ih =>
    rw [preorder_eq, List.mem_cons, List.mem_flatMap] at h
    rcases h with rfl | ⟨c, hc, hq⟩
    · exact .inl rfl
    · right
      rcases ih c hc hq with rfl | ⟨p, hp, hq⟩
      · exact ⟨n, n.mem_preorder_self, hc⟩
      · exact ⟨p, mem_preorder_child hc hp, hq⟩

theorem sizeOf_le_of_mem_preorder {n p : Node} (h : p ∈ n.preorder) : sizeOf p ≤ sizeOf n := by
  induction n using induct with
  | step n ih =>
    rw [preorder_eq] at h
    rcases List.mem_cons.1 h with rfl | h
    · exact Nat.le_refl _
    · obtain ⟨c, hc, hp⟩ := List.mem_flatMap.1 h
      exact Nat.le_trans (ih c hc hp) (Nat.le_of_lt (sizeOf_lt_of_mem_children hc))

/-- Whatever passes from all nodes below a node to the node holds of every node. -/
@[elab_as_elim]
theorem induct_below {motive : Node → Prop}
    (step : ∀ n, (∀ c, c ∈ n.children.flatMap preorder → motive c) → motive n) (n : Node) :
    motive n := by
  have all : ∀ p ∈ n.preorder, motive p := by
    induction n using induct with
    | step n ih =>
      intro p hp
      rw [preorder_eq] at hp
      have below : ∀ c, c ∈ n.children.flatMap preorder → motive c := fun c hc => by
        obtain ⟨d, hd, hc⟩ := List.mem_flatMap.1 hc
        exact ih d hd c hc
      rcases List.mem_cons.1 hp with rfl | hp
      · exact step _ below
      · exact below p hp
  exact all n n.mem_preorder_self

theorem ids_eq (n : Node) : n.ids = n.id :: n.children.flatMap ids := by
  rw [ids, preorder_eq, List.map_cons, List.map_flatMap]
  rfl

theorem edges_eq (n : Node) :
    n.edges = n.children.map (fun c => (c.id, n)) ++ n.children.flatMap edges := by
  rw [edges, preorder_eq, List.flatMap_cons, List.flatMap_assoc]
  rfl

/-- Every node but the topmost is below exactly one. -/
theorem edges_perm (n : Node) : (n.edges.map (·.1)).Perm (n.children.flatMap ids) := by
  induction n using induct with
  | step n ih =>
    have below : ∀ l : List Node, (∀ c ∈ l, c ∈ n.children) →
        (l.map id ++ (l.flatMap edges).map (·.1)).Perm (l.flatMap ids) := by
      intro l hl
      induction l with
      | nil => simp
      | cons c l ihl =>
        have later := ihl fun d hd => hl d (List.mem_cons_of_mem _ hd)
        have inner := ih c (hl c List.mem_cons_self)
        rw [List.perm_iff_count] at later inner ⊢
        intro i
        have hlater := later i
        have hinner := inner i
        simp only [List.map_cons, List.flatMap_cons, List.map_append, List.count_cons,
          List.count_append, ids_eq c] at hlater ⊢
        omega
    rw [edges_eq, List.map_append, List.map_map]
    exact below n.children fun _ hc => hc

theorem eq_of_id_eq {n p q : Node} (h : n.ids.Nodup) (hp : p ∈ n.preorder) (hq : q ∈ n.preorder)
    (hid : p.id = q.id) : p = q :=
  List.inj_on_of_nodup_map h hp hq hid

theorem parent_unique {n p q c d : Node} (h : n.ids.Nodup) (hp : p ∈ n.preorder)
    (hq : q ∈ n.preorder) (hc : c ∈ p.children) (hd : d ∈ q.children) (hid : c.id = d.id) :
    p = q := by
  have distinct : (n.edges.map (·.1)).Nodup := by
    rw [ids_eq] at h
    exact (edges_perm n).nodup_iff.2 (List.nodup_cons.1 h).2
  have first : (c.id, p) ∈ n.edges := mem_edges.2 ⟨hp, c, hc, rfl⟩
  have second : (c.id, q) ∈ n.edges := mem_edges.2 ⟨hq, d, hd, hid.symm⟩
  exact congrArg Prod.snd (List.inj_on_of_nodup_map distinct first second rfl)

end Node

namespace Tree

variable {t : Tree}

theorem nodup_preorder {n : Node} (hn : n ∈ t.nodes) : n.preorder.Nodup :=
  (List.Nodup.of_map Node.id t.nodup_ids).sublist (Node.preorder_sublist hn)

theorem eq_of_id_eq {p q : Node} (hp : p ∈ t.nodes) (hq : q ∈ t.nodes) (hid : p.id = q.id) :
    p = q :=
  Node.eq_of_id_eq t.nodup_ids hp hq hid

theorem mem_nodes_of_mem_children {p c : Node} (hp : p ∈ t.nodes) (hc : c ∈ p.children) :
    c ∈ t.nodes :=
  Node.mem_preorder_trans hp (Node.mem_preorder_of_mem_children hc)

theorem mem_nodes_trans {p c : Node} (hp : p ∈ t.nodes) (hc : c ∈ p.preorder) : c ∈ t.nodes :=
  Node.mem_preorder_trans hp hc

theorem parent_unique {p q c : Node} (hp : p ∈ t.nodes) (hq : q ∈ t.nodes) (hc : c ∈ p.children)
    (hd : c ∈ q.children) : p = q :=
  Node.parent_unique t.nodup_ids hp hq hc hd rfl

/-- The parent of what is below a node is that node, or below it as well. -/
theorem eq_or_mem_below_of_parent {q r c : Node} (hq : q ∈ t.nodes) (hr : r ∈ t.nodes)
    (hc : c ∈ r.children) (h : c ∈ q.children.flatMap Node.preorder) :
    r = q ∨ r ∈ q.children.flatMap Node.preorder := by
  obtain ⟨d, hd, hmem⟩ := List.mem_flatMap.1 h
  rcases Node.eq_or_exists_parent hmem with rfl | ⟨p, hp, hchild⟩
  · exact .inl (parent_unique hr hq hc hd)
  · have inner := mem_nodes_trans (mem_nodes_of_mem_children hq hd) hp
    exact .inr (parent_unique hr inner hc hchild ▸ List.mem_flatMap.2 ⟨d, hd, hp⟩)

theorem parent?_of_mem {p c : Node} (hp : p ∈ t.nodes) (hc : c ∈ p.children) :
    t.parent? c.id = some p := by
  have edge : (c.id, p) ∈ t.edges := by
    rw [t.edges_eq]
    exact Node.mem_edges.2 ⟨hp, c, hc, rfl⟩
  have found : (t.edges.find? (·.1 = c.id)).isSome := by
    rw [List.find?_isSome]
    exact ⟨_, edge, by simp⟩
  obtain ⟨q, hq⟩ := Option.isSome_iff_exists.1 found
  have hpar : t.parent? c.id = some q.2 := by simp [parent?, hq]
  obtain ⟨hmem, d, hd, hid⟩ := parent?_eq_some hpar
  rw [hpar, Node.parent_unique t.nodup_ids hmem hp hd hc hid]

theorem parent?_eq_some_iff {p c : Node} (hc : c ∈ t.nodes) :
    t.parent? c.id = some p ↔ p ∈ t.nodes ∧ c ∈ p.children := by
  refine ⟨fun h => ?_, fun h => parent?_of_mem h.1 h.2⟩
  obtain ⟨hp, d, hd, hid⟩ := parent?_eq_some h
  obtain rfl := eq_of_id_eq (mem_nodes_of_mem_children hp hd) hc hid
  exact ⟨hp, hd⟩

theorem ancestors_of_parent? {i : NodeId} {p : Node} (h : t.parent? i = some p) :
    t.ancestors i = p :: t.ancestors p.id := by
  rw [ancestors]
  split
  · next q hq =>
    obtain rfl : q = p := Option.some.inj (hq.symm.trans h)
    rfl
  · next hq => simp [h] at hq

theorem ancestors_of_none {i : NodeId} (h : t.parent? i = none) : t.ancestors i = [] := by
  rw [ancestors]
  split
  · next q hq => simp [h] at hq
  · rfl

end Tree

end LostUpdate
