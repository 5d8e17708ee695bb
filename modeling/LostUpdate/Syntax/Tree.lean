import LostUpdate.Syntax.Node

namespace LostUpdate

namespace Node

/-- A node and all below it, parents first, siblings in field order. -/
def preorder (n : Node) : List Node :=
  n :: n.children.attach.flatMap fun ⟨c, _⟩ => c.preorder
termination_by n
decreasing_by exact sizeOf_lt_of_mem_children ‹_›

theorem preorder_eq (n : Node) : n.preorder = n :: n.children.flatMap preorder := by
  rw [preorder, List.flatMap_subtype (fun _ _ => rfl), List.unattach_attach]

def ids (n : Node) : List NodeId := n.preorder.map id

/-- Each node below `n`, by its identity, with its parent. -/
def edges (n : Node) : List (NodeId × Node) :=
  n.preorder.flatMap fun p => p.children.map fun c => (c.id, p)

theorem mem_preorder_self (n : Node) : n ∈ n.preorder := by
  rw [preorder_eq]
  exact List.mem_cons_self

/-- What is below a node stands in one piece within what is below its ancestors. -/
theorem preorder_sublist {p n : Node} (h : p ∈ n.preorder) : p.preorder.Sublist n.preorder := by
  induction n using induct with
  | step n ih =>
    rw [preorder_eq n] at h ⊢
    rcases List.mem_cons.1 h with rfl | h
    · exact preorder_eq p ▸ List.Sublist.refl p.preorder
    · obtain ⟨c, hc, hp⟩ := List.mem_flatMap.1 h
      have inner : c.preorder.Sublist (n.children.flatMap preorder) :=
        List.sublist_flatten_of_mem (List.mem_map_of_mem hc)
      exact ((ih c hc hp).trans inner).cons n

theorem mem_edges {n p : Node} {i : NodeId} :
    (i, p) ∈ n.edges ↔ p ∈ n.preorder ∧ ∃ c ∈ p.children, c.id = i := by
  simp only [edges, List.mem_flatMap, List.mem_map, Prod.mk.injEq]
  constructor
  · rintro ⟨q, hq, c, hc, rfl, rfl⟩
    exact ⟨hq, c, hc, rfl⟩
  · rintro ⟨hp, c, hc, rfl⟩
    exact ⟨p, hp, c, hc, rfl, rfl⟩

/-- The number of levels of a tree. -/
def height (n : Node) : Nat :=
  1 + (n.children.attach.map fun ⟨c, _⟩ => c.height).foldr max 0
termination_by n
decreasing_by exact sizeOf_lt_of_mem_children ‹_›

/-- The nodes `depth` steps below `n`, from first to last. -/
def level : Nat → Node → List Node
  | 0, n => [n]
  | depth + 1, n => n.children.flatMap (level depth)

/-- A node and all below it, level by level. -/
def breadthFirst (n : Node) : List Node := (List.range n.height).flatMap fun depth => level depth n

end Node

/-- Whether each number is less than the next. -/
def strictlyAscending : List Nat → Bool
  | a :: b :: l => decide (a < b) && strictlyAscending (b :: l)
  | _ => true

theorem pairwise_of_strictlyAscending {l : List Nat} (h : strictlyAscending l = true) :
    l.Pairwise (· < ·) := by
  fun_induction strictlyAscending l with
  | case1 a b l ih =>
    simp only [Bool.and_eq_true, decide_eq_true_eq] at h
    have tail := ih h.2
    refine List.pairwise_cons.2 ⟨fun c hc => ?_, tail⟩
    rcases List.mem_cons.1 hc with rfl | hc
    · exact h.1
    · exact Nat.lt_trans h.1 (List.rel_of_pairwise_cons tail hc)
  | case2 l hl =>
    match l with
    | [] => exact .nil
    | [a] => exact List.pairwise_singleton _ _
    | a :: b :: l => exact absurd rfl (hl a b l)

/-- A syntax tree whose nodes are numbered in preorder. The table of parents is kept beside the
root, so that climbing does not search the tree. -/
structure Tree where
  root : Node
  edges : List (NodeId × Node)
  edges_eq : edges = root.edges
  ascending : root.ids.Pairwise (· < ·)

namespace Tree

def ofRoot? (root : Node) : Option Tree :=
  if h : strictlyAscending root.ids then
    some ⟨root, root.edges, rfl, pairwise_of_strictlyAscending h⟩
  else none

theorem nodup_ids (t : Tree) : t.root.ids.Nodup :=
  t.ascending.imp Nat.ne_of_lt

def nodes (t : Tree) : List Node := t.root.preorder

theorem ascending_of_mem {t : Tree} {n : Node} (hn : n ∈ t.nodes) :
    n.ids.Pairwise (· < ·) :=
  t.ascending.sublist ((Node.preorder_sublist hn).map Node.id)

/-- What is below a node, as a tree of its own. -/
def below {t : Tree} {n : Node} (hn : n ∈ t.nodes) : Tree :=
  ⟨n, n.edges, rfl, ascending_of_mem hn⟩

def find? (t : Tree) (i : NodeId) : Option Node := t.nodes.find? (·.id = i)

def parent? (t : Tree) (i : NodeId) : Option Node :=
  (t.edges.find? (·.1 = i)).map (·.2)

theorem parent?_eq_some {t : Tree} {i : NodeId} {p : Node} (h : t.parent? i = some p) :
    p ∈ t.nodes ∧ ∃ c ∈ p.children, c.id = i := by
  obtain ⟨⟨j, q⟩, hq, rfl⟩ := Option.map_eq_some_iff.1 h
  have hj : j = i := by simpa using List.find?_some hq
  subst hj
  have mem := List.mem_of_find?_eq_some hq
  rw [t.edges_eq] at mem
  exact Node.mem_edges.1 mem

/-- A parent is numbered before its children. -/
theorem parent?_lt {t : Tree} {i : NodeId} {p : Node} (h : t.parent? i = some p) : p.id < i := by
  obtain ⟨hp, c, hc, rfl⟩ := parent?_eq_some h
  have ascending := ascending_of_mem hp
  rw [Node.ids, Node.preorder_eq, List.map_cons] at ascending
  refine List.rel_of_pairwise_cons ascending (List.mem_map_of_mem ?_)
  exact List.mem_flatMap.2 ⟨c, hc, c.mem_preorder_self⟩

/-- The nodes above a node, from its parent to the root. -/
def ancestors (t : Tree) (i : NodeId) : List Node :=
  match _h : t.parent? i with
  | some p => p :: t.ancestors p.id
  | none => []
termination_by i
decreasing_by exact parent?_lt _h

end Tree

end LostUpdate
