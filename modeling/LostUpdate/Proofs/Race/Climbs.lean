import LostUpdate.Proofs.Race.StoredPlaces

namespace LostUpdate

namespace Node

/-- The key for a subscript: a literal text or integer is written as it is, a truth value by its
name, and anything else as a star. -/
inductive Key (index : Node) : String → Prop
  | text {s : String} {kind : Option String} : index.form = .constant (.text s) kind → Key index s
  | integer {i : Int} {kind : Option String} :
    index.form = .constant (.integer i) kind → Key index (toString i)
  | true {kind : Option String} : index.form = .constant .true kind → Key index "True"
  | false {kind : Option String} : index.form = .constant .false kind → Key index "False"
  | other : (∀ value kind, index.form = .constant value kind →
      (∀ s, value ≠ .text s) ∧ (∀ i, value ≠ .integer i) ∧ value ≠ .true ∧ value ≠ .false) →
    Key index "*"

/-- `q` is an attribute or a subscript of `n`. -/
inductive Link (n q : Node) : String → Prop
  | member {name : String} {context : Context} : q.form = .member n name context → Link n q name
  | subscript {index : Node} {context : Context} {key : String} :
    q.form = .subscript n index context → index.Key key → Link n q key

/-- A chain of attributes and subscripts leads from `n` up to the node at the end. -/
inductive Chain : Node → List String → Node → Prop
  | nil (n : Node) : Chain n [] n
  | cons {n q top : Node} {key : String} {keys : List String} :
    n.Link q key → Chain q keys top → Chain n (key :: keys) top

theorem key_subscriptKey? (index : Node) : index.Key (index.subscriptKey?.getD "*") := by
  cases hform : index.form
  case constant value kind =>
    cases value
    case text s => simpa [subscriptKey?, hform] using Key.text hform
    case integer i => simpa [subscriptKey?, hform] using Key.integer hform
    case true => simpa [subscriptKey?, hform] using Key.true hform
    case false => simpa [subscriptKey?, hform] using Key.false hform
    all_goals
      have none : index.subscriptKey? = none := by simp [subscriptKey?, hform]
      rw [none]
      refine .other fun value kind same => ?_
      obtain ⟨rfl, rfl⟩ := Form.constant.inj (hform.symm.trans same)
      simp
  all_goals
    have none : index.subscriptKey? = none := by simp [subscriptKey?, hform]
    rw [none]
    exact .other fun value kind same => by cases hform.symm.trans same

theorem Link.mem_children {n q : Node} {key : String} (h : n.Link q key) : n ∈ q.children := by
  cases h with
  | member hform | subscript hform => simp [children, hform, Form.children]

theorem Link.isSome_chainKey? {n q : Node} {key : String} (h : n.Link q key) :
    (q.chainKey? n.id).isSome = true := by
  cases h with
  | member hform | subscript hform => simp [chainKey?, hform]

end Node

/-- The node at which the climb along the chain from `n` stops: the whole chain, or `n` itself. -/
def chainEnd (n : Node) : List Node → Node
  | [] => n
  | p :: above => if (p.chainKey? n.id).isSome then chainEnd p above else n

/-- The chain from the name of a reference to its last attribute or subscript. -/
def Tree.chainEnd (t : Tree) (r : NameUse) : Node :=
  LostUpdate.chainEnd r.identifier (t.ancestors r.identifier.id)

/-- The climb for the path adds a key for each node that it passes. -/
theorem getElem?_chainKeys (n : Node) (above : List Node) :
    (n :: above)[(chainKeys n.id above).length]? = some (chainEnd n above) := by
  induction above generalizing n with
  | nil => rfl
  | cons p above ih =>
    cases hkey : p.chainKey? n.id with
    | none => simp [chainKeys, chainEnd, hkey]
    | some key => simpa [chainKeys, chainEnd, hkey] using ih p

namespace Node

theorem reaches_of_heads {x q : Node} (h : x.Heads q) : Reaches x q := by
  induction h with
  | self => exact .self
  | @link c q key _ hc hkey ih =>
    have link : (q.chainKey? c.id).isSome = true := by simp [hkey]
    exact .step (passesOn_of_chainKey? link) hc ih

/-- A chain from `c` that starts with a link above `x`, started at `x`. -/
theorem heads_of_heads {x c q : Node} {key : String} (hx : x ∈ c.children)
    (hkey : c.chainKey? x.id = some key) (h : c.Heads q) : x.Heads q := by
  induction h with
  | self => exact .link .self hx hkey
  | link _ hc hlink ih => exact .link ih hc hlink

theorem passesOn_of_unpacks {n : Node} (h : n.unpacks = true) : n.passesOn = true := by
  cases hform : n.form <;> simp_all [unpacks, passesOn]

theorem reaches_of_element {target x : Node} (h : target.Element x) : Reaches x target := by
  induction h with
  | self => exact .self
  | step _ hu hx ih => exact (Reaches.step (passesOn_of_unpacks hu) hx .self).trans ih

theorem chainKey?_of_mem_targets {n c : Node} (h : c ∈ n.targets) (i : NodeId) :
    n.chainKey? i = none := by
  cases hform : n.form <;> simp_all [targets, chainKey?]

theorem kind_of_assigns {n : Node} {i : NodeId} (h : n.assigns i = true) :
    n.kind = "Assign" ∨ n.kind = "AugAssign" ∨ n.kind = "AnnAssign" := by
  cases hform : n.form <;> simp_all [assigns, kind, Form.kind]

end Node

namespace Tree

variable {t : Tree} {x e p q : Node}

/-- What adds a key to a path is an attribute or subscript of the node below. -/
theorem link_of_chainKey? {key : String} (hx : x ∈ t.nodes) (hq : q ∈ t.nodes)
    (h : q.chainKey? x.id = some key) : x.Link q key := by
  have below {c : Node} (hc : c ∈ q.children) (hid : c.id = x.id) : c = x :=
    eq_of_id_eq (mem_nodes_of_mem_children hq hc) hx hid
  cases hform : q.form <;> simp only [Node.chainKey?, hform, reduceCtorEq] at h
  case member c name context =>
    split_ifs at h with hid
    obtain rfl := below (by simp [Node.children, hform, Form.children]) hid
    exact Option.some.inj h ▸ .member hform
  case subscript c index context =>
    split_ifs at h with hid
    obtain rfl := below (by simp [Node.children, hform, Form.children]) hid
    exact Option.some.inj h ▸ .subscript hform index.key_subscriptKey?

/-- The climb for the path goes up the whole chain of a node. -/
theorem chain_chainKeys (hx : x ∈ t.nodes) :
    x.Chain (chainKeys x.id (t.ancestors x.id)) (LostUpdate.chainEnd x (t.ancestors x.id)) ∧
      ∀ q ∈ t.nodes, ∀ key, ¬ (LostUpdate.chainEnd x (t.ancestors x.id)).Link q key := by
  induction hl : t.ancestors x.id generalizing x with
  | nil =>
    refine ⟨.nil x, fun q hq key link => ?_⟩
    have below : x ∈ q.children := link.mem_children
    simp [ancestors_of_parent? (parent?_of_mem hq below)] at hl
  | cons p above ih =>
    cases hp : t.parent? x.id with
    | none => simp [ancestors_of_none hp] at hl
    | some q =>
      obtain ⟨hmem, -⟩ := (parent?_eq_some_iff hx).1 hp
      obtain ⟨rfl, rfl⟩ := List.cons.inj ((ancestors_of_parent? hp).symm.trans hl)
      cases hkey : q.chainKey? x.id with
      | none =>
        simp only [chainKeys, LostUpdate.chainEnd, hkey, Option.isSome_none, if_neg Bool.false_ne_true]
        refine ⟨.nil x, fun p hp' key link => ?_⟩
        obtain rfl : q = p := Option.some.inj (hp.symm.trans (parent?_of_mem hp' link.mem_children))
        simpa [hkey] using link.isSome_chainKey?
      | some key =>
        simp only [chainKeys, LostUpdate.chainEnd, hkey, Option.isSome_some, if_true]
        obtain ⟨chain, whole⟩ := ih hmem rfl
        exact ⟨.cons (link_of_chainKey? hx hmem hkey) chain, whole⟩

/-- The climb for a stored value goes up the chain as far as the climb for the path, and finds the
value in an assignment of which the whole chain is a target. -/
theorem exists_of_chainValue? (hx : x ∈ t.nodes)
    (h : LostUpdate.chainValue? x.id (t.ancestors x.id) = some e) :
    ∃ p ∈ t.nodes, p.assignedValue? = some e ∧
      (p.kind = "Assign" ∨ p.kind = "AugAssign" ∨ p.kind = "AnnAssign") ∧
        LostUpdate.chainEnd x (t.ancestors x.id) ∈ p.targets ∧
          x.Heads (LostUpdate.chainEnd x (t.ancestors x.id)) := by
  induction hl : t.ancestors x.id generalizing x with
  | nil => simp [hl, LostUpdate.chainValue?] at h
  | cons p above ih =>
    cases hp : t.parent? x.id with
    | none => simp [ancestors_of_none hp] at hl
    | some q =>
      obtain ⟨hmem, hchild⟩ := (parent?_eq_some_iff hx).1 hp
      obtain ⟨rfl, rfl⟩ := List.cons.inj ((ancestors_of_parent? hp).symm.trans hl)
      rw [hl, LostUpdate.chainValue?] at h
      split_ifs at h with hassigns hlink
      · obtain ⟨c, hc, hid⟩ := Node.exists_target_of_assigns hassigns
        obtain rfl : c = x := eq_of_id_eq
          (mem_nodes_of_mem_children hmem (Node.mem_children_of_mem_targets hc)) hx hid
        have stops := Node.chainKey?_of_mem_targets hc c.id
        rw [LostUpdate.chainEnd, if_neg (by simp [stops])]
        exact ⟨q, hmem, h, Node.kind_of_assigns hassigns, hc, .self⟩
      · obtain ⟨p, hp, hv, hkind, htarget, heads⟩ := ih hmem h rfl
        obtain ⟨key, hkey⟩ := Option.isSome_iff_exists.1 hlink
        rw [LostUpdate.chainEnd, if_pos hlink]
        exact ⟨p, hp, hv, hkind, htarget, Node.heads_of_heads hchild hkey heads⟩

/-- The path of a name that receives a value is the bare name: no chain leads up from it. -/
theorem path_of_delivers {o : NameUse} (hp : p ∈ t.nodes) (h : p.Delivers e o.identifier) :
    t.path o = o.name := by
  obtain ⟨-, target, htarget, helement⟩ := h
  have child := Node.mem_children_of_mem_targets htarget
  have stops : chainKeys o.identifier.id (t.ancestors o.identifier.id) = [] := by
    cases helement with
    | self =>
      rw [ancestors_of_parent? (parent?_of_mem hp child), chainKeys,
        Node.chainKey?_of_mem_targets htarget]
    | @step q _ hq hu hx =>
      have mem := mem_nodes_trans (mem_nodes_of_mem_children hp child)
        (Node.mem_preorder_of_element hq)
      rw [ancestors_of_parent? (parent?_of_mem mem hx), chainKeys, Node.chainKey?_of_unpacks hu]
  rw [path, stops]
  rfl

end Tree

/-- The climbs from a reference agree. The path of a reference is its name with the keys of the whole
chain that starts at it. If a value is stored through the chain, it is that of an assignment statement
of which the chain is a target: the climb for the text of a report ends there, and the value is the one
that is checked. If a value is stored into the name itself, the climb for the text ends at the target
that is the name or from which it is taken apart, and the path is the bare name. -/
theorem Scoping.climbs_agree {t : Tree} {m : Scoping} (h : ofTree t = .ok m)
    (hg : t.root.isGrammatical = true) (hm : t.root.isMarked = true) {r : Reference}
    (hr : r ∈ m.references) :
    let n := r.identifier
    ∃ top keys, n.Chain keys top ∧ (∀ q ∈ t.nodes, ∀ key, ¬ top.Link q key) ∧
      t.path r.toNameUse = ".".intercalate (r.name :: keys) ∧
      (n :: t.ancestors n.id)[keys.length]? = some top ∧
      (∀ e, t.chainValue? r.toNameUse = some e → ∃ p ∈ t.nodes, t.parent? e.id = some p ∧
        p.assignedValue? = some e ∧
          (p.kind = "Assign" ∨ p.kind = "AugAssign" ∨ p.kind = "AnnAssign") ∧
            top ∈ p.targets ∧ t.targetIn? r.toNameUse p.id = some top ∧
              t.storedValue? r.toNameUse = some e) ∧
      ∀ e, r.value = some e → ∃ p ∈ t.nodes, t.parent? e.id = some p ∧
        p.assignedValue? = some e ∧ ∃ target ∈ p.targets, target.Element n ∧
          t.targetIn? r.toNameUse p.id = some target ∧ t.path r.toNameUse = r.name := by
  obtain ⟨o, ho⟩ := exists_parsed (t := ⟨⟨t, hg⟩, hm⟩) h
  obtain rfl := tree_eq_of_ofTree h
  have tells := ho.classifies hr
  have mem := (ho.mentions hr).identifier
  obtain ⟨chain, whole⟩ := Tree.chain_chainKeys mem
  refine ⟨_, _, chain, whole, rfl, getElem?_chainKeys _ _, fun e he => ?_, fun e he => ?_⟩
  · obtain ⟨p, hp, hv, hkind, htarget, heads⟩ := Tree.exists_of_chainValue? mem he
    have child := Node.mem_children_of_assignedValue? hv
    refine ⟨p, hp, m.tree.parent?_of_mem hp child, hv, hkind, htarget,
      Tree.targetIn?_of_reaches hp htarget (Node.reaches_of_heads heads), ?_⟩
    rw [Tree.storedValue?, he]
    cases hvalue : r.value with
    | none => rfl
    | some w =>
      -- a value of its own is stored into a name that is the whole chain
      by_cases hbare : m.tree.chainEnd r.toNameUse = r.identifier
      · have delivered := (tells.value e).2
          ⟨p, hp, hv, _, htarget, by rw [show LostUpdate.chainEnd _ _ = _ from hbare]; exact .self⟩
        exact congrArg some (Option.some.inj (hvalue.symm.trans delivered))
      · have := tells.value_of_heads
          (m.tree.mem_nodes_of_mem_children hp (Node.mem_children_of_mem_targets htarget)) heads hbare
        simp [hvalue] at this
  · obtain ⟨p, hp, delivers⟩ := (tells.value e).1 he
    obtain ⟨hv, target, htarget, helement⟩ := delivers
    exact ⟨p, hp, m.tree.parent?_of_mem hp (Node.mem_children_of_assignedValue? hv), hv, target,
      htarget, helement, Tree.targetIn?_of_reaches hp htarget (Node.reaches_of_element helement),
      Tree.path_of_delivers hp ⟨hv, target, htarget, helement⟩⟩

namespace Shelve

def chained : Node :=
  .mk 1 none (.assign [.mk 2 none (.subscript
    (.mk 3 none (.member (.mk 4 none (.name "shelf" .load)) "slots" .load))
    (.mk 5 none (.constant (.text "top") none)) .store)] (.mk 6 none (.name "item" .load)))

def row : Node :=
  .mk 8 none (.tuple [.mk 9 none (.name "first" .store), .mk 10 none (.starred
    (.mk 11 none (.name "rest" .store)) .store)] .store)

def unpacked : Node := .mk 7 none (.assign [row] (.mk 12 none (.name "row" .load)))

/-- The chain `shelf.slots["top"]` of a target, and the row of names in another. -/
def root : Node := .mk 0 none (.module [chained, unpacked])

def tree : Tree := ⟨root, root.edges, rfl, pairwise_of_strictlyAscending (by cbv)⟩

def scoping : Scoping := ((Scoping.ofTree tree).toOption).getD ⟨tree, []⟩

theorem ofTree_tree : Scoping.ofTree tree = .ok scoping := by cbv

theorem isGrammatical : tree.root.isGrammatical = true := by cbv

theorem isMarked : tree.root.isMarked = true := by cbv

theorem references : scoping.references.map (fun r =>
    (r.name, tree.path r.toNameUse, (tree.chainValue? r.toNameUse).map Node.id, r.value.map Node.id)) =
      [("shelf", "shelf.slots.top", some 6, none), ("item", "item", none, none),
        ("first", "first", none, some 12), ("rest", "rest", none, some 12),
        ("row", "row", none, none)] := by cbv

end Shelve

/-- The value stored through the chain that starts at `shelf` is that of the first assignment, which
has the chain as its target, and the row of names is the target of the second. -/
theorem Scoping.climbs_agree_shelve : ∃ m, ofTree Shelve.tree = .ok m ∧
    (∃ r ∈ m.references, ∃ e top keys, r.name = "shelf" ∧ r.identifier.Chain keys top ∧
      ".".intercalate (r.name :: keys) = "shelf.slots.top" ∧
        Shelve.tree.path r.toNameUse = "shelf.slots.top" ∧
        Shelve.tree.chainValue? r.toNameUse = some e ∧ ∃ p ∈ Shelve.tree.nodes,
          p.assignedValue? = some e ∧ top ∈ p.targets ∧
            Shelve.tree.targetIn? r.toNameUse p.id = some top) ∧
      ∃ r ∈ m.references, ∃ e, r.name = "rest" ∧ r.value = some e ∧
        ∃ p ∈ Shelve.tree.nodes, p.assignedValue? = some e ∧ ∃ target ∈ p.targets,
          target.Element r.identifier ∧ Shelve.tree.path r.toNameUse = "rest" := by
  have agree {r : Reference} (hr : r ∈ Shelve.scoping.references) :=
    climbs_agree Shelve.ofTree_tree Shelve.isGrammatical Shelve.isMarked hr
  have listed (x : String × String × Option NodeId × Option NodeId)
      (h : x ∈ [("shelf", "shelf.slots.top", some 6, none), ("item", "item", none, none),
        ("first", "first", none, some 12), ("rest", "rest", none, some 12),
        ("row", "row", none, none)]) :=
    List.mem_map.1 (Shelve.references ▸ h)
  refine ⟨_, Shelve.ofTree_tree, ?_, ?_⟩
  · obtain ⟨r, hr, hx⟩ := listed ("shelf", "shelf.slots.top", some 6, none) (by simp)
    simp only [Prod.mk.injEq, Option.map_eq_some_iff] at hx
    obtain ⟨name, path, ⟨e, he, -⟩, -⟩ := hx
    obtain ⟨top, keys, chain, -, hpath, -, stored, -⟩ := agree hr
    obtain ⟨p, hp, -, hv, -, htarget, hin, -⟩ := stored e he
    exact ⟨r, hr, e, top, keys, name, chain, hpath.symm.trans path, path, he, p, hp, hv,
      htarget, hin⟩
  · obtain ⟨r, hr, hx⟩ := listed ("rest", "rest", none, some 12) (by simp)
    simp only [Prod.mk.injEq, Option.map_eq_some_iff] at hx
    obtain ⟨name, -, -, e, he, -⟩ := hx
    obtain ⟨top, keys, -, -, -, -, -, received⟩ := agree hr
    obtain ⟨p, hp, -, hv, target, htarget, helement, -, path⟩ := received e he
    exact ⟨r, hr, e, name, he, p, hp, hv, target, htarget, helement, path.trans name⟩

end LostUpdate
