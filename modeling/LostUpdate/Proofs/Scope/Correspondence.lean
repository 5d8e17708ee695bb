import LostUpdate.Proofs.Scope.Owners

namespace LostUpdate

theorem Stop.site?_eq_some {v : List Node × Stop} {os : List Node} {x : Node} :
    Stop.site? v = some (os, x) ↔
      (v = (os, .enter x) ∧ x.isName = true) ∨ v = (os, .start x) := by
  obtain ⟨owners, stop⟩ := v
  cases stop with
  | enter n =>
    by_cases hn : n.isName = true
    · simp only [Stop.site?, hn, if_true, Option.some.injEq, Prod.mk.injEq, Stop.enter.injEq,
        reduceCtorEq, and_false, or_false]
      constructor
      · rintro ⟨rfl, rfl⟩
        exact ⟨⟨rfl, rfl⟩, hn⟩
      · exact fun h => h.1
    · rw [Stop.site?, if_neg hn]
      simp only [Prod.mk.injEq, Stop.enter.injEq, reduceCtorEq, and_false, or_false, false_iff]
      rintro ⟨⟨-, rfl⟩, h⟩
      exact hn h
  | exit n => simp [Stop.site?]
  | start n => simp [Stop.site?]

namespace Node

section Grammatical

variable {n f x : Node} (hg : n.isGrammatical = true)

include hg

theorem mem_sites_iff (hx : x.isName = true) {os owners : List Node} :
    (owners, x) ∈ sites os [n] ↔ (owners, Stop.enter x) ∈ n.flow.visits os := by
  rw [sites, List.flatMap_singleton, List.mem_filterMap]
  simp only [Stop.site?_eq_some]
  constructor
  · rintro ⟨v, hv, ⟨rfl, -⟩ | rfl⟩
    · exact hv
    · have starts := isFunctionLike_of_start hg hv
      simp [not_isFunctionLike_of_isName hx] at starts
  · intro hv
    exact ⟨_, hv, .inl ⟨rfl, hx⟩⟩

theorem exists_site (hf : f ∈ n.preorder) (hl : f.isFunctionLike = true) (os : List Node) :
    ∃ owners, (owners, f) ∈ sites os [n] := by
  have plain : f.isSignature = false ∧ f.isClause = false := by
    cases hform : f.form <;>
      simp_all [isFunctionLike, Form.isFunctionLike, isSignature, isClause]
  obtain ⟨owners, henter, -⟩ := mem_visits_flow os hg hf plain.1
  have inner := (piece_of_enter hg henter plain.2).visits_block.subset
  refine ⟨owners, ?_⟩
  rw [sites, List.flatMap_singleton, List.mem_filterMap]
  refine ⟨(owners, .start f), inner ?_, rfl⟩
  rw [(visits_flow owners (isGrammatical_of_mem hg hf)).mem_iff]
  simp [ownVisits, hl]

/-- A node has no more sites than places in the tree, if each of them is seen from one side. -/
theorem count_sites_le_of_shows [DecidableEq Node] {side : Stop → Option Node}
    (hside : Stop.Shows side) (os : List Node)
    (h : ∀ v ∈ n.flow.visits os, ∀ owners, Stop.site? v = some (owners, x) → side v.2 = some x) :
    ((sites os [n]).map (·.2)).count x ≤ n.preorder.count x := by
  refine Nat.le_trans ?_ (count_nodes_flow_le hside os hg x)
  rw [sites, List.flatMap_singleton, List.map_filterMap, Stop.nodes]
  refine count_filterMap_le fun v hmem hv => ?_
  obtain ⟨⟨owners, y⟩, hsite, rfl⟩ := Option.map_eq_some_iff.1 hv
  exact h v hmem owners hsite

theorem count_sites_le [DecidableEq Node] (hl : f.isFunctionLike = true) (os : List Node) :
    ((sites os [n]).map (·.2)).count f ≤ n.preorder.count f := by
  refine count_sites_le_of_shows hg Stop.shows_started? os fun v hmem owners hv => ?_
  rcases Stop.site?_eq_some.1 hv with ⟨-, hname⟩ | rfl
  · simp [not_isFunctionLike_of_isName hname] at hl
  · rfl

theorem count_name_sites_le [DecidableEq Node] (hx : x.isName = true) (os : List Node) :
    ((sites os [n]).map (·.2)).count x ≤ n.preorder.count x := by
  refine count_sites_le_of_shows hg Stop.shows_entered? os fun v hmem owners hv => ?_
  rcases Stop.site?_eq_some.1 hv with ⟨rfl, -⟩ | rfl
  · rfl
  · have starts := isFunctionLike_of_start hg hmem
    simp [not_isFunctionLike_of_isName hx] at starts

/-- Where a declaration is entered, what it declares is. -/
theorem enter_declared {p : Node} (hp : p.Declares x) {os owners : List Node}
    (hmem : p ∈ n.preorder)
    (hv : (owners, Stop.enter p) ∈ n.flow.visits os) :
    (owners, Stop.enter x) ∈ n.flow.visits os := by
  obtain ⟨-, hint, simple, hform⟩ := hp
  have plain : p.isFunctionLike = false := by simp [isFunctionLike, hform, Form.isFunctionLike]
  apply (piece_of_enter hg hv (by simp [isClause, hform])).visits_block.subset
  rw [(visits_flow owners (isGrammatical_of_mem hg hmem)).mem_iff, inPlace_of_plain plain]
  simp [children, hform, Form.children, visits_flow_eq]

/-- The sites of a program are the places that its directives tell, and those of declarations. -/
theorem sites_program :
    ∃ declared, (sites [n] [n]).Perm (placed [n] [[n]] n.directives ++ declared) ∧
      ∀ e ∈ declared, ∃ p, p.Declares e.2 ∧ (e.1, Stop.enter p) ∈ n.flow.visits [n] := by
  obtain ⟨used, declared, hplaces, hsites⟩ := (agrees hg).whole
  have all := hplaces [n] [[n]] []
  have none : placed [n] [[n]] [] = [] := by simp [placed]
  rw [List.append_nil, none, List.append_nil] at all
  refine ⟨declared [n], ?_, ?_⟩
  · rw [all]
    exact (hsites _).1
  · have visits := (hsites [n]).2
    rwa [List.flatMap_singleton] at visits

end Grammatical

end Node

/-- The walk of a program enters `x` while the code path of `owner` is the innermost. -/
def Tree.EntersIn (t : Tree) (owner x : Node) : Prop :=
  ∃ outer, (owner :: outer, Stop.enter x) ∈ Event.visits [] t.root.events

namespace Scoping.Outlined

variable {m : Scoping} {o : Outline}

theorem placed_iff (h : m.Outlined o) {owners : List Node} {x : Node}
    (hx : x.isFunctionLike = false) :
    (owners, x) ∈ placed [m.tree.root] [[m.tree.root]] m.tree.root.directives ↔
      ∃ r ∈ m.references, r.identifier = x ∧
        Outline.owners m.tree.root o.blocks (m.chain r.scope) = owners := by
  have start : Outline.stack m.tree.root [⟨.module, m.tree.root, []⟩] [0] = [[m.tree.root]] := by
    simp [Outline.stack, Outline.owners, Block.function?]
  rw [← start, Outline.mem_placed_iff (fun d hd => Node.says_of_mem hd)
    (Outline.nested_root _) (Outline.opened_root _) h.outline hx]
  constructor
  · rintro ⟨s, b, occurrence, he, hb, hoccurrence, howners⟩
    have bound := (List.getElem?_eq_some_iff.1 hb).1
    refine ⟨⟨occurrence, s⟩, h.mem_references_iff_entry.2 ⟨bound, he⟩, hoccurrence, ?_⟩
    rw [h.chain_of_block hb]
    exact howners
  · rintro ⟨r, hr, hidentifier, howners⟩
    obtain ⟨bound, he⟩ := h.mem_references_iff_entry.1 hr
    have hb := List.getElem?_eq_getElem bound
    refine ⟨r.scope, _, r.toNameUse, he, hb, hidentifier, ?_⟩
    rw [← h.chain_of_block hb]
    exact howners

theorem functions_eq (h : m.Outlined o) : o.blocks.filterMap Block.function? =
    m.tree.root.directives.filterMap Directive.function? := by
  rw [Outline.function_blocks h.outline]
  simp [Block.function?]

end Scoping.Outlined

namespace Scoping.Grammatical

variable {m : Scoping} {o : Outline}

/-- A name is entered where it is used, or where it is declared. -/
theorem enter_iff (h : m.Grammatical o) (hr : m.tree.root.isFunctionLike = false)
    {owners : List Node} {x : Node} (hx : x.isName = true) :
    (owners, Stop.enter x) ∈ Event.visits [] m.tree.root.events ↔
      (∃ r ∈ m.references, r.identifier = x ∧
        Outline.owners m.tree.root o.blocks (m.chain r.scope) = owners) ∨
      ∃ p, p.Declares x ∧ (owners, Stop.enter p) ∈ Event.visits [] m.tree.root.events := by
  obtain ⟨declared, hsites, hdeclared⟩ := Node.sites_program h.isGrammatical
  have entered (y : Node) : (owners, Stop.enter y) ∈ Event.visits [] m.tree.root.events ↔
      (owners, Stop.enter y) ∈ m.tree.root.flow.visits [m.tree.root] := by
    rw [Node.visits_events_of_plain hr]
    simp
  rw [← h.placed_iff (Node.not_isFunctionLike_of_isName hx)]
  simp only [entered]
  constructor
  · intro hv
    have site := hsites.subset ((Node.mem_sites_iff h.isGrammatical hx).2 hv)
    rcases List.mem_append.1 site with hplaced | hmem
    · exact .inl hplaced
    · exact .inr (hdeclared _ hmem)
  · rintro (hplaced | ⟨p, hp, hv⟩)
    · refine (Node.mem_sites_iff h.isGrammatical hx).1 ?_
      exact hsites.symm.subset (List.mem_append_left _ hplaced)
    · have mem := Node.mem_preorder_of_visit Stop.shows_entered? h.isGrammatical hv rfl
      exact Node.enter_declared h.isGrammatical hp mem hv

theorem nodup_functions (h : m.Grammatical o) :
    (o.blocks.filterMap Block.function?).Nodup := by
  classical
  rw [h.functions_eq, List.nodup_iff_count_le_one]
  intro f
  by_cases hf : f ∈ m.tree.root.directives.filterMap Directive.function?
  · have hl : f.isFunctionLike = true := by
      obtain ⟨d, hd, hfunction⟩ := List.mem_filterMap.1 hf
      have opens := Node.says_of_mem hd
      obtain ⟨kind, block, rfl⟩ | hnone : (∃ kind block, d = .openScope kind block) ∨
          d.function? = none := by
        cases d <;> simp [Directive.function?]
      · cases kind <;> simp only [Directive.function?, Option.some.injEq, reduceCtorEq] at hfunction
        exact hfunction ▸ opens.function_iff.1 rfl
      · simp [hnone] at hfunction
    obtain ⟨declared, hsites, -⟩ := Node.sites_program h.isGrammatical
    have placed := (hsites.map (·.2)).count_eq f
    have once := Node.count_sites_le h.isGrammatical hl [m.tree.root]
    have distinct := List.nodup_iff_count_le_one.1
      (List.Nodup.of_map Node.id m.tree.nodup_ids) f
    rw [List.map_append, List.count_append, map_placed] at placed
    have some := Directive.count_function?_le m.tree.root.directives f
    omega
  · rw [List.count_eq_zero_of_not_mem hf]
    exact Nat.zero_le 1

theorem mem_functions (h : m.Grammatical o) {f : Node} (hf : f ∈ m.tree.nodes)
    (hl : f.isFunctionLike = true) : f ∈ o.blocks.filterMap Block.function? := by
  obtain ⟨declared, hsites, hdeclared⟩ := Node.sites_program h.isGrammatical
  obtain ⟨owners, hsite⟩ := Node.exists_site h.isGrammatical hf hl [m.tree.root]
  rcases List.mem_append.1 (hsites.subset hsite) with hplaced | hmem
  · have placed := List.mem_map_of_mem (f := fun e : List Node × Node => e.2) hplaced
    rw [map_placed, List.mem_filterMap] at placed
    obtain ⟨d, hd, hd'⟩ := placed
    rw [h.functions_eq]
    refine List.mem_filterMap.2 ⟨d, hd, ?_⟩
    cases d with
    | use occurrence =>
      obtain rfl : occurrence.identifier = f := by simpa [Directive.site?] using hd'
      obtain ⟨context, hname⟩ := (Node.says_of_mem hd : m.tree.root.Mentions occurrence).name
      simp [Node.isFunctionLike, hname, Form.isFunctionLike] at hl
    | openScope kind block => cases kind <;> simp_all [Directive.site?, Directive.function?]
    | _ => simp [Directive.site?] at hd'
  · obtain ⟨p, hp, -⟩ := hdeclared _ hmem
    simp [Node.not_isFunctionLike_of_isName hp.1] at hl

end Scoping.Grammatical

/-- What the walk does to a node it does in one place. -/
theorem GrammaticalTree.visit_unique {t : GrammaticalTree} {n x : Node} (hn : n ∈ t.nodes)
    {side : Stop → Option Node} (hside : Stop.Shows side) {stop : Stop} (hx : side stop = some x)
    {os owners : List Node} (hv : (os, stop) ∈ Event.visits [] n.events)
    (hv' : (owners, stop) ∈ Event.visits [] n.events) : os = owners := by
  have distinct := nodup_events hn hside
  rw [← Event.nodes_visits side [], Stop.nodes] at distinct
  obtain ⟨i, hi⟩ := List.mem_iff_getElem?.1 hv
  obtain ⟨j, hj⟩ := List.mem_iff_getElem?.1 hv'
  obtain rfl := eq_of_getElem?_of_nodup distinct hi hj hx hx
  exact (Prod.mk.inj (Option.some.inj (hi.symm.trans hj))).1

theorem GrammaticalTree.enter_unique {t : GrammaticalTree} {n x : Node} (hn : n ∈ t.nodes)
    {os owners : List Node} (hv : (os, Stop.enter x) ∈ Event.visits [] n.events)
    (hv' : (owners, Stop.enter x) ∈ Event.visits [] n.events) : os = owners :=
  visit_unique hn Stop.shows_entered? rfl hv hv'

/-- The code of a function's scope is that of the scopes whose innermost function it is. -/
theorem Scoping.Grammatical.variableScope_eq_iff {m : Scoping} {o : Outline} (h : m.Grammatical o)
    (hr : m.tree.root.isFunctionLike = false) {f : Node}
    (hf : f ∈ m.tree.nodes) (hl : f.isFunctionLike = true) {s : ScopeId} {b : Block}
    (hb : o.blocks[s]? = some b) (hfunction : b.function? = some f) {u : ScopeId}
    (hu : u < o.blocks.length) : m.variableScope u = s ↔
      (Outline.owners m.tree.root o.blocks (m.chain u)).head? = some f := by
  have hc := List.getElem?_eq_getElem hu
  rw [h.chain_of_block hc, ← h.block_variableScope hc, h.scope?_eq]
  constructor
  · rintro rfl
    simp only [Block.function?] at hfunction
    split_ifs at hfunction
    simpa [hb] using hfunction
  · intro hblock
    rw [Option.map_map] at hblock
    obtain ⟨c, hfound, hnode⟩ := Option.map_eq_some_iff.1 hblock
    have same : c.node = f := hnode
    have other := h.function?_of_id hf hl hr hfound (congrArg Node.id same)
    exact eq_of_getElem?_of_nodup (h.nodup_functions) hfound hb other hfunction

/-- A function opens a scope. The references in the scope's code are those whose names are entered in
the function's code path. -/
theorem Scoping.Grammatical.exists_code {m : Scoping} {o : Outline} (h : m.Grammatical o)
    (hr : m.tree.root.isFunctionLike = false) {f : Node}
    (hf : f ∈ m.tree.nodes) (hl : f.isFunctionLike = true) :
    ∃ s, m.opened? f.id = some s ∧ m.kind? s = some .function ∧
      ∀ r, r ∈ m.codeReferences s ↔ r ∈ m.references ∧ m.tree.EntersIn f r.identifier := by
  obtain ⟨s, b, hopened, hb, hfunction⟩ := h.exists_opened hf hl hr (h.mem_functions hf hl)
  have kind : m.kind? s = some .function := by
    simp only [Block.function?] at hfunction
    split_ifs at hfunction with hkind
    simp [h.kind?_eq, hb, hkind]
  refine ⟨s, hopened, kind, fun r => ?_⟩
  rw [h.mem_codeReferences kind]
  refine and_congr_right fun hmem => ?_
  have name : r.identifier.isName = true := by
    obtain ⟨context, hform⟩ := (h.mentions hmem).name
    simp [Node.isName, hform]
  have entered := (h.enter_iff hr name).2 (.inl ⟨r, hmem, rfl, rfl⟩)
  rw [h.variableScope_eq_iff hr hf hl hb hfunction (h.mem_references_iff_entry.1 hmem).1]
  constructor
  · intro innermost
    obtain ⟨outer, howners⟩ := List.head?_eq_some_iff.1 innermost
    exact ⟨outer, howners ▸ entered⟩
  · rintro ⟨outer, hv⟩
    rw [GrammaticalTree.enter_unique (t := h.tree) m.tree.root.mem_preorder_self entered hv,
      List.head?_cons]

/-- The scopes and the walk agree. A function opens a scope, and the names entered in its code path
are those whose references belong to the scope's code, and the names that it declares without a
value; every reference is entered in the code path of the block of its variable scope, and in no
other. -/
theorem Scoping.agrees_with_walk {t : Tree} {m : Scoping} (h : Scoping.ofTree t = .ok m)
    (hg : t.root.isGrammatical = true) (hr : t.root.isFunctionLike = false) :
    (∀ f ∈ t.nodes, f.isFunctionLike = true → ∃ s, m.opened? f.id = some s ∧
      ∀ x, x.isName = true → (t.EntersIn f x ↔
        (∃ r ∈ m.codeReferences s, r.identifier = x) ∨ ∃ p, p.Declares x ∧ t.EntersIn f p)) ∧
    ∀ r ∈ m.references, ∃ g, (m.scope? (m.variableScope r.scope)).map (·.block) = some g ∧
      ∀ owner, t.EntersIn owner r.identifier ↔ owner = g := by
  obtain ⟨o, ho⟩ := exists_grammatical h hg
  obtain rfl := tree_eq_of_ofTree h
  constructor
  · intro f hf hl
    obtain ⟨s, hopened, -, code⟩ := ho.exists_code hr hf hl
    refine ⟨s, hopened, fun x hx => ?_⟩
    constructor
    · rintro ⟨outer, hv⟩
      rcases (ho.enter_iff hr hx).1 hv with ⟨r, hmem, rfl, -⟩ | ⟨p, hp, hv⟩
      · exact .inl ⟨r, (code r).2 ⟨hmem, outer, hv⟩, rfl⟩
      · exact .inr ⟨p, hp, outer, hv⟩
    · rintro (⟨r, hr, rfl⟩ | ⟨p, hp, outer, hv⟩)
      · exact ((code r).1 hr).2
      · exact ⟨outer, (ho.enter_iff hr hx).2 (.inr ⟨p, hp, hv⟩)⟩
  · intro r hmem
    have bound := (ho.mem_references_iff_entry.1 hmem).1
    have hc := List.getElem?_eq_getElem bound
    obtain ⟨g, outer, howners⟩ := List.exists_cons_of_ne_nil
      (Outline.owners_ne_nil m.tree.root o.blocks (m.chain r.scope))
    have name : r.identifier.isName = true := by
      obtain ⟨context, hform⟩ := (ho.mentions hmem).name
      simp [Node.isName, hform]
    have here := (ho.enter_iff hr name).2 (.inl ⟨r, hmem, rfl, howners⟩)
    refine ⟨g, ?_, fun owner => ⟨?_, ?_⟩⟩
    · rw [ho.block_variableScope hc, ← ho.chain_of_block hc, howners, List.head?_cons]
    · rintro ⟨outer', hv⟩
      have same := GrammaticalTree.enter_unique (t := ho.tree) m.tree.root.mem_preorder_self hv here
      exact (List.cons.inj same).1
    · rintro rfl
      exact ⟨outer, here⟩

theorem Scoping.agrees_with_walk_bump : Bump.tree.root.isFunctionLike = false ∧
    Bump.function ∈ Bump.tree.nodes ∧ Bump.function.isFunctionLike = true ∧
    ∃ s, Bump.scoping.opened? Bump.function.id = some s ∧
      ∀ x, x.isName = true → (Bump.tree.EntersIn Bump.function x ↔
        (∃ r ∈ Bump.scoping.codeReferences s, r.identifier = x) ∨
          ∃ p, p.Declares x ∧ Bump.tree.EntersIn Bump.function p) := by
  have mem : Bump.function ∈ Bump.tree.nodes :=
    Bump.tree.mem_nodes_of_mem_children Bump.root_mem List.mem_cons_self
  exact ⟨rfl, mem, rfl,
    (Scoping.agrees_with_walk Bump.ofTree_tree Bump.isGrammatical rfl).1 Bump.function mem rfl⟩

end LostUpdate
