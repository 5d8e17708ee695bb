import LostUpdate.Proofs.Scope.Resolution

namespace LostUpdate

namespace Node

/-- `p` is a module that holds the statement or the expression `e` and nothing else. -/
inductive Wraps (e : Node) : Node → Prop
  | statement {i : NodeId} {s : Option Span} (h : e.form.category = .statement) :
      Wraps e (.mk i s (.module [e]))
  | expression {i j : NodeId} {s u : Option Span} (h : e.form.category = .expression) :
      Wraps e (.mk i s (.module [.mk j u (.exprStmt e)]))

variable {e p : Node}

theorem isGrammatical_of_children {n : Node} (h : n.fits = true)
    (hc : ∀ c ∈ n.children, c.isGrammatical = true) : n.isGrammatical = true := by
  rw [isGrammatical, preorder_eq, List.all_cons, h, Bool.true_and, List.all_flatMap,
    List.all_eq_true]
  exact hc

theorem isMarked_of_children {n : Node} (h : n.places = [])
    (hc : ∀ c ∈ n.children, c.isMarked = true) : n.isMarked = true := by
  rw [isMarked, preorder_eq, List.all_cons, h, List.all_nil, Bool.true_and, List.all_flatMap,
    List.all_eq_true]
  exact hc

theorem Wraps.directives (h : e.Wraps p) : p.directives = e.directives := by
  have statement {n : Node} (i : NodeId) (s : Option Span) :
      (mk i s (.module [n])).directives = n.directives := by
    rw [directives.eq_def]
    simp [children, form, Form.children]
  cases h with
  | statement => exact statement _ _
  | expression =>
    rw [statement, directives.eq_def]
    simp [children, form, Form.children]

theorem Wraps.isGrammatical (h : e.Wraps p) (he : e.isGrammatical = true) :
    p.isGrammatical = true := by
  have shape (i : NodeId) (s : Option Span) (f : Form Node) : (mk i s f).form = f := rfl
  cases h with
  | statement h =>
    refine isGrammatical_of_children ?_ (by simpa [children, form, Form.children] using he)
    simp [fits, isComplete, shape, Form.fields, h]
  | expression h =>
    refine isGrammatical_of_children rfl ?_
    simp only [children, form, Form.children, List.forall_mem_singleton]
    refine isGrammatical_of_children ?_ (by simpa [children, form, Form.children] using he)
    simp [fits, isComplete, shape, Form.fields, h]

theorem Wraps.isMarked (h : e.Wraps p) (he : e.isMarked = true) : p.isMarked = true := by
  cases h with
  | statement => exact isMarked_of_children rfl (by simpa [children, form, Form.children] using he)
  | expression =>
    refine isMarked_of_children rfl ?_
    simp only [children, form, Form.children, List.forall_mem_singleton]
    exact isMarked_of_children rfl (by simpa [children, form, Form.children] using he)

/-- A module keeps the bindings that come out of everything in it. -/
theorem Wraps.passesBindings (h : e.Wraps p) : (Region.program p).passesBindings = false := by
  cases h <;> rfl

end Node

namespace Outline

variable {e p : Node}

def rooted (p : Node) (o : Outline) : Outline :=
  ⟨o.blocks.modifyHead fun b => { b with node := p }, o.entries⟩

section Rooted

variable {blocks : List Block} {opened : List ScopeId}

theorem rooted_getElem? {o : Outline} {i : ScopeId} (hi : i ≠ 0) :
    (o.rooted p).blocks[i]? = o.blocks[i]? := by
  rw [rooted, List.getElem?_modifyHead, if_neg hi]

/-- What a scope keeps to itself does not get further because the root is another node. -/
theorem receiver?_rooted (hp : (Region.program p).passesBindings = false)
    (hb : Nested e blocks) (hd : opened.Pairwise (· > ·)) {s : ScopeId}
    (h : receiver? blocks opened = some s) :
    receiver? (rooted p ⟨blocks, []⟩).blocks opened = some s := by
  induction opened with
  | nil => simp [receiver?] at h
  | cons j rest ih =>
    obtain ⟨lower, descending⟩ := List.pairwise_cons.1 hd
    rw [receiver?] at h ⊢
    by_cases hz : j = 0
    · -- nothing is around the root, so it is what has been found
      subst hz
      obtain rfl : rest = [] := List.eq_nil_iff_forall_not_mem.2 fun k hk =>
        absurd (lower k hk) (Nat.not_lt_zero k)
      have found := List.mem_of_find?_eq_some h
      obtain rfl := List.mem_singleton.1 found
      have keeps : (⟨.module, p, []⟩ : Block).passesBindings = false := hp
      simp [rooted, hb.first, keeps]
    · rw [List.find?_cons] at h ⊢
      rw [rooted_getElem? hz]
      cases hj : blocks[j]? with
      | none =>
        simp only [hj] at h
        exact ih descending h
      | some b =>
        cases hk : b.passesBindings <;> simp only [hj, hk] at h ⊢
        · exact h
        · exact ih descending h

theorem rooted_ok {root : Node} {ds : List Directive} (hd : ∀ d ∈ ds, root.Says d)
    (hp : (Region.program p).passesBindings = false) (hb : Nested root blocks)
    (ho : Opened blocks opened) {o : Outline} (h : ofDirectives blocks opened ds = .ok o) :
    ofDirectives (rooted p ⟨blocks, []⟩).blocks opened ds = .ok (o.rooted p) := by
  induction ds generalizing blocks opened o with
  | nil =>
    obtain rfl : (⟨blocks, []⟩ : Outline) = o := by simpa [ofDirectives] using h
    rfl
  | cons d ds ih =>
    have later := fun d hmem => hd d (List.mem_cons_of_mem _ hmem)
    have entry {s : ScopeId} {f : Entry}
        (h : (ofDirectives blocks opened ds).map (addEntry s f) = .ok o) :
        (ofDirectives (rooted p ⟨blocks, []⟩).blocks opened ds).map (addEntry s f) =
          .ok (o.rooted p) := by
      obtain ⟨rest, hrest, rfl⟩ := map_addEntry_eq_ok h
      rw [ih later hb ho hrest]
      rfl
    cases d with
    | use occurrence => exact entry h
    | bind name definition => exact entry h
    | declareGlobal names => exact entry h
    | declareNonlocal names => exact entry h
    | hoist name definition =>
      simp only [ofDirectives] at h ⊢
      cases hr : receiver? blocks opened with
      | none => simp [hr] at h
      | some s =>
        rw [hr] at h
        rw [receiver?_rooted hp hb (hb.descending_of_opened ho) hr]
        exact entry h
    | openScope kind block =>
      have hopens : root.Opens kind block := hd _ List.mem_cons_self
      have grown : (rooted p ⟨blocks ++ [⟨kind, block, opened⟩], []⟩).blocks =
          (rooted p ⟨blocks, []⟩).blocks ++ [⟨kind, block, opened⟩] := by
        obtain ⟨b, rest, rfl⟩ := List.exists_cons_of_length_pos hb.length_pos
        rfl
      have all := ih later (hb.concat ho hopens)
        (.inr ⟨blocks.length, ⟨kind, block, opened⟩, by simp, rfl⟩) h
      rw [grown] at all
      simpa [ofDirectives, rooted] using all
    | closeScope => exact ih later hb (ho.tail hb) h

end Rooted

/-- The module that holds a lone node has the outline of that node, with the module at the root. -/
theorem ofRoot_wraps (hw : e.Wraps p) {o : Outline} (h : ofRoot e = .ok o) :
    ofRoot p = .ok (o.rooted p) := by
  rw [ofRoot, hw.directives]
  exact rooted_ok (fun d hd => Node.says_of_mem hd) hw.passesBindings (nested_root e)
    (opened_root e) h

theorem scopes_rooted (o : Outline) :
    (o.rooted p).scopes = o.scopes.modifyHead fun s => { s with block := p } := by
  obtain ⟨blocks, entries⟩ := o
  cases blocks with
  | nil => rfl
  | cons b rest => simp [scopes, rooted, bindings, references]

end Outline

namespace Scoping

/-- `m` and `m'` differ in what stands at the root, and in nothing else. -/
structure AgreeBelow (m m' : Scoping) : Prop where
  scopes : m'.scopes = m.scopes.modifyHead fun s => { s with block := m'.tree.root }
  chain : m'.chain = m.chain
  variableScope : m'.variableScope = m.variableScope
  references : m'.references = m.references
  resolve : m'.resolve = m.resolve
  referencesTo : m'.referencesTo = m.referencesTo
  /-- A lone node that opens no scope has the root instead. -/
  opened : ∀ i ≠ m'.tree.root.id,
    m.opened? i = (m'.opened? i).or (if i = m.tree.root.id then some 0 else none)

variable {m m' : Scoping} {block : Node}

section Modified

variable (h : m'.scopes = m.scopes.modifyHead fun s => { s with block := block })

include h

theorem scope?_modified (s : ScopeId) : m'.scope? s =
    (m.scope? s).map fun scope => if s = 0 then { scope with block := block } else scope := by
  rw [scope?, scope?, h, List.getElem?_modifyHead]
  split_ifs <;> simp

theorem chain_modified : m'.chain = m.chain := by
  funext s
  rw [chain, chain, scope?_modified h]
  cases m.scope? s <;> simp [apply_ite Scope.enclosing]

theorem kind?_modified : m'.kind? = m.kind? := by
  funext s
  rw [kind?, kind?, scope?_modified h]
  cases m.scope? s <;> simp [apply_ite Scope.kind]

theorem binds_modified : m'.binds = m.binds := by
  funext s x
  rw [binds, binds, scope?_modified h]
  cases m.scope? s with
  | none => rfl
  | some scope =>
    simp only [Option.map_some]
    split_ifs <;> rfl

theorem lookupIn_modified (start : ScopeId) (x : String) (ss : List ScopeId) :
    m'.lookupIn start x ss = m.lookupIn start x ss := by
  induction ss with
  | nil => rfl
  | cons s rest ih =>
    rw [lookupIn, lookupIn, scope?_modified h, binds_modified h, ih]
    cases m.scope? s with
    | none => rfl
    | some scope =>
      simp only [Option.map_some]
      rcases eq_or_ne s 0 with rfl | hs
      · rfl
      · rw [if_neg hs]

theorem references_modified : m'.references = m.references := by
  rw [references, references, h]
  cases m.scopes <;> rfl

theorem resolve_modified : m'.resolve = m.resolve := by
  funext r
  rw [resolve, resolve, lookup, lookup, chain_modified h, lookupIn_modified h]

theorem opened?_modified {root : Scope} {rest : List Scope} (hs : m.scopes = root :: rest)
    {i : NodeId} (hi : i ≠ block.id) :
    m.opened? i = (m'.opened? i).or (if i = root.block.id then some 0 else none) := by
  rw [opened?, opened?, h, hs]
  simp only [List.modifyHead_cons, List.zipIdx_cons, List.findRev?_eq_find?_reverse,
    List.reverse_cons, List.find?_append, List.find?_singleton, Option.map_or]
  by_cases hid : root.block.id = i
  · simp [hid, Ne.symm hi]
  · simp [hid, Ne.symm hid, Ne.symm hi]

end Modified

theorem agreeBelow (h : m'.scopes = m.scopes.modifyHead fun s => { s with block := m'.tree.root })
    (hroot : m.scopes.head?.map (·.block) = some m.tree.root) : m.AgreeBelow m' where
  scopes := h
  chain := chain_modified h
  variableScope := by
    funext s
    rw [variableScope, variableScope, chain_modified h, kind?_modified h]
  references := references_modified h
  resolve := resolve_modified h
  referencesTo := by
    funext s x
    rw [referencesTo, referencesTo, references_modified h, resolve_modified h]
  opened i hi := by
    obtain ⟨root, hhead, hblock⟩ := Option.map_eq_some_iff.1 hroot
    obtain ⟨rest, hs⟩ := List.head?_eq_some_iff.1 hhead
    rw [opened?_modified h hs hi, hblock]

end Scoping

/-- A lone statement or expression has the scopes of the module that holds nothing else. Only a
generator expression that lets a binding out has none. -/
theorem ParsedTree.lone_scoping (t : ParsedTree) {t' : Tree} (hw : t.root.Wraps t'.root) :
    ((∃ m, Scoping.ofTree t.toTree = .ok m) ↔ ¬ t.root.LetsOut) ∧
      ∃ m', Scoping.ofTree t' = .ok m' ∧
        ∀ m, Scoping.ofTree t.toTree = .ok m → m.AgreeBelow m' := by
  have outcome (u : Tree) :
      (∃ m, Scoping.ofTree u = .ok m) ↔ ∃ o, Outline.ofRoot u.root = .ok o := by
    rw [Scoping.ofTree]
    cases Outline.ofRoot u.root <;> simp [Except.map]
  refine ⟨(outcome t.toTree).trans (Outline.exists_ofRoot_iff t), ?_⟩
  let whole : ParsedTree := ⟨⟨t', hw.isGrammatical t.isGrammatical⟩, hw.isMarked t.isMarked⟩
  obtain ⟨m', hm'⟩ := (outcome t').2 (Outline.exists_ofRoot (t := whole) hw.passesBindings)
  refine ⟨m', hm', fun m hm => ?_⟩
  obtain ⟨o, ho⟩ := Scoping.exists_outlined hm
  obtain ⟨o', ho'⟩ := Scoping.exists_outlined hm'
  have tree := Scoping.tree_eq_of_ofTree hm
  have tree' := Scoping.tree_eq_of_ofTree hm'
  have same : o' = o.rooted t'.root :=
    Except.ok.inj ((tree' ▸ ho'.outline).symm.trans (Outline.ofRoot_wraps hw (tree ▸ ho.outline)))
  refine Scoping.agreeBelow ?_ ?_
  · rw [ho'.scopes, ho.scopes, same, Outline.scopes_rooted, tree']
  · have first := ho.scope?_eq 0
    rw [ho.nested.first] at first
    rw [List.head?_eq_getElem?, ← Scoping.scope?, first]
    rfl

/-- A generator expression that lets `last` out:

    (last := row for row in rows)
-/
example : Outline.ofRoot (.mk 0 none (.comprehension .generator
    [.mk 1 none (.walrus (.mk 2 none (.name "last" .store)) (.mk 3 none (.name "row" .load)))]
    [.mk 4 none (.clause (.mk 5 none (.name "row" .store)) (.mk 6 none (.name "rows" .load))
      [] false)])) = .error .bindingLeavesProgram := by cbv

end LostUpdate
