import LostUpdate.Proofs.Scope.Occurrence
import LostUpdate.Proofs.Syntax.Grammar
import LostUpdate.Scope.Scoping
import Mathlib

namespace LostUpdate

namespace Outline

theorem getElem?_extended {blocks more : List Block} (h : blocks <+: more) {i : Nat} {b : Block}
    (hb : blocks[i]? = some b) : more[i]? = some b := by
  obtain ⟨later, rfl⟩ := h
  rw [List.getElem?_append_left (List.getElem?_eq_some_iff.1 hb).1, hb]

/-- Blocks as a program opens them. -/
structure Nested (root : Node) (blocks : List Block) : Prop where
  first : blocks[0]? = some ⟨.module, root, []⟩
  enclosing : ∀ (i : Nat) (b : Block), blocks[i]? = some b →
    b.enclosing = [] ∨ ∃ j < i, ∃ c, blocks[j]? = some c ∧ b.enclosing = j :: c.enclosing
  inner : ∀ (i : Nat) (b : Block), 0 < i → blocks[i]? = some b → root.Opens b.kind b.node

/-- The scopes that are open are a scope and those around it. -/
def Opened (blocks : List Block) (opened : List ScopeId) : Prop :=
  opened = [] ∨ ∃ j c, blocks[j]? = some c ∧ opened = j :: c.enclosing

namespace Nested

variable {root : Node} {blocks : List Block}

theorem lt_of_mem_enclosing (h : Nested root blocks) {i : Nat} {b : Block}
    (hb : blocks[i]? = some b) : ∀ j ∈ b.enclosing, j < i := by
  induction i using Nat.strongRecOn generalizing b with
  | ind i ih =>
    intro j hj
    rcases h.enclosing i b hb with he | ⟨k, hk, c, hc, he⟩
    · simp [he] at hj
    · rw [he, List.mem_cons] at hj
      rcases hj with rfl | hj
      · exact hk
      · exact Nat.lt_trans (ih k hk hc j hj) hk

/-- The scopes around a scope are numbered downwards. -/
theorem descending (h : Nested root blocks) {i : Nat} {b : Block} (hb : blocks[i]? = some b) :
    (i :: b.enclosing).Pairwise (· > ·) := by
  induction i using Nat.strongRecOn generalizing b with
  | ind i ih =>
    refine List.pairwise_cons.2 ⟨h.lt_of_mem_enclosing hb, ?_⟩
    rcases h.enclosing i b hb with he | ⟨k, hk, c, hc, he⟩
    · simp [he]
    · rw [he]
      exact ih k hk hc

theorem length_pos (h : Nested root blocks) : 0 < blocks.length :=
  (List.getElem?_eq_some_iff.1 h.first).1

theorem descending_of_opened (h : Nested root blocks) {opened : List ScopeId}
    (ho : Opened blocks opened) : opened.Pairwise (· > ·) := by
  rcases ho with rfl | ⟨j, c, hc, rfl⟩
  · exact List.Pairwise.nil
  · exact h.descending hc

theorem lt_of_mem_opened (h : Nested root blocks) {opened : List ScopeId}
    (ho : Opened blocks opened) : ∀ j ∈ opened, j < blocks.length := by
  intro j hj
  rcases ho with rfl | ⟨k, c, hc, rfl⟩
  · simp at hj
  · have bound := (List.getElem?_eq_some_iff.1 hc).1
    rcases List.mem_cons.1 hj with rfl | hj
    · exact bound
    · exact Nat.lt_trans (h.lt_of_mem_enclosing hc j hj) bound

theorem headD_lt (h : Nested root blocks) {opened : List ScopeId} (ho : Opened blocks opened) :
    opened.headD 0 < blocks.length := by
  cases opened with
  | nil => exact h.length_pos
  | cons j rest => exact h.lt_of_mem_opened ho j List.mem_cons_self

theorem concat (h : Nested root blocks) {opened : List ScopeId} (ho : Opened blocks opened)
    {kind : ScopeKind} {block : Node} (hopens : root.Opens kind block) :
    Nested root (blocks ++ [⟨kind, block, opened⟩]) := by
  have old {i : Nat} (hi : i < blocks.length) :
      (blocks ++ [(⟨kind, block, opened⟩ : Block)])[i]? = blocks[i]? := List.getElem?_append_left hi
  have cases {i : Nat} {b : Block} (hb : (blocks ++ [⟨kind, block, opened⟩])[i]? = some b) :
      (i < blocks.length ∧ blocks[i]? = some b) ∨
        (i = blocks.length ∧ b = ⟨kind, block, opened⟩) := by
    by_cases hi : i < blocks.length
    · exact .inl ⟨hi, by rwa [old hi] at hb⟩
    · have bound := (List.getElem?_eq_some_iff.1 hb).1
      have hlast : i = blocks.length := by
        simp only [List.length_append, List.length_cons, List.length_nil] at bound
        omega
      subst hlast
      exact .inr ⟨rfl, by simpa using hb.symm⟩
  refine ⟨?_, ?_, ?_⟩
  · rw [old h.length_pos, h.first]
  · intro i b hb
    rcases cases hb with ⟨hi, hb⟩ | ⟨rfl, rfl⟩
    · rcases h.enclosing i b hb with he | ⟨j, hj, c, hc, he⟩
      · exact .inl he
      · exact .inr ⟨j, hj, c, (old (Nat.lt_trans hj hi)).trans hc, he⟩
    · rcases ho with rfl | ⟨j, c, hc, rfl⟩
      · exact .inl rfl
      · have hj := (List.getElem?_eq_some_iff.1 hc).1
        exact .inr ⟨j, hj, c, (old hj).trans hc, rfl⟩
  · intro i b hi hb
    rcases cases hb with ⟨-, hb⟩ | ⟨rfl, rfl⟩
    · exact h.inner i b hi hb
    · exact hopens

end Nested

theorem Opened.tail {root : Node} {blocks : List Block} (h : Nested root blocks)
    {opened : List ScopeId} (ho : Opened blocks opened) : Opened blocks opened.tail := by
  rcases ho with rfl | ⟨j, c, hc, rfl⟩
  · exact .inl rfl
  · rcases h.enclosing j c hc with he | ⟨k, -, d, hd, he⟩
    · exact .inl he
    · exact .inr ⟨k, d, hd, he⟩

theorem map_addEntry_eq_ok {s : ScopeId} {e : Entry} {outcome : Except ScopeError Outline}
    {o : Outline} (h : outcome.map (addEntry s e) = .ok o) :
    ∃ rest, outcome = .ok rest ∧ o = rest.addEntry s e := by
  cases outcome with
  | error error => simp [Except.map] at h
  | ok rest => exact ⟨rest, rfl, (Except.ok.inj h).symm⟩

/-- What the directives of a program add to an outline: blocks that are nested, and entries of scopes
that are there. -/
theorem ofDirectives_ok {root : Node} {ds : List Directive} (hd : ∀ d ∈ ds, root.Says d)
    {blocks : List Block} (hb : Nested root blocks) {opened : List ScopeId}
    (ho : Opened blocks opened) {o : Outline} (h : ofDirectives blocks opened ds = .ok o) :
    blocks <+: o.blocks ∧ Nested root o.blocks ∧ ∀ e ∈ o.entries, e.1 < o.blocks.length ∧
      ∀ occurrence, e.2 = .use occurrence → .use occurrence ∈ ds := by
  induction ds generalizing blocks opened o with
  | nil =>
    obtain rfl : (⟨blocks, []⟩ : Outline) = o := by simpa [ofDirectives] using h
    exact ⟨List.prefix_rfl, hb, by simp⟩
  | cons d ds ih =>
    have later := fun d hmem => hd d (List.mem_cons_of_mem _ hmem)
    have entry {s : ScopeId} (hs : s < blocks.length) {e : Entry}
        (he : ∀ occurrence, e = .use occurrence → .use occurrence ∈ d :: ds)
        (h : (ofDirectives blocks opened ds).map (addEntry s e) = .ok o) :
        blocks <+: o.blocks ∧ Nested root o.blocks ∧ ∀ f ∈ o.entries, f.1 < o.blocks.length ∧
          ∀ occurrence, f.2 = .use occurrence → .use occurrence ∈ d :: ds := by
      obtain ⟨rest, hrest, rfl⟩ := map_addEntry_eq_ok h
      obtain ⟨grows, nested, entries⟩ := ih later hb ho hrest
      refine ⟨grows, nested, fun f hf => ?_⟩
      rcases List.mem_cons.1 hf with rfl | hf
      · exact ⟨Nat.lt_of_lt_of_le hs grows.length_le, he⟩
      · exact ⟨(entries f hf).1, fun o' h' => List.mem_cons_of_mem _ ((entries f hf).2 o' h')⟩
    have scope {blocks' : List Block} {opened' : List ScopeId} (hb : Nested root blocks')
        (ho : Opened blocks' opened') (grown : blocks <+: blocks')
        (h : ofDirectives blocks' opened' ds = .ok o) :
        blocks <+: o.blocks ∧ Nested root o.blocks ∧ ∀ f ∈ o.entries, f.1 < o.blocks.length ∧
          ∀ occurrence, f.2 = .use occurrence → .use occurrence ∈ d :: ds := by
      obtain ⟨grows, nested, entries⟩ := ih later hb ho h
      exact ⟨grown.trans grows, nested, fun f hf => ⟨(entries f hf).1, fun o' h' =>
        List.mem_cons_of_mem _ ((entries f hf).2 o' h')⟩⟩
    cases d with
    | use occurrence => exact entry (hb.headD_lt ho) (by simp) h
    | bind name definition => exact entry (hb.headD_lt ho) (by simp) h
    | declareGlobal names => exact entry (hb.headD_lt ho) (by simp) h
    | declareNonlocal names => exact entry (hb.headD_lt ho) (by simp) h
    | hoist name definition =>
      simp only [ofDirectives] at h
      cases hr : receiver? blocks opened with
      | none => simp [hr] at h
      | some s =>
        rw [hr] at h
        exact entry (hb.lt_of_mem_opened ho s (List.mem_of_find?_eq_some hr)) (by simp) h
    | openScope kind block =>
      have hopens : root.Opens kind block := hd _ List.mem_cons_self
      refine scope (hb.concat ho hopens) (.inr ⟨blocks.length, ⟨kind, block, opened⟩, ?_, rfl⟩)
        (List.prefix_append _ _) h
      simp
    | closeScope => exact scope hb (ho.tail hb) List.prefix_rfl h

theorem nested_root (root : Node) : Nested root [⟨.module, root, []⟩] := by
  refine ⟨rfl, fun i b hb => ?_, fun i b hi hb => ?_⟩
  · obtain ⟨hi, rfl⟩ := List.getElem?_eq_some_iff.1 hb
    obtain rfl : i = 0 := by simpa using hi
    exact .inl rfl
  · have bound := (List.getElem?_eq_some_iff.1 hb).1
    simp only [List.length_cons, List.length_nil] at bound
    omega

theorem opened_root (root : Node) : Opened [⟨.module, root, []⟩] [0] :=
  .inr ⟨0, _, rfl, rfl⟩

theorem ofRoot_ok {root : Node} {o : Outline} (h : ofRoot root = .ok o) :
    Nested root o.blocks ∧ ∀ e ∈ o.entries, e.1 < o.blocks.length ∧
      ∀ occurrence, e.2 = .use occurrence → root.Mentions occurrence := by
  obtain ⟨-, nested, entries⟩ := ofDirectives_ok (fun d hd => Node.says_of_mem hd)
    (nested_root root) (opened_root root) h
  exact ⟨nested, fun e he => ⟨(entries e he).1, fun occurrence hocc =>
    Node.says_of_mem ((entries e he).2 occurrence hocc)⟩⟩

end Outline

/-- `m` holds the scopes of the outline `o` of its tree. -/
structure Scoping.Outlined (m : Scoping) (o : Outline) : Prop where
  scopes : m.scopes = o.scopes
  outline : Outline.ofRoot m.tree.root = .ok o

theorem Scoping.tree_eq_of_ofTree {t : Tree} {m : Scoping} (h : ofTree t = .ok m) : m.tree = t := by
  unfold ofTree at h
  cases ho : Outline.ofRoot t.root with
  | error e => simp [ho, Except.map] at h
  | ok o =>
    rw [ho] at h
    obtain rfl := Except.ok.inj h
    rfl

theorem Scoping.exists_outlined {t : Tree} {m : Scoping} (h : ofTree t = .ok m) :
    ∃ o, m.Outlined o := by
  unfold ofTree at h
  cases ho : Outline.ofRoot t.root with
  | error e => simp [ho, Except.map] at h
  | ok o =>
    rw [ho] at h
    obtain rfl := Except.ok.inj h
    exact ⟨o, rfl, ho⟩

/-- The tree of `m`, whose outline is `o`, keeps to the grammar. -/
structure Scoping.Grammatical (m : Scoping) (o : Outline) : Prop extends m.Outlined o where
  isGrammatical : m.tree.root.isGrammatical = true

@[reducible]
def Scoping.Grammatical.tree {m : Scoping} {o : Outline} (h : m.Grammatical o) : GrammaticalTree :=
  ⟨m.tree, h.isGrammatical⟩

theorem Scoping.exists_grammatical {t : Tree} {m : Scoping} (h : ofTree t = .ok m)
    (hg : t.root.isGrammatical = true) : ∃ o, m.Grammatical o := by
  obtain ⟨o, ho⟩ := exists_outlined h
  exact ⟨o, ho, tree_eq_of_ofTree h ▸ hg⟩

namespace Scoping.Outlined

variable {m : Scoping} {o : Outline}

theorem nested (h : m.Outlined o) : Outline.Nested m.tree.root o.blocks :=
  (Outline.ofRoot_ok h.outline).1

theorem scope?_eq (h : m.Outlined o) (s : ScopeId) : m.scope? s = o.blocks[s]?.map fun b =>
    ⟨b.kind, b.node, b.enclosing, Outline.variableList o.bindings s, o.references s,
      Outline.declaredGlobal o.entries s, Outline.declaredNonlocal o.entries s⟩ := by
  rw [scope?, h.scopes, Outline.scopes, List.getElem?_map, List.getElem?_zipIdx]
  cases o.blocks[s]? <;> simp

theorem kind?_eq (h : m.Outlined o) (s : ScopeId) : m.kind? s = o.blocks[s]?.map (·.kind) := by
  rw [kind?, h.scope?_eq]
  cases o.blocks[s]? <;> rfl

theorem chain_of_block (h : m.Outlined o) {s : ScopeId} {b : Block} (hb : o.blocks[s]? = some b) :
    m.chain s = s :: b.enclosing := by
  rw [chain, h.scope?_eq, hb]
  rfl

theorem kind?_zero (h : m.Outlined o) : m.kind? 0 = some .module := by
  rw [h.kind?_eq, h.nested.first]
  rfl

theorem eq_zero_of_module (h : m.Outlined o) {s : ScopeId} (hs : m.kind? s = some .module) :
    s = 0 := by
  rw [h.kind?_eq, Option.map_eq_some_iff] at hs
  obtain ⟨b, hb, hk⟩ := hs
  by_contra hne
  exact (h.nested.inner s b (Nat.pos_of_ne_zero hne) hb).inner hk

theorem variableScope_zero (h : m.Outlined o) : m.variableScope 0 = 0 := by
  rw [variableScope, h.chain_of_block h.nested.first]
  simp [h.kind?_zero]

theorem mem_references_iff (h : m.Outlined o) {s : ScopeId} {scope : Scope}
    (hs : m.scopes[s]? = some scope) {r : Reference} : r ∈ scope.references ↔
      r.scope = s ∧ (s, Entry.use r.toNameUse) ∈ o.entries := by
  have found := h.scope?_eq s
  rw [scope?, hs] at found
  obtain ⟨b, hb, hbs⟩ := Option.map_eq_some_iff.1 found.symm
  rw [← hbs]
  simp only [Outline.references, List.mem_filterMap, Prod.exists]
  constructor
  · rintro ⟨u, e, he, hr⟩
    cases e with
    | use occurrence =>
      simp only at hr
      split_ifs at hr with hu
      obtain rfl := Option.some.inj hr
      exact ⟨rfl, hu ▸ he⟩
    | _ => simp at hr
  · rintro ⟨rfl, he⟩
    exact ⟨r.scope, _, he, by simp⟩

theorem mem_references (h : m.Outlined o) {r : Reference} : r ∈ m.references ↔
    ∃ scope, m.scopes[r.scope]? = some scope ∧ r ∈ scope.references := by
  constructor
  · intro hr
    obtain ⟨scope, hscope, hr⟩ := List.mem_flatMap.1 hr
    obtain ⟨s, hs⟩ := List.mem_iff_getElem?.1 hscope
    obtain ⟨rfl, -⟩ := (h.mem_references_iff hs).1 hr
    exact ⟨scope, hs, hr⟩
  · rintro ⟨scope, hs, hr⟩
    exact List.mem_flatMap.2 ⟨scope, List.mem_of_getElem? hs, hr⟩

theorem length_scopes (h : m.Outlined o) : m.scopes.length = o.blocks.length := by
  simp [h.scopes, Outline.scopes]

/-- A reference stands in a scope that is there, and is an occurrence of its name. -/
theorem mem_references_iff_entry (h : m.Outlined o) {r : Reference} : r ∈ m.references ↔
    r.scope < o.blocks.length ∧ (r.scope, Entry.use r.toNameUse) ∈ o.entries := by
  rw [h.mem_references]
  constructor
  · rintro ⟨scope, hs, hr⟩
    have bound := (List.getElem?_eq_some_iff.1 hs).1
    exact ⟨h.length_scopes ▸ bound, ((h.mem_references_iff hs).1 hr).2⟩
  · rintro ⟨bound, he⟩
    rw [← h.length_scopes] at bound
    have hs := List.getElem?_eq_getElem bound
    exact ⟨_, hs, (h.mem_references_iff hs).2 ⟨rfl, he⟩⟩

theorem mentions (h : m.Outlined o) {r : Reference} (hr : r ∈ m.references) :
    m.tree.root.Mentions r.toNameUse := by
  have entry := (h.mem_references_iff_entry.1 hr).2
  exact ((Outline.ofRoot_ok h.outline).2 _ entry).2 _ rfl

/-- Between a scope and the function that owns it there is no function. -/
theorem isPartOf_iff (h : m.Outlined o) {s u : ScopeId} (hs : m.kind? s = some .function)
    (hu : u < o.blocks.length) : m.isPartOf s u = true ↔ m.variableScope u = s := by
  obtain ⟨b, hb⟩ : ∃ b, o.blocks[u]? = some b := ⟨_, List.getElem?_eq_getElem hu⟩
  have chain := h.chain_of_block hb
  have descending := h.nested.descending hb
  have hne : s ≠ 0 := by
    rintro rfl
    rw [h.kind?_zero] at hs
    simp at hs
  rw [isPartOf, variableScope, chain]
  generalize u :: b.enclosing = scopes at descending
  clear chain hb hu
  induction scopes with
  | nil => simpa using hne.symm
  | cons a rest ih =>
    obtain ⟨lower, descending⟩ := List.pairwise_cons.1 descending
    by_cases has : a = s
    · subst has
      simp [hs]
    by_cases hf : m.kind? a = some .function
    · simp [hf, has]
    by_cases hm : m.kind? a = some .module
    · obtain rfl := h.eq_zero_of_module hm
      obtain rfl : rest = [] := List.eq_nil_iff_forall_not_mem.2 fun j hj =>
        absurd (lower j hj) (Nat.not_lt_zero j)
      simp [hm, has, hne]
    · have later := ih descending
      simpa [hf, hm, has, Ne.symm has] using later

theorem mem_codeReferences (h : m.Outlined o) {s : ScopeId} (hs : m.kind? s = some .function)
    {r : Reference} :
    r ∈ m.codeReferences s ↔ r ∈ m.references ∧ m.variableScope r.scope = s := by
  have part {u : Nat} {scope : Scope} (hu : m.scopes[u]? = some scope) :
      m.isPartOf s u = true ↔ m.variableScope u = s :=
    h.isPartOf_iff hs (h.length_scopes ▸ (List.getElem?_eq_some_iff.1 hu).1)
  rw [h.mem_references]
  simp only [codeReferences, List.mem_flatMap, Prod.exists, List.mem_zipIdx_iff_getElem?]
  constructor
  · rintro ⟨scope, u, hu, hr⟩
    split_ifs at hr with hpart
    · obtain ⟨rfl, -⟩ := (h.mem_references_iff hu).1 hr
      exact ⟨⟨scope, hu, hr⟩, (part hu).1 hpart⟩
    · simp at hr
  · rintro ⟨⟨scope, hu, hr⟩, hv⟩
    refine ⟨scope, r.scope, hu, ?_⟩
    rw [if_pos ((part hu).2 hv)]
    exact hr

end Scoping.Outlined

namespace Bump

def sum : Node :=
  .mk 6 none (.binary (.mk 7 none (.name "total" .load)) .add
    (.mk 8 none (.await (.mk 9 none (.name "step" .load)))))

def function : Node :=
  .mk 1 none (.function true "bump" (.mk 2 none (.parameterList ⟨[], [], none, [], [], none, []⟩))
    [.mk 3 none (.globalDecl ["total"]),
      .mk 4 none (.assign [.mk 5 none (.name "total" .store)] sum)] [] none)

/-- A coroutine that adds what it awaits to a global counter:

    async def bump():
        global total
        total = total + await step
-/
def root : Node := .mk 0 none (.module [function])

def tree : Tree := ⟨root, root.edges, rfl, pairwise_of_strictlyAscending (by cbv)⟩

theorem isGrammatical : tree.root.isGrammatical = true := by cbv

theorem root_mem : root ∈ tree.nodes := by
  rw [Tree.nodes]
  exact root.mem_preorder_self

def scoping : Scoping := ((Scoping.ofTree tree).toOption).getD ⟨tree, []⟩

theorem ofTree_tree : Scoping.ofTree tree = .ok scoping := by cbv

end Bump

end LostUpdate
