import LostUpdate.Proofs.Scope.Agreement

namespace LostUpdate

/-- What a directive places: the node of a name, or of a function. -/
def Directive.site? : Directive → Option Node
  | .use o => some o.identifier
  | .openScope .function block => some block
  | _ => none

def Directive.function? : Directive → Option Node
  | .openScope .function block => some block
  | _ => none

/-- What is shown wherever `f` shows it, `g` shows as often. -/
theorem count_filterMap_le {α β : Type} [DecidableEq β] {f g : α → Option β} {b : β} {l : List α}
    (h : ∀ a ∈ l, f a = some b → g a = some b) :
    (l.filterMap f).count b ≤ (l.filterMap g).count b := by
  rw [List.count_filterMap, List.count_filterMap]
  exact List.countP_mono_left fun a hmem ha => by simpa using h a hmem (by simpa using ha)

theorem Directive.count_function?_le [DecidableEq Node] (ds : List Directive) (f : Node) :
    (ds.filterMap Directive.function?).count f ≤ (ds.filterMap Directive.site?).count f := by
  refine count_filterMap_le fun d _ hd => ?_
  cases d with
  | openScope kind block => cases kind <;> simp_all [Directive.function?, Directive.site?]
  | _ => simp [Directive.function?] at hd

def Block.function? (b : Block) : Option Node := if b.kind = .function then some b.node else none

theorem map_placed (base : List Node) (stack : List (List Node)) (ds : List Directive) :
    (placed base stack ds).map (·.2) = ds.filterMap Directive.site? := by
  induction ds generalizing stack with
  | nil => rfl
  | cons d ds ih =>
    cases d with
    | openScope kind block => cases kind <;> simp [placed, Directive.site?, List.filterMap_cons, ih]
    | _ => simp [placed, Directive.site?, List.filterMap_cons, ih]

namespace Outline

/-- The functions of some scopes, and the root around them all. -/
def owners (root : Node) (blocks : List Block) : List ScopeId → List Node
  | [] => [root]
  | s :: rest => (blocks[s]?.bind Block.function?).toList ++ owners root blocks rest

theorem owners_ne_nil (root : Node) (blocks : List Block) (scopes : List ScopeId) :
    owners root blocks scopes ≠ [] := by
  induction scopes with
  | nil => simp [owners]
  | cons s rest ih => simp [owners, ih]

/-- The functions around each of the open scopes. -/
def stack (root : Node) (blocks : List Block) : List ScopeId → List (List Node)
  | [] => []
  | s :: rest => owners root blocks (s :: rest) :: stack root blocks rest

variable {root : Node} {blocks more : List Block} {opened : List ScopeId}

theorem headD_stack : (stack root blocks opened).headD [root] = owners root blocks opened := by
  cases opened <;> rfl

theorem tail_stack : (stack root blocks opened).tail = stack root blocks opened.tail := by
  cases opened <;> rfl

/-- Scopes that are there keep their functions. -/
theorem owners_extended (hm : blocks <+: more) (ho : ∀ s ∈ opened, s < blocks.length) :
    owners root more opened = owners root blocks opened := by
  induction opened with
  | nil => rfl
  | cons s rest ih =>
    have later := ih fun t ht => ho t (List.mem_cons_of_mem _ ht)
    have found := List.getElem?_eq_getElem (ho s List.mem_cons_self)
    simp only [owners, later, getElem?_extended hm found, found]

theorem stack_extended (hm : blocks <+: more) (ho : ∀ s ∈ opened, s < blocks.length) :
    stack root more opened = stack root blocks opened := by
  induction opened with
  | nil => rfl
  | cons s rest ih =>
    have later := ih fun t ht => ho t (List.mem_cons_of_mem _ ht)
    simp only [stack, later, owners_extended hm ho]

theorem function_blocks {ds : List Directive} {o : Outline}
    (h : ofDirectives blocks opened ds = .ok o) : o.blocks.filterMap Block.function? =
      blocks.filterMap Block.function? ++ ds.filterMap Directive.function? := by
  induction ds generalizing blocks opened o with
  | nil =>
    obtain rfl : (⟨blocks, []⟩ : Outline) = o := by simpa [ofDirectives] using h
    simp
  | cons d ds ih =>
    have entry {s : ScopeId} {e : Entry}
        (h : (ofDirectives blocks opened ds).map (addEntry s e) = .ok o) :
        o.blocks.filterMap Block.function? =
          blocks.filterMap Block.function? ++ ds.filterMap Directive.function? := by
      obtain ⟨rest, hrest, rfl⟩ := map_addEntry_eq_ok h
      have later := ih hrest
      exact later
    cases d with
    | openScope kind block =>
      have later := ih h
      rw [later, List.filterMap_append]
      cases kind <;> simp [Block.function?, Directive.function?, List.filterMap_cons]
    | closeScope => exact ih h
    | hoist name definition =>
      simp only [ofDirectives] at h
      cases hr : receiver? blocks opened with
      | none => simp [hr] at h
      | some s =>
        rw [hr] at h
        exact entry h
    | _ => exact entry h

/-- The scope to which a name belongs is inside the functions of the open scopes. -/
theorem owners_current (hb : Nested root blocks) (ho : Opened blocks opened) :
    ∃ b, blocks[opened.headD 0]? = some b ∧
      owners root blocks (opened.headD 0 :: b.enclosing) = owners root blocks opened := by
  rcases ho with rfl | ⟨j, c, hc, rfl⟩
  · refine ⟨_, hb.first, ?_⟩
    simp [owners, hb.first, Block.function?]
  · exact ⟨c, hc, rfl⟩

/-- A name is used at `x`, in a scope that stands inside the functions `os`. -/
def UsedIn (root : Node) (o : Outline) (os : List Node) (x : Node) : Prop :=
  ∃ s b occurrence, (s, Entry.use occurrence) ∈ o.entries ∧ o.blocks[s]? = some b ∧
    occurrence.identifier = x ∧ owners root o.blocks (s :: b.enclosing) = os

section UsedIn

variable {o : Outline} {os : List Node} {x : Node} {s : ScopeId}

theorem usedIn_addEntry {e : Entry} (he : ∀ occurrence, e ≠ .use occurrence) :
    (o.addEntry s e).UsedIn root os x ↔ o.UsedIn root os x := by
  have same (t : ScopeId) (occurrence : NameUse) :
      (t, Entry.use occurrence) ∈ (o.addEntry s e).entries ↔
        (t, Entry.use occurrence) ∈ o.entries := by
    simp [addEntry, (he occurrence).symm]
  simp only [UsedIn, same]
  rfl

theorem usedIn_addEntry_use {occurrence : NameUse} {b : Block} (hb : o.blocks[s]? = some b) :
    (o.addEntry s (.use occurrence)).UsedIn root os x ↔
      (os = owners root o.blocks (s :: b.enclosing) ∧ x = occurrence.identifier) ∨
        o.UsedIn root os x := by
  constructor
  · rintro ⟨t, c, other, he, hc, hother, howners⟩
    rcases List.mem_cons.1 he with heq | he
    · obtain ⟨rfl, heq⟩ := Prod.mk.inj heq
      obtain rfl : other = occurrence := by simpa using heq
      obtain rfl : c = b := Option.some.inj (hc.symm.trans hb)
      exact .inl ⟨howners.symm, hother.symm⟩
    · exact .inr ⟨t, c, other, he, hc, hother, howners⟩
  · rintro (⟨rfl, rfl⟩ | ⟨t, c, other, he, hc⟩)
    · exact ⟨s, b, occurrence, List.mem_cons_self, hb, rfl, rfl⟩
    · exact ⟨t, c, other, List.mem_cons_of_mem _ he, hc⟩

/-- Whatever is said later, the functions around the scope of a name are those of the open scopes. -/
theorem owners_settled {ds : List Directive} (hd : ∀ d ∈ ds, root.Says d)
    (hb : Nested root blocks) (ho : Opened blocks opened) (h : ofDirectives blocks opened ds = .ok o) :
    ∃ b, o.blocks[opened.headD 0]? = some b ∧
      owners root o.blocks (opened.headD 0 :: b.enclosing) = owners root blocks opened := by
  obtain ⟨b, hcurrent, hos⟩ := owners_current hb ho
  obtain ⟨grows, -, -⟩ := ofDirectives_ok hd hb ho h
  have bounds : ∀ s ∈ opened.headD 0 :: b.enclosing, s < blocks.length := by
    intro s hs
    have bound := (List.getElem?_eq_some_iff.1 hcurrent).1
    rcases List.mem_cons.1 hs with rfl | hs
    · exact bound
    · exact Nat.lt_trans (hb.lt_of_mem_enclosing hcurrent s hs) bound
  exact ⟨b, getElem?_extended grows hcurrent, (owners_extended grows bounds).trans hos⟩

/-- The places of uses and the entries of an outline tell the same: where a name is used, the
functions around are those of its scope. -/
theorem mem_placed_iff {ds : List Directive} (hd : ∀ d ∈ ds, root.Says d)
    (hb : Nested root blocks) (ho : Opened blocks opened) (h : ofDirectives blocks opened ds = .ok o)
    (hx : x.isFunctionLike = false) :
    (os, x) ∈ placed [root] (stack root blocks opened) ds ↔ o.UsedIn root os x := by
  induction ds generalizing blocks opened o with
  | nil =>
    obtain rfl : (⟨blocks, []⟩ : Outline) = o := by simpa [ofDirectives] using h
    simp [placed, UsedIn]
  | cons d ds ih =>
    have later := fun d hmem => hd d (List.mem_cons_of_mem _ hmem)
    have silent {s : ScopeId} {e : Entry} (he : ∀ occurrence, e ≠ .use occurrence)
        (h : (ofDirectives blocks opened ds).map (addEntry s e) = .ok o) :
        (os, x) ∈ placed [root] (stack root blocks opened) ds ↔ o.UsedIn root os x := by
      obtain ⟨rest, hrest, rfl⟩ := map_addEntry_eq_ok h
      rw [ih later hb ho hrest, usedIn_addEntry he]
    cases d with
    | use occurrence =>
      obtain ⟨rest, hrest, rfl⟩ := map_addEntry_eq_ok h
      obtain ⟨b, found, here⟩ := owners_settled later hb ho hrest
      rw [placed, headD_stack, List.mem_cons, Prod.mk.injEq, ih later hb ho hrest,
        usedIn_addEntry_use found, here]
    | bind name definition => exact silent (by simp) h
    | declareGlobal names => exact silent (by simp) h
    | declareNonlocal names => exact silent (by simp) h
    | hoist name definition =>
      simp only [ofDirectives] at h
      cases hr : receiver? blocks opened with
      | none => simp [hr] at h
      | some s =>
        rw [hr] at h
        exact silent (by simp) h
    | closeScope =>
      rw [placed, tail_stack]
      exact ih later hb (ho.tail hb) h
    | openScope kind block =>
      have hopens : root.Opens kind block := hd _ List.mem_cons_self
      have below : Opened (blocks ++ [⟨kind, block, opened⟩]) (blocks.length :: opened) :=
        .inr ⟨blocks.length, ⟨kind, block, opened⟩, by simp, rfl⟩
      have inner := ih later (hb.concat ho hopens) below h
      have old := hb.lt_of_mem_opened ho
      have grows : blocks <+: blocks ++ [⟨kind, block, opened⟩] := List.prefix_append _ _
      have fresh : (blocks ++ [(⟨kind, block, opened⟩ : Block)])[blocks.length]? =
          some ⟨kind, block, opened⟩ := by simp
      rw [stack, owners, stack_extended grows old, owners_extended grows old, fresh] at inner
      cases kind with
      | function =>
        have other : x ≠ block := by
          rintro rfl
          exact absurd (hopens.function_iff.1 rfl) (by simp [hx])
        rw [placed, headD_stack, List.mem_cons, ← inner]
        simp [other, Block.function?]
      | _ =>
        rw [placed, headD_stack, ← inner]
        · simp [Block.function?]
        · simp

end UsedIn

end Outline

namespace Scoping.Outlined

variable {m : Scoping} {o : Outline}

/-- The innermost function around a scope is the block of its variable scope. -/
theorem block_variableScope (h : m.Outlined o) {s : ScopeId} {b : Block}
    (hb : o.blocks[s]? = some b) : (m.scope? (m.variableScope s)).map (·.block) =
      (Outline.owners m.tree.root o.blocks (s :: b.enclosing)).head? := by
  have first : (m.scope? 0).map (·.block) = some m.tree.root := by
    rw [h.scope?_eq, h.nested.first]
    rfl
  have descending := h.nested.descending hb
  rw [variableScope, h.chain_of_block hb]
  generalize s :: b.enclosing = scopes at descending
  clear hb
  induction scopes with
  | nil => exact first
  | cons a rest ih =>
    obtain ⟨lower, descending⟩ := List.pairwise_cons.1 descending
    have later := ih descending
    by_cases hf : m.kind? a = some .function
    · obtain ⟨c, hc, hk⟩ := Option.map_eq_some_iff.1 ((h.kind?_eq a).symm.trans hf)
      simp [hf, h.scope?_eq, Outline.owners, hc, Block.function?, hk]
    have skips : (o.blocks[a]?.bind Block.function?).toList = [] := by
      rw [h.kind?_eq] at hf
      cases hc : o.blocks[a]? <;> simp_all [Block.function?]
    by_cases hm : m.kind? a = some .module
    · obtain rfl := h.eq_zero_of_module hm
      obtain rfl : rest = [] := List.eq_nil_iff_forall_not_mem.2 fun j hj =>
        absurd (lower j hj) (Nat.not_lt_zero j)
      simp [hm, first, Outline.owners, skips]
    · simpa [hm, hf, Outline.owners, skips] using later

theorem function?_of_id (h : m.Outlined o) {f : Node} (hf : f ∈ m.tree.nodes)
    (hl : f.isFunctionLike = true) (hr : m.tree.root.isFunctionLike = false) {s : ScopeId}
    {b : Block} (hb : o.blocks[s]? = some b) (hid : b.node.id = f.id) : b.function? = some f := by
  have positive : 0 < s := by
    rcases Nat.eq_zero_or_pos s with rfl | hs
    · obtain rfl : b = ⟨.module, m.tree.root, []⟩ := Option.some.inj (hb.symm.trans h.nested.first)
      obtain rfl := m.tree.eq_of_id_eq m.tree.root.mem_preorder_self hf hid
      simp [hl] at hr
    · exact hs
  have opens := h.nested.inner s b positive hb
  obtain rfl := m.tree.eq_of_id_eq opens.mem hf hid
  rw [Block.function?, if_pos (opens.function_iff.2 hl)]

/-- The scope that a function opens is the one with the function as its block. -/
theorem exists_opened (h : m.Outlined o) {f : Node} (hf : f ∈ m.tree.nodes)
    (hl : f.isFunctionLike = true) (hr : m.tree.root.isFunctionLike = false)
    (hopens : f ∈ o.blocks.filterMap Block.function?) : ∃ s b, m.opened? f.id = some s ∧
      o.blocks[s]? = some b ∧ b.function? = some f := by
  obtain ⟨c, hc, hfunction⟩ := List.mem_filterMap.1 hopens
  obtain ⟨t, ht⟩ := List.mem_iff_getElem?.1 hc
  have block : c.node = f := by
    simp only [Block.function?] at hfunction
    split_ifs at hfunction
    exact Option.some.inj hfunction
  have scope {s : ScopeId} : m.scopes[s]? = _ := h.scope?_eq s
  cases hfound : m.scopes.zipIdx.findRev? fun e => e.1.block.id = f.id with
  | none =>
    rw [List.findRev?_eq_find?_reverse, List.find?_eq_none] at hfound
    have here := scope (s := t)
    rw [ht] at here
    exact absurd (by simp [block]) (hfound (_, t)
      (List.mem_reverse.2 (List.mem_zipIdx_iff_getElem?.2 here)))
  | some e =>
    rw [List.findRev?_eq_find?_reverse] at hfound
    have hid := List.find?_some hfound
    have mem := List.mem_reverse.1 (List.mem_of_find?_eq_some hfound)
    have here := List.mem_zipIdx_iff_getElem?.1 mem
    rw [scope] at here
    obtain ⟨b, hb, hscope⟩ := Option.map_eq_some_iff.1 here
    refine ⟨e.2, b, ?_, hb, ?_⟩
    · simp [opened?, List.findRev?_eq_find?_reverse, hfound]
    · apply h.function?_of_id hf hl hr hb
      rw [← hscope] at hid
      simpa using hid

end Scoping.Outlined

/-- A list that shows nothing twice shows it at one place. -/
theorem eq_of_getElem?_of_nodup {α β : Type} {l : List α} {f : α → Option β}
    (hn : (l.filterMap f).Nodup) {i j : Nat} {a b : α} {y : β} (hi : l[i]? = some a)
    (hj : l[j]? = some b) (ha : f a = some y) (hb : f b = some y) : i = j := by
  have apart := List.pairwise_filterMap.1 hn
  rw [List.pairwise_iff_getElem] at apart
  obtain ⟨first, rfl⟩ := List.getElem?_eq_some_iff.1 hi
  obtain ⟨second, rfl⟩ := List.getElem?_eq_some_iff.1 hj
  rcases Nat.lt_trichotomy i j with hlt | heq | hlt
  · exact absurd rfl (apart i j first second hlt y ha y hb)
  · exact heq
  · exact absurd rfl (apart j i second first hlt y hb y ha)

end LostUpdate
