import LostUpdate.Proofs.Scope.Told

namespace LostUpdate

/-- What a directive adds to an outline. -/
def Directive.entry? : Directive → Option Entry
  | .use occurrence => some (.use occurrence)
  | .bind x p | .hoist x p => some (.bind x p)
  | .declareGlobal names => some (.declareGlobal names)
  | .declareNonlocal names => some (.declareNonlocal names)
  | .openScope .. | .closeScope => none

namespace Outline

def regions (blocks : List Block) (ids : List ScopeId) : List Region :=
  ids.filterMap fun s => blocks[s]?.map Block.region

/-- The regions in which stands what is said in scope `s`, innermost first. -/
def regionsAt (blocks : List Block) (s : ScopeId) : List Region :=
  match blocks[s]? with
  | some b => regions blocks (s :: b.enclosing)
  | none => []

section Numbering

variable {root : Node} {blocks more : List Block} {opened : List ScopeId}

theorem regionsAt_of_block {s : ScopeId} {b : Block} (hs : blocks[s]? = some b) :
    regionsAt blocks s = b.region :: regions blocks b.enclosing := by
  simp [regionsAt, regions, hs]

theorem regionsAt_ne_nil {s : ScopeId} (hs : s < blocks.length) : regionsAt blocks s ≠ [] := by
  rw [regionsAt_of_block (List.getElem?_eq_getElem hs)]
  simp

theorem regions_cons {s : ScopeId} {b : Block} (hs : blocks[s]? = some b) (ids : List ScopeId) :
    regions blocks (s :: ids) = b.region :: regions blocks ids := by
  simp [regions, hs]

theorem regions_extended (h : blocks <+: more) {ids : List ScopeId}
    (hids : ∀ s ∈ ids, s < blocks.length) : regions more ids = regions blocks ids := by
  refine List.filterMap_congr fun s hs => ?_
  rw [getElem?_extended h (List.getElem?_eq_getElem (hids s hs)),
    List.getElem?_eq_getElem (hids s hs)]

theorem regionsAt_extended (hb : Nested root blocks) (h : blocks <+: more) {s : ScopeId}
    (hs : s < blocks.length) : regionsAt more s = regionsAt blocks s := by
  have old := List.getElem?_eq_getElem hs
  rw [regionsAt_of_block old, regionsAt_of_block (getElem?_extended h old), regions_extended h]
  intro j hj
  exact Nat.lt_trans (hb.lt_of_mem_enclosing old j hj) hs

theorem regionsAt_zero (hb : Nested root blocks) : regionsAt blocks 0 = [.program root] := by
  rw [regionsAt_of_block hb.first]
  rfl

/-- What is said is said in the innermost of the open scopes. -/
theorem regionsAt_headD (hb : Nested root blocks) (ho : Opened blocks opened) :
    regionsAt blocks (opened.headD 0) =
      if regions blocks opened = [] then [.program root] else regions blocks opened := by
  rcases ho with rfl | ⟨j, c, hc, rfl⟩
  · exact regionsAt_zero hb
  · rw [List.headD_cons, regionsAt_of_block hc, regions_cons hc, if_neg (by simp)]

theorem regions_tail (ho : Opened blocks opened) :
    regions blocks opened.tail = (regions blocks opened).tail := by
  rcases ho with rfl | ⟨j, c, hc, rfl⟩
  · rfl
  · rw [regions_cons hc]
    rfl

theorem regions_concat (hb : Nested root blocks) (ho : Opened blocks opened) (kind : ScopeKind)
    (block : Node) :
    regions (blocks ++ [⟨kind, block, opened⟩]) (blocks.length :: opened) =
      ⟨kind, block⟩ :: regions blocks opened := by
  have last : (blocks ++ [(⟨kind, block, opened⟩ : Block)])[blocks.length]? =
      some ⟨kind, block, opened⟩ := by simp
  rw [regions_cons last, regions_extended (List.prefix_append _ _) (hb.lt_of_mem_opened ho)]
  rfl

theorem opened_concat (kind : ScopeKind) (block : Node) :
    Opened (blocks ++ [⟨kind, block, opened⟩]) (blocks.length :: opened) :=
  .inr ⟨blocks.length, ⟨kind, block, opened⟩, by simp, rfl⟩

theorem regionsAt_concat (hb : Nested root blocks) (ho : Opened blocks opened) (kind : ScopeKind)
    (block : Node) :
    (List.range (blocks ++ [(⟨kind, block, opened⟩ : Block)]).length).map
        (regionsAt (blocks ++ [⟨kind, block, opened⟩])) =
      (List.range blocks.length).map (regionsAt blocks) ++
        [⟨kind, block⟩ :: regions blocks opened] := by
  have last : (blocks ++ [(⟨kind, block, opened⟩ : Block)])[blocks.length]? =
      some ⟨kind, block, opened⟩ := by simp
  have all := regions_concat hb ho kind block
  rw [regions_cons last] at all
  rw [List.length_append, List.length_singleton, List.range_succ, List.map_append,
    List.map_singleton, regionsAt_of_block last, all]
  congr 1
  refine List.map_congr_left fun s hs => ?_
  exact regionsAt_extended hb (List.prefix_append _ _) (List.mem_range.1 hs)

theorem passesBindings_region (b : Block) : b.region.passesBindings = b.passesBindings := rfl

/-- A binding that passes outwards is received where the regions say. -/
theorem dropWhile_regions (hb : Nested root blocks) (ho : Opened blocks opened) :
    (regions blocks opened).dropWhile (·.passesBindings) =
      match receiver? blocks opened with
      | some s => regionsAt blocks s
      | none => [] := by
  induction opened with
  | nil => rfl
  | cons s rest ih =>
    have later := ih (ho.tail hb)
    obtain ⟨j, c, hc, heq⟩ := ho.resolve_left (by simp)
    obtain ⟨rfl, rfl⟩ := List.cons.inj heq
    rw [regions_cons hc]
    by_cases hp : c.passesBindings = true
    · have skips : receiver? blocks (s :: c.enclosing) = receiver? blocks c.enclosing := by
        simp [receiver?, hc, hp]
      rw [List.dropWhile_cons_of_pos (by rwa [passesBindings_region]), later, skips]
    · have found : receiver? blocks (s :: c.enclosing) = some s := by
        simp [receiver?, hc, hp]
      rw [List.dropWhile_cons_of_neg (by rwa [passesBindings_region]), found]
      exact (regionsAt_of_block hc).symm

end Numbering

/-- The outline has an entry for whatever is said, under a scope that stands for the regions which it is
said to, and a scope for each region that is opened. -/
structure Matches (o : Outline) (known : List (List Region))
    (l : List (List Region × Directive)) : Prop where
  entries : o.entries.map (fun e => (regionsAt o.blocks e.1, e.2)) =
    l.filterMap fun (bs, d) => d.entry?.map fun e => (bs, e)
  regions : (List.range o.blocks.length).map (regionsAt o.blocks) = known ++ openings (told l)

section Matches

variable {root : Node} {ds : List Directive} {blocks : List Block} {opened : List ScopeId}
  {o : Outline}

theorem matches_ofDirectives (hd : ∀ d ∈ ds, root.Says d) (hb : Nested root blocks)
    (ho : Opened blocks opened) (h : ofDirectives blocks opened ds = .ok o) :
    o.Matches ((List.range blocks.length).map (regionsAt blocks))
      (located (.program root) (regions blocks opened) ds) := by
  induction ds generalizing blocks opened o with
  | nil =>
    obtain rfl : (⟨blocks, []⟩ : Outline) = o := by simpa [ofDirectives] using h
    exact ⟨rfl, by simp [located, told, openings]⟩
  | cons d ds ih =>
    have later := fun e he => hd e (List.mem_cons_of_mem _ he)
    -- what makes an entry of scope `s`, said to the regions `bs`
    have entry {s : ScopeId} (hs : s < blocks.length) {e : Entry} {bs : List Region}
        (hbs : regionsAt blocks s = bs)
        (hl : located (.program root) (regions blocks opened) (d :: ds) =
          (bs, d) :: located (.program root) (regions blocks opened) ds)
        (he : d.entry? = some e) (hf : ∀ cs, openings (told [(cs, d)]) = [])
        (h : (ofDirectives blocks opened ds).map (addEntry s e) = .ok o) :
        o.Matches ((List.range blocks.length).map (regionsAt blocks))
          (located (.program root) (regions blocks opened) (d :: ds)) := by
      obtain ⟨rest, hrest, rfl⟩ := map_addEntry_eq_ok h
      have grows := (ofDirectives_ok later hb ho hrest).1
      have inner := ih later hb ho hrest
      have same : regionsAt rest.blocks s = bs := by rw [regionsAt_extended hb grows hs, hbs]
      rw [hl]
      refine ⟨?_, ?_⟩
      · simpa [addEntry, he, same] using inner.entries
      · have split : openings (told ((bs, d) :: located (.program root) (regions blocks opened) ds)) =
            openings (told [(bs, d)]) ++
              openings (told (located (.program root) (regions blocks opened) ds)) := by
          rw [openings, openings, openings, ← List.filterMap_append, ← told_append]
          rfl
        rw [split, hf]
        exact inner.regions
    have head := regionsAt_headD hb ho
    cases d with
    | use occurrence => exact entry (hb.headD_lt ho) head rfl rfl (fun _ => rfl) h
    | bind name definition => exact entry (hb.headD_lt ho) head rfl rfl (fun _ => rfl) h
    | declareGlobal names => exact entry (hb.headD_lt ho) head rfl rfl (fun _ => rfl) h
    | declareNonlocal names => exact entry (hb.headD_lt ho) head rfl rfl (fun _ => rfl) h
    | hoist name definition =>
      have received := dropWhile_regions hb ho
      simp only [ofDirectives] at h
      cases hr : receiver? blocks opened with
      | none => simp [hr] at h
      | some s =>
        rw [hr] at h received
        exact entry (hb.lt_of_mem_opened ho s (List.mem_of_find?_eq_some hr)) received.symm rfl rfl
          (fun _ => rfl) h
    | openScope kind block =>
      have hopens : root.Opens kind block := hd _ List.mem_cons_self
      have inner := ih later (hb.concat ho hopens) (opened_concat kind block) h
      rw [regions_concat hb ho, regionsAt_concat hb ho] at inner
      refine ⟨inner.entries, ?_⟩
      rw [inner.regions, List.append_assoc]
      rfl
    | closeScope =>
      have inner := ih later hb (ho.tail hb) h
      rwa [regions_tail ho] at inner

/-- There is an outline if every binding that passes outwards is received. -/
theorem exists_ofDirectives (hd : ∀ d ∈ ds, root.Says d) (hb : Nested root blocks)
    (ho : Opened blocks opened)
    (hr : ∀ x p, ([], Directive.hoist x p) ∉
      located (.program root) (regions blocks opened) ds) :
    ∃ o, ofDirectives blocks opened ds = .ok o := by
  induction ds generalizing blocks opened with
  | nil => exact ⟨_, rfl⟩
  | cons d ds ih =>
    have later := fun e he => hd e (List.mem_cons_of_mem _ he)
    have entry (s : ScopeId) (e : Entry)
        (hl : ∀ x p, ([], Directive.hoist x p) ∉
          located (.program root) (regions blocks opened) ds) :
        ∃ o, (ofDirectives blocks opened ds).map (addEntry s e) = .ok o := by
      obtain ⟨rest, hrest⟩ := ih later hb ho hl
      exact ⟨rest.addEntry s e, by rw [hrest]; rfl⟩
    have rest (hl : ∃ e, located (.program root) (regions blocks opened) (d :: ds) =
        e :: located (.program root) (regions blocks opened) ds) :
        ∀ x p, ([], Directive.hoist x p) ∉ located (.program root) (regions blocks opened) ds := by
      intro x p hmem
      obtain ⟨e, he⟩ := hl
      exact hr x p (he ▸ List.mem_cons_of_mem _ hmem)
    cases d with
    | use occurrence => exact entry _ _ (rest ⟨_, rfl⟩)
    | bind name definition => exact entry _ _ (rest ⟨_, rfl⟩)
    | declareGlobal names => exact entry _ _ (rest ⟨_, rfl⟩)
    | declareNonlocal names => exact entry _ _ (rest ⟨_, rfl⟩)
    | hoist name definition =>
      have received := dropWhile_regions hb ho
      rw [ofDirectives]
      cases hs : receiver? blocks opened with
      | none =>
        rw [hs] at received
        refine absurd ?_ (hr name definition)
        rw [located, received]
        exact List.mem_cons_self
      | some s => exact entry _ _ (rest ⟨_, rfl⟩)
    | openScope kind block =>
      have hopens : root.Opens kind block := hd _ List.mem_cons_self
      refine ih later (hb.concat ho hopens) (opened_concat kind block) ?_
      rw [regions_concat hb ho]
      intro x p hmem
      exact hr x p (List.mem_cons_of_mem _ hmem)
    | closeScope =>
      refine ih later hb (ho.tail hb) ?_
      rw [regions_tail ho]
      exact hr

end Matches

end Outline

end LostUpdate
