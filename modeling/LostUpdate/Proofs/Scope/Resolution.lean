import LostUpdate.Proofs.Scope.Regions

namespace LostUpdate

namespace Outline

section Bindings

variable {declarations entries : List (ScopeId × Entry)} {s : ScopeId} {x : String}

theorem mem_declaredGlobal : x ∈ declaredGlobal entries s ↔
    ∃ names, (s, Entry.declareGlobal names) ∈ entries ∧ x ∈ names := by
  simp only [declaredGlobal, List.mem_flatMap, Prod.exists]
  constructor
  · rintro ⟨u, e, he, hx⟩
    cases e with
    | declareGlobal names =>
      simp only at hx
      split_ifs at hx with hu
      · exact ⟨names, hu ▸ he, hx⟩
      · simp at hx
    | _ => simp at hx
  · rintro ⟨names, he, hx⟩
    exact ⟨s, _, he, by simpa using hx⟩

theorem mem_declaredNonlocal : x ∈ declaredNonlocal entries s ↔
    ∃ names, (s, Entry.declareNonlocal names) ∈ entries ∧ x ∈ names := by
  simp only [declaredNonlocal, List.mem_flatMap, Prod.exists]
  constructor
  · rintro ⟨u, e, he, hx⟩
    cases e with
    | declareNonlocal names =>
      simp only at hx
      split_ifs at hx with hu
      · exact ⟨names, hu ▸ he, hx⟩
      · simp at hx
    | _ => simp at hx
  · rintro ⟨names, he, hx⟩
    exact ⟨s, _, he, by simpa using hx⟩

theorem declaredGlobal_mono {all : List (ScopeId × Entry)} (ha : entries ⊆ all)
    (h : x ∈ declaredGlobal entries s) : x ∈ declaredGlobal all s := by
  obtain ⟨names, hmem, hx⟩ := mem_declaredGlobal.1 h
  exact mem_declaredGlobal.2 ⟨names, ha hmem, hx⟩

theorem declaredNonlocal_mono {all : List (ScopeId × Entry)} (ha : entries ⊆ all)
    (h : x ∈ declaredNonlocal entries s) : x ∈ declaredNonlocal all s := by
  obtain ⟨names, hmem, hx⟩ := mem_declaredNonlocal.1 h
  exact mem_declaredNonlocal.2 ⟨names, ha hmem, hx⟩

/-- Something is bound where a binding stands, or at the root for a `global` declaration. -/
theorem exists_entry_of_binding {all : List (ScopeId × Entry)} (hd : declarations ⊆ all)
    (he : entries ⊆ all) {b : Binding} (h : b ∈ bindingsAfter declarations entries) :
    (∃ p, (b.scope, Entry.bind b.name p) ∈ all) ∨
      (b.scope = 0 ∧ ∃ u, b.name ∈ declaredGlobal all u) := by
  induction entries generalizing declarations with
  | nil => simp [bindingsAfter] at h
  | cons e entries ih =>
    obtain ⟨u, e⟩ := e
    obtain ⟨here, later⟩ := List.cons_subset.1 he
    have further := List.cons_subset.2 ⟨here, hd⟩
    cases e with
    | use occurrence => exact ih hd later h
    | bind name definition =>
      simp only [bindingsAfter] at h
      split_ifs at h with hglobal hnonlocal
      · rcases List.mem_cons.1 h with rfl | h
        · exact .inr ⟨rfl, u, declaredGlobal_mono hd hglobal⟩
        · exact ih hd later h
      · exact ih hd later h
      · rcases List.mem_cons.1 h with rfl | h
        · exact .inl ⟨definition, here⟩
        · exact ih hd later h
    | declareGlobal names =>
      rcases List.mem_append.1 h with h | h
      · obtain ⟨name, hname, rfl⟩ := List.mem_map.1 h
        exact .inr ⟨rfl, u, mem_declaredGlobal.2 ⟨names, here, hname⟩⟩
      · exact ih further later h
    | declareNonlocal names => exact ih further later h

/-- A name is bound where a binding of it stands, unless it is declared to belong elsewhere. -/
theorem exists_binding {all : List (ScopeId × Entry)} (hd : declarations ⊆ all)
    (he : entries ⊆ all) {p : Node} (h : (s, Entry.bind x p) ∈ entries)
    (hg : x ∉ declaredGlobal all s) (hn : x ∉ declaredNonlocal all s) :
    ∃ b ∈ bindingsAfter declarations entries, b.scope = s ∧ b.name = x := by
  induction entries generalizing declarations with
  | nil => simp at h
  | cons e entries ih =>
    obtain ⟨u, e⟩ := e
    obtain ⟨here, later⟩ := List.cons_subset.1 he
    have further := List.cons_subset.2 ⟨here, hd⟩
    cases e with
    | use occurrence => exact ih hd later (by simpa using h)
    | bind name definition =>
      rcases List.mem_cons.1 h with h | h
      · obtain ⟨rfl, rfl, rfl⟩ : s = u ∧ x = name ∧ p = definition := by simpa using h
        have apart : x ∉ declaredGlobal declarations s := fun hx => hg (declaredGlobal_mono hd hx)
        have outer : x ∉ declaredNonlocal declarations s :=
          fun hx => hn (declaredNonlocal_mono hd hx)
        exact ⟨⟨s, x, some p⟩, by simp [bindingsAfter, apart, outer], rfl, rfl⟩
      · obtain ⟨b, hb, hs⟩ := ih hd later h
        refine ⟨b, ?_, hs⟩
        simp only [bindingsAfter]
        split_ifs
        · exact List.mem_cons_of_mem _ hb
        · exact hb
        · exact List.mem_cons_of_mem _ hb
    | declareGlobal names =>
      obtain ⟨b, hb, hs⟩ := ih further later (by simpa using h)
      exact ⟨b, List.mem_append_right _ hb, hs⟩
    | declareNonlocal names => exact ih further later (by simpa using h)

/-- The root binds what any scope declares `global`. -/
theorem exists_binding_of_global (h : x ∈ declaredGlobal entries s) :
    ∃ b ∈ bindingsAfter declarations entries, b.scope = 0 ∧ b.name = x := by
  obtain ⟨names, hmem, hx⟩ := mem_declaredGlobal.1 h
  clear h
  induction entries generalizing declarations with
  | nil => simp at hmem
  | cons e entries ih =>
    obtain ⟨u, e⟩ := e
    cases e with
    | use occurrence => exact ih (by simpa using hmem)
    | bind name definition =>
      have found : ∃ b ∈ bindingsAfter declarations entries, b.scope = 0 ∧ b.name = x :=
        ih (by simpa using hmem)
      obtain ⟨b, hb, hs⟩ := found
      refine ⟨b, ?_, hs⟩
      simp only [bindingsAfter]
      split_ifs
      · exact List.mem_cons_of_mem _ hb
      · exact hb
      · exact List.mem_cons_of_mem _ hb
    | declareGlobal names' =>
      rcases List.mem_cons.1 hmem with hmem | hmem
      · obtain ⟨rfl, rfl⟩ : s = u ∧ names = names' := by simpa using hmem
        exact ⟨⟨0, x, none⟩, List.mem_append_left _ (List.mem_map_of_mem hx), rfl, rfl⟩
      · obtain ⟨b, hb, hs⟩ := ih hmem
        exact ⟨b, List.mem_append_right _ hb, hs⟩
    | declareNonlocal names' => exact ih (by simpa using hmem)

end Bindings

end Outline

/-- What an entry says to the regions of its scope. -/
def Entry.fact? : Entry → Option Fact
  | .use _ => none
  | .bind x _ => some (.binds x)
  | .declareGlobal names => some (.declaresGlobal names)
  | .declareNonlocal names => some (.declaresNonlocal names)

theorem Directive.fact?_eq_some_iff {d : Directive} {f : Fact} (hf : f ≠ .opens) :
    d.fact? = some f ↔ ∃ e, d.entry? = some e ∧ e.fact? = some f := by
  cases d <;> simp [fact?, entry?, Entry.fact?, hf.symm]

/-- A binding in `root` passes all scopes of it. -/
def Node.LetsOut (root : Node) : Prop :=
  ∃ cs p x, Stands [.program root] root cs p ∧ p.hoistedName? = some x ∧
    ∀ r ∈ cs, r.passesBindings = true

theorem Node.LetsOut.passesBindings {root : Node} (h : root.LetsOut) :
    (Region.program root).passesBindings = true := by
  obtain ⟨cs, p, x, hp, -, passes⟩ := h
  exact passes _ ((suffix_of_stands hp).subset (List.mem_singleton_self _))

namespace Outline

theorem told_program (t : ParsedTree) :
    (told (located (.program t.root) [.program t.root] t.root.directives)).Perm
      (t.root.facts [.program t.root]) := by
  have all := (Node.told t.isGrammatical t.isMarked).whole.facts (.program t.root)
    [.program t.root] (by simp)
  simpa using all

section Entries

variable {root : Node} {o : Outline} (ho : ofRoot root = .ok o)

include ho

theorem matches_ofRoot :
    o.Matches [[.program root]] (located (.program root) [.program root] root.directives) := by
  have all := matches_ofDirectives (fun d hd => Node.says_of_mem hd) (nested_root root)
    (opened_root root) ho
  exact all

theorem exists_entry_iff {e : Entry} {cs : List Region} :
    (∃ s, (s, e) ∈ o.entries ∧ regionsAt o.blocks s = cs) ↔
      ∃ d, (cs, d) ∈ located (.program root) [.program root] root.directives ∧
        d.entry? = some e := by
  have same := iff_of_eq (congrArg (fun l => (cs, e) ∈ l) (matches_ofRoot ho).entries)
  simp only [List.mem_map, List.mem_filterMap, Prod.exists, Prod.mk.injEq,
    Option.map_eq_some_iff] at same
  constructor
  · rintro ⟨s, hmem, rfl⟩
    obtain ⟨bs, d, hd, e', he', rfl, rfl⟩ := same.1 ⟨s, e, hmem, rfl, rfl⟩
    exact ⟨d, hd, he'⟩
  · rintro ⟨d, hd, he⟩
    obtain ⟨s, e', hmem, hs, rfl⟩ := same.2 ⟨cs, d, hd, e, he, rfl, rfl⟩
    exact ⟨s, hmem, hs⟩

end Entries

section Program

variable {t : ParsedTree} {o : Outline} (ho : ofRoot t.root = .ok o)

include ho

/-- The entries of the outline are the facts of the program, but that a region is there. -/
theorem mem_facts_iff {f : Fact} (hf : f ≠ .opens) {cs : List Region} :
    (cs, f) ∈ t.root.facts [.program t.root] ↔
      ∃ s e, (s, e) ∈ o.entries ∧ e.fact? = some f ∧ regionsAt o.blocks s = cs := by
  rw [← (told_program t).mem_iff, told, List.mem_filterMap]
  simp only [Prod.exists, Option.map_eq_some_iff, Prod.mk.injEq]
  constructor
  · rintro ⟨bs, d, hd, f', hf', rfl, rfl⟩
    obtain ⟨e, he, hef⟩ := (Directive.fact?_eq_some_iff hf).1 hf'
    obtain ⟨s, hmem, hs⟩ := (exists_entry_iff ho).2 ⟨d, hd, he⟩
    exact ⟨s, e, hmem, hef, hs⟩
  · rintro ⟨s, e, hmem, hef, hs⟩
    obtain ⟨d, hd, he⟩ := (exists_entry_iff ho).1 ⟨s, hmem, hs⟩
    exact ⟨cs, d, hd, f, (Directive.fact?_eq_some_iff hf).2 ⟨e, he, hef⟩, rfl, rfl⟩

/-- Different scopes stand for different regions. -/
theorem regionsAt_injective {s u : ScopeId} (hs : s < o.blocks.length)
    (hu : u < o.blocks.length) (h : regionsAt o.blocks s = regionsAt o.blocks u) : s = u := by
  have opens := openings_perm (told_program t)
  have single : ([[Region.program t.root]] ++ openings (t.root.facts [.program t.root])).Nodup := by
    have distinct := nodup_openings t.isGrammatical t.nodup_ids.of_map [.program t.root]
    refine List.nodup_append.2 ⟨List.nodup_singleton _, distinct, ?_⟩
    intro cs hcs ds hds
    obtain rfl := List.mem_singleton.1 hcs
    simp only [openings, List.mem_filterMap, Prod.exists] at hds
    obtain ⟨bs, f, hmem, hf⟩ := hds
    cases f <;> simp only [Option.some.injEq, reduceCtorEq] at hf
    subst hf
    obtain ⟨p, ds, hp, -, rfl⟩ := Node.mem_facts_opens.1 hmem
    have outer := (Node.suffix_of_stands hp).length_le
    rintro heq
    have lengths := congrArg List.length heq
    simp only [List.length_cons, List.length_nil] at lengths outer
    omega
  have all : ((List.range o.blocks.length).map (regionsAt o.blocks)).Nodup := by
    rw [(matches_ofRoot ho).regions]
    exact ((opens.append_left [[Region.program t.root]]).nodup_iff).2 single
  exact List.inj_on_of_nodup_map all (List.mem_range.2 hs) (List.mem_range.2 hu) h

end Program

/-- A program has an outline if and only if no binding leaves it. -/
theorem exists_ofRoot_iff (t : ParsedTree) : (∃ o, ofRoot t.root = .ok o) ↔ ¬ t.root.LetsOut := by
  have meant : ∀ d ∈ t.root.directives, t.root.Says d := fun d hd => Node.says_of_mem hd
  have leaves : ∀ x, ([], Fact.binds x) ∈ t.root.facts [.program t.root] ↔
      ∃ cs q, Node.Stands [.program t.root] t.root cs q ∧ q.hoistedName? = some x ∧
        ∀ r ∈ cs, r.passesBindings = true := by
    intro x
    rw [Node.mem_facts_binds]
    constructor
    · rintro (⟨q, hq, -⟩ | ⟨q, ds, -, -, h⟩ | ⟨q, ds, hq, hx, h⟩)
      · have inner := (Node.suffix_of_stands hq).length_le
        simp at inner
      · simp at h
      · exact ⟨ds, q, hq, hx, List.dropWhile_eq_nil_iff.1 h.symm⟩
    · rintro ⟨cs, q, hq, hx, passes⟩
      exact .inr (.inr ⟨q, cs, hq, hx, (List.dropWhile_eq_nil_iff.2 passes).symm⟩)
  constructor
  · rintro ⟨o, ho⟩ ⟨cs, q, x, hq, hx, passes⟩
    obtain ⟨s, e, hmem, -, hs⟩ :=
      (mem_facts_iff ho (by simp)).1 ((leaves x).2 ⟨cs, q, hq, hx, passes⟩)
    exact regionsAt_ne_nil ((ofRoot_ok ho).2 _ hmem).1 hs
  · intro kept
    refine exists_ofDirectives meant (nested_root t.root) (opened_root t.root) fun x q hmem => kept ?_
    have told : ([], Fact.binds x) ∈ told (located (.program t.root) [.program t.root] t.root.directives) :=
      List.mem_filterMap.2 ⟨_, hmem, rfl⟩
    rw [(told_program t).mem_iff, leaves] at told
    obtain ⟨cs, q, hq, hx, passes⟩ := told
    exact ⟨cs, q, x, hq, hx, passes⟩

/-- A program has an outline, unless it is a lone expression that lets a binding out. -/
theorem exists_ofRoot {t : ParsedTree}
    (hroot : (Region.program t.root).passesBindings = false) : ∃ o, ofRoot t.root = .ok o :=
  (exists_ofRoot_iff t).2 fun leaves => by simp [leaves.passesBindings] at hroot

end Outline

namespace Scoping

/-- The regions that a scope and the scopes around it stand for, innermost first. -/
def regions (m : Scoping) (s : ScopeId) : List Region :=
  (m.chain s).filterMap fun u => (m.scope? u).map fun scope => ⟨scope.kind, scope.block⟩

/-- Scope `u` decides what `x` means in scope `s`, from which it is seen: it declares the name
`global`, or it binds it and does not leave it to an outer function. -/
def Decides (m : Scoping) (s : ScopeId) (x : String) (u : ScopeId) : Prop :=
  (u = s ∨ m.kind? u ≠ some .classBody) ∧
    (m.tree.root.DeclaresGlobal (m.regions u) x ∨
      m.tree.root.Binds (m.regions u) x ∧ ¬ m.tree.root.DeclaresNonlocal (m.regions u) x)

open Classical in
/-- The scope whose variable `x` means in scope `s`, by the rule of the language: the first scope
outwards that decides it, or the root if that one says so. -/
noncomputable def ruling (m : Scoping) (s : ScopeId) (x : String) : Option ScopeId :=
  ((m.chain s).find? fun u => m.Decides s x u).map fun u =>
    if m.tree.root.DeclaresGlobal (m.regions u) x then 0 else u

namespace Outlined

variable {m : Scoping} {o : Outline}

theorem regions_eq (h : m.Outlined o) (s : ScopeId) :
    m.regions s = Outline.regionsAt o.blocks s := by
  rw [regions, Outline.regionsAt]
  have same : (fun u => (m.scope? u).map fun scope => (⟨scope.kind, scope.block⟩ : Region)) =
      fun u => o.blocks[u]?.map Block.region := by
    funext u
    rw [h.scope?_eq]
    cases o.blocks[u]? <;> rfl
  rw [same]
  cases hs : o.blocks[s]? with
  | none =>
    have scope : m.scope? s = none := by rw [h.scope?_eq, hs]; rfl
    simp [chain, scope]
  | some b =>
    rw [h.chain_of_block hs]
    rfl

theorem binds_iff (h : m.Outlined o) {s : ScopeId} {x : String} (hs : s < o.blocks.length) :
    m.binds s x = true ↔ ∃ b ∈ o.bindings, b.scope = s ∧ b.name = x := by
  have scope := h.scope?_eq s
  rw [List.getElem?_eq_getElem hs] at scope
  simp only [binds, scope, Option.map_some, Scope.binds, Outline.variableList, List.any_map,
    List.any_eq_true, List.mem_eraseDups, List.mem_map, List.mem_filter, Function.comp_apply,
    decide_eq_true_eq]
  constructor
  · rintro ⟨_, ⟨b, ⟨hb, hscope⟩, rfl⟩, rfl⟩
    exact ⟨b, hb, hscope, rfl⟩
  · rintro ⟨b, hb, hscope, rfl⟩
    exact ⟨_, ⟨b, ⟨hb, hscope⟩, rfl⟩, rfl⟩

end Outlined

namespace Parsed

variable {m : Scoping} {o : Outline}

section Rule

variable (h : m.Parsed o) {s : ScopeId} {x : String}

include h

theorem exists_entry {f : Fact} (hf : f ≠ .opens) (hs : s < o.blocks.length) :
    (m.regions s, f) ∈ m.tree.root.facts [.program m.tree.root] ↔
      ∃ e, (s, e) ∈ o.entries ∧ e.fact? = some f := by
  rw [h.regions_eq, Outline.mem_facts_iff (t := h.tree) h.outline hf]
  constructor
  · rintro ⟨u, e, hmem, he, heq⟩
    have hu := ((Outline.ofRoot_ok h.outline).2 _ hmem).1
    obtain rfl := Outline.regionsAt_injective (t := h.tree) h.outline hu hs heq
    exact ⟨e, hmem, he⟩
  · rintro ⟨e, hmem, he⟩
    exact ⟨s, e, hmem, he, rfl⟩

theorem declaresGlobal_iff (hs : s < o.blocks.length) :
    m.tree.root.DeclaresGlobal (m.regions s) x ↔ x ∈ Outline.declaredGlobal o.entries s := by
  rw [Node.declaresGlobal_iff, Outline.mem_declaredGlobal]
  refine exists_congr fun names => and_congr_left fun _ => ?_
  rw [h.exists_entry (by simp) hs]
  constructor
  · rintro ⟨e, hmem, he⟩
    cases e <;> simp [Entry.fact?] at he
    exact he ▸ hmem
  · intro hmem
    exact ⟨_, hmem, rfl⟩

theorem declaresNonlocal_iff (hs : s < o.blocks.length) :
    m.tree.root.DeclaresNonlocal (m.regions s) x ↔ x ∈ Outline.declaredNonlocal o.entries s := by
  rw [Node.declaresNonlocal_iff, Outline.mem_declaredNonlocal]
  refine exists_congr fun names => and_congr_left fun _ => ?_
  rw [h.exists_entry (by simp) hs]
  constructor
  · rintro ⟨e, hmem, he⟩
    cases e <;> simp [Entry.fact?] at he
    exact he ▸ hmem
  · intro hmem
    exact ⟨_, hmem, rfl⟩

/-- By the rule a scope binds what an entry of it binds, and the root what is declared `global`. -/
theorem ruleBinds_iff (hs : s < o.blocks.length) : m.tree.root.Binds (m.regions s) x ↔
    (∃ p, (s, Entry.bind x p) ∈ o.entries) ∨
      (s = 0 ∧ ∃ u, x ∈ Outline.declaredGlobal o.entries u) := by
  have nonempty : m.regions s ≠ [] := by
    rw [h.regions_eq]
    exact Outline.regionsAt_ne_nil hs
  have root : m.regions s = [.program m.tree.root] ↔ s = 0 := by
    rw [h.regions_eq, ← Outline.regionsAt_zero h.nested]
    constructor
    · exact Outline.regionsAt_injective (t := h.tree) h.outline hs h.nested.length_pos
    · rintro rfl
      rfl
  rw [Node.binds_iff nonempty, root, h.exists_entry (by simp) hs]
  refine or_congr ?_ (and_congr_right fun _ => ?_)
  · constructor
    · rintro ⟨e, hmem, he⟩
      cases e <;> simp [Entry.fact?] at he
      exact ⟨_, he ▸ hmem⟩
    · rintro ⟨p, hmem⟩
      exact ⟨_, hmem, rfl⟩
  · constructor
    · rintro ⟨ds, hds⟩
      obtain ⟨names, hfact, hx⟩ := Node.declaresGlobal_iff.1 hds
      obtain ⟨u, e, hmem, he, -⟩ :=
        (Outline.mem_facts_iff (t := h.tree) h.outline (by simp)).1 hfact
      cases e <;> simp [Entry.fact?] at he
      exact ⟨u, Outline.mem_declaredGlobal.2 ⟨names, he ▸ hmem, hx⟩⟩
    · rintro ⟨u, hu⟩
      obtain ⟨names, hmem, -⟩ := Outline.mem_declaredGlobal.1 hu
      have bound := ((Outline.ofRoot_ok h.outline).2 _ hmem).1
      exact ⟨_, (h.declaresGlobal_iff bound).2 hu⟩

/-- A scope has the variables that it binds by the rule, but for names declared to belong
elsewhere. -/
theorem binds_iff_rule (hs : s < o.blocks.length)
    (hglobal : ¬ m.tree.root.DeclaresGlobal (m.regions s) x)
    (hnonlocal : ¬ m.tree.root.DeclaresNonlocal (m.regions s) x) :
    m.binds s x = true ↔ m.tree.root.Binds (m.regions s) x := by
  rw [h.declaresGlobal_iff hs] at hglobal
  rw [h.declaresNonlocal_iff hs] at hnonlocal
  rw [h.binds_iff hs, h.ruleBinds_iff hs]
  constructor
  · rintro ⟨b, hb, rfl, rfl⟩
    exact Outline.exists_entry_of_binding (List.nil_subset _) (List.Subset.refl _) hb
  · rintro (⟨p, hp⟩ | ⟨rfl, u, hu⟩)
    · exact Outline.exists_binding (List.nil_subset _) (List.Subset.refl _) hp hglobal hnonlocal
    · exact Outline.exists_binding_of_global hu

theorem binds_zero (hs : s < o.blocks.length)
    (hglobal : m.tree.root.DeclaresGlobal (m.regions s) x) : m.binds 0 x = true := by
  rw [h.binds_iff h.nested.length_pos]
  exact Outline.exists_binding_of_global ((h.declaresGlobal_iff hs).1 hglobal)

/-- A lookup stops at the first scope that decides what the name means. -/
theorem lookupIn_cons (start : ScopeId) {u : ScopeId} (hu : u < o.blocks.length)
    (rest : List ScopeId) :
    (m.Decides start x u → m.tree.root.DeclaresGlobal (m.regions u) x →
      m.lookupIn start x (u :: rest) = some 0) ∧
    (m.Decides start x u → ¬ m.tree.root.DeclaresGlobal (m.regions u) x →
      m.lookupIn start x (u :: rest) = some u) ∧
    (¬ m.Decides start x u → m.lookupIn start x (u :: rest) = m.lookupIn start x rest) := by
  have zero := h.binds_zero (x := x) hu
  have own := h.binds_iff_rule (x := x) hu
  have found := h.scope?_eq u
  rw [List.getElem?_eq_getElem hu, Option.map_some] at found
  rw [Decides, h.kind?_eq, List.getElem?_eq_getElem hu, lookupIn, found]
  rw [binds, found] at own
  rw [h.declaresGlobal_iff hu] at zero own ⊢
  rw [h.declaresNonlocal_iff hu] at own ⊢
  refine ⟨?_, ?_, ?_⟩
  · rintro ⟨seen, -⟩ hglobal
    simp_all
  · rintro ⟨seen, decided⟩ hglobal
    have decided := decided.resolve_left hglobal
    have bound := (own hglobal decided.2).2 decided.1
    simp_all
  · intro undecided
    by_cases seen : u = start ∨ o.blocks[u].kind ≠ .classBody
    · have hglobal : x ∉ Outline.declaredGlobal o.entries u := fun hx =>
        undecided ⟨by simpa using seen, .inl hx⟩
      have unbound : x ∉ Outline.declaredNonlocal o.entries u → ¬ _ := fun hx hbound =>
        undecided ⟨by simpa using seen, .inr ⟨(own hglobal hx).1 hbound, hx⟩⟩
      simp only [seen, hglobal, if_true, if_false]
      rw [if_neg fun hboth => unbound hboth.1 hboth.2]
    · simp only [seen, if_false]

/-- A lookup comes to what the rule says. -/
theorem lookup_eq_ruling (hs : s < o.blocks.length) : m.lookup s x = m.ruling s x := by
  have valid : ∀ u ∈ m.chain s, u < o.blocks.length := by
    have hb := List.getElem?_eq_getElem hs
    rw [h.chain_of_block hb]
    intro u hu
    rcases List.mem_cons.1 hu with rfl | hu
    · exact hs
    · exact Nat.lt_trans (h.nested.lt_of_mem_enclosing hb u hu) hs
  rw [lookup, ruling]
  generalize m.chain s = ids at valid
  induction ids with
  | nil => rfl
  | cons u rest ih =>
    have later := ih fun v hv => valid v (List.mem_cons_of_mem _ hv)
    obtain ⟨global, own, skip⟩ := h.lookupIn_cons (x := x) s (valid u List.mem_cons_self) rest
    by_cases hd : m.Decides s x u
    · rw [List.find?_cons_of_pos (by simpa using hd), Option.map_some]
      split_ifs with hglobal
      · exact global hd hglobal
      · exact own hd hglobal
    · rw [skip hd, later, List.find?_cons_of_neg (by simpa using hd)]

/-- A name means a variable that is there. -/
theorem binds_of_ruling {u : ScopeId} (hs : s < o.blocks.length) (hu : m.ruling s x = some u) :
    m.binds u x = true := by
  rw [ruling, Option.map_eq_some_iff] at hu
  obtain ⟨v, hv, rfl⟩ := hu
  have mem := List.mem_of_find?_eq_some hv
  have decides : m.Decides s x v := by simpa using List.find?_some hv
  have bound : v < o.blocks.length := by
    have hb := List.getElem?_eq_getElem hs
    rw [h.chain_of_block hb] at mem
    rcases List.mem_cons.1 mem with rfl | hv
    · exact hs
    · exact Nat.lt_trans (h.nested.lt_of_mem_enclosing hb v hv) hs
  split_ifs with hglobal
  · exact h.binds_zero bound hglobal
  · obtain ⟨hbinds, hnonlocal⟩ := decides.2.resolve_left hglobal
    exact (h.binds_iff_rule bound hglobal hnonlocal).2 hbinds

/-- A reference stands in the regions of its scope. -/
theorem uses_of_reference {r : Reference} (hr : r ∈ m.references) :
    m.tree.root.Uses [.program m.tree.root] (m.regions r.scope) r.toNameUse := by
  have entry := (h.mem_references_iff_entry.1 hr).2
  obtain ⟨d, hd, he⟩ := (Outline.exists_entry_iff h.outline).1 ⟨r.scope, entry, rfl⟩
  obtain rfl : d = .use r.toNameUse := by cases d <;> simp_all [Directive.entry?]
  rw [h.regions_eq]
  obtain ⟨c, hc, hu⟩ := (Node.told h.isGrammatical h.isMarked).whole.uses _ _ _ _ (by simp) hd
  obtain rfl := List.mem_singleton.1 hc
  exact hu

end Rule

end Parsed

/-- Every program has scopes, unless it is a lone expression that lets a binding out. -/
theorem exists_ofTree (t : ParsedTree) (hroot : (Region.program t.root).passesBindings = false) :
    ∃ m, ofTree t.toTree = .ok m := by
  obtain ⟨o, ho⟩ := Outline.exists_ofRoot hroot
  exact ⟨⟨t.toTree, o.scopes⟩, by rw [ofTree, ho]; rfl⟩

/-- Name resolution follows the rule, which asks what stands where and not in what order. Every
program has scopes, unless it is a lone expression that lets a binding out. -/
theorem resolves_as_ruled {t : Tree} (hg : t.root.isGrammatical = true)
    (hm : t.root.isMarked = true) :
    ((Region.program t.root).passesBindings = false → ∃ m, ofTree t = .ok m) ∧
    ∀ m, ofTree t = .ok m →
      (∀ r ∈ m.references,
        t.root.Uses [.program t.root] (m.regions r.scope) r.toNameUse ∧
          m.resolve r = m.ruling r.scope r.name ∧
          ∀ u, m.resolve r = some u → m.binds u r.name = true) ∧
      (∀ s x r, r ∈ m.referencesTo s x ↔
        r ∈ m.references ∧ r.name = x ∧ m.ruling r.scope x = some s) ∧
      (∀ s < m.scopes.length, ∀ x, ¬ t.root.DeclaresGlobal (m.regions s) x →
        ¬ t.root.DeclaresNonlocal (m.regions s) x →
          (m.binds s x = true ↔ t.root.Binds (m.regions s) x)) ∧
      ∀ s < m.scopes.length, ∀ u < m.scopes.length, m.regions s = m.regions u → s = u := by
  let parsed : ParsedTree := ⟨⟨t, hg⟩, hm⟩
  refine ⟨exists_ofTree parsed, fun m hofTree => ?_⟩
  obtain ⟨o, h⟩ := exists_parsed (t := parsed) hofTree
  obtain rfl := tree_eq_of_ofTree hofTree
  have resolved {r : Reference} (hr : r ∈ m.references) : m.resolve r = m.ruling r.scope r.name :=
    h.lookup_eq_ruling (h.mem_references_iff_entry.1 hr).1
  rw [h.length_scopes]
  refine ⟨fun r hr => ⟨h.uses_of_reference hr, resolved hr, fun u hu => ?_⟩,
    fun s x r => ?_, fun s hs x => h.binds_iff_rule hs, fun s hs u hu heq => ?_⟩
  · exact h.binds_of_ruling (h.mem_references_iff_entry.1 hr).1 (resolved hr ▸ hu)
  · rw [referencesTo, List.mem_filter]
    refine and_congr_right fun hr => ?_
    rw [Bool.and_eq_true, decide_eq_true_eq, decide_eq_true_eq, resolved hr]
    exact and_congr_right fun hx => by rw [hx]
  · rw [h.regions_eq, h.regions_eq] at heq
    exact Outline.regionsAt_injective (t := h.tree) h.outline hs hu heq

end Scoping

namespace Bump

theorem isMarked : tree.root.isMarked = true := by cbv

end Bump

namespace Worker

def step : Node := .mk 10 none (.parameter "step" none)

def sum : Node :=
  .mk 14 none (.binary
    (.mk 15 none (.binary (.mk 16 none (.name "queue" .load)) .add (.mk 17 none (.name "step" .load))))
    .add (.mk 18 none (.name "limit" .load)))

def run : Node :=
  .mk 7 none (.function false "run"
    (.mk 8 none (.parameterList
      ⟨[], [.mk 9 none (.parameter "self" none), step], none, [], [], none, []⟩))
    [.mk 11 none (.globalDecl ["done"]),
      .mk 12 none (.assign [.mk 13 none (.name "done" .store)] sum)] [] none)

def worker : Node :=
  .mk 3 none (.classDef "Worker" [] []
    [.mk 4 none (.assign [.mk 5 none (.name "limit" .store)]
        (.mk 6 none (.constant (.integer 3) none))), run] [])

/-- A class with a method that declares one of its names `global`, behind `import queue.tasks`:

    class Worker:
        limit = 3

        def run(self, step):
            global done
            done = queue + step + limit
-/
def root : Node :=
  .mk 0 none (.module
    [.mk 1 none (.importStmt [.mk 2 none (.alias "queue.tasks" none)]), worker])

def tree : Tree := ⟨root, root.edges, rfl, pairwise_of_strictlyAscending (by cbv)⟩

theorem isGrammatical : tree.root.isGrammatical = true := by cbv

theorem isMarked : tree.root.isMarked = true := by cbv

def scoping : Scoping := ((Scoping.ofTree tree).toOption).getD ⟨tree, []⟩

theorem ofTree_tree : Scoping.ofTree tree = .ok scoping := by cbv

/-- The class and its method, with the program around them. -/
def inClass : List Region := [⟨.classBody, worker⟩, .program root]

def inMethod : List Region := ⟨.function, run⟩ :: inClass

theorem regions_scoping : scoping.regions 0 = [.program root] ∧ scoping.regions 1 = inClass ∧
    scoping.regions 2 = inMethod := by cbv

theorem stands_run : Node.Stands [.program root] root inClass run :=
  .surface (List.mem_cons_of_mem _ List.mem_cons_self)
    (.interior (List.mem_cons_of_mem _ List.mem_cons_self) (.self _ _))

theorem declaresGlobal_done : root.DeclaresGlobal inMethod "done" := by
  refine ⟨.mk 11 none (.globalDecl ["done"]), ["done"], ?_, rfl, List.mem_cons_self⟩
  exact .surface (List.mem_cons_of_mem _ List.mem_cons_self)
    (.interior (List.mem_cons_of_mem _ List.mem_cons_self)
      (.interior List.mem_cons_self (.self _ _)))

theorem binds_step : root.Binds inMethod "step" :=
  .parameter stands_run (.function rfl
    ⟨_, step, none, rfl, rfl, .inr (.inl (List.mem_cons_of_mem _ List.mem_cons_self))⟩)

theorem binds_queue : root.Binds [.program root] "queue" :=
  .here (.surface List.mem_cons_self (.self _ _))
    (.importModule rfl List.mem_cons_self rfl rfl ⟨by decide, .inr ⟨"tasks", by decide⟩⟩)

end Worker

/-- The parameter `step` is that of the method, `queue` the module that is imported, and `done` the
variable of the program; the `limit` of the class is not seen in the method. -/
theorem Scoping.resolves_as_ruled_worker : ∃ m, ofTree Worker.tree = .ok m ∧
    m.references.map (fun r => (r.name, r.scope, m.resolve r)) =
      [("limit", 1, some 1), ("done", 2, some 0), ("queue", 2, some 0), ("step", 2, some 2),
        ("limit", 2, none)] ∧
    (∀ r ∈ m.references, m.resolve r = m.ruling r.scope r.name) ∧
    Worker.root.Binds (m.regions 2) "step" ∧ Worker.root.Binds (m.regions 0) "queue" ∧
    Worker.root.DeclaresGlobal (m.regions 2) "done" := by
  obtain ⟨exists_ok, rule⟩ := resolves_as_ruled Worker.isGrammatical Worker.isMarked
  obtain ⟨m, hm⟩ := exists_ok rfl
  obtain rfl := Except.ok.inj (hm.symm.trans Worker.ofTree_tree)
  obtain ⟨program, -, method⟩ := Worker.regions_scoping
  refine ⟨_, hm, by cbv, fun r hr => ((rule _ hm).1 r hr).2.1, ?_⟩
  rw [program, method]
  exact ⟨Worker.binds_step, Worker.binds_queue, Worker.declaresGlobal_done⟩

end LostUpdate
