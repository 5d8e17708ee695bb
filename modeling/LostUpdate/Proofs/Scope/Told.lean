import LostUpdate.Proofs.Scope.Telling

namespace LostUpdate

namespace Node

/-- What the scopes say of a node, as a part of its own, as a target and as a clause, is what it and
the parts below it say. -/
structure Told (n : Node) : Prop where
  whole : Tells n.directives [n]
  target : n.isPlace = true → ∀ value isRead, Tells (n.storeDirectives value isRead) [n]
  clause : n.isClause = true → Tells (n.clauseDirectives false) [n]
  turn : n.isClause = true → Tells (n.clauseDirectives true) n.turn

section Names

variable {n : Node} {o : NameUse}

theorem tells_name (hn : n.form = .name o.name .load) (ho : o.identifier = n) :
    Tells [.use o] [n] where
  closed _ _ _ := rfl
  facts base bs hbs := by
    have none : n.facts bs = [] := by simp [facts_eq, ownFacts, boundNames, hoistedName?,
      declarations, isBlock, parameterNames, surface, interior, children, hn, Form.children]
    simp [located, told, Directive.fact?, none]
  uses base bs cs o' hbs h := by
    simp only [located, if_neg hbs, List.mem_singleton, Prod.mk.injEq, Directive.use.injEq] at h
    obtain ⟨rfl, rfl⟩ := h
    exact ⟨n, List.mem_singleton_self n, ⟨_, ho ▸ hn⟩, n, .self _ n, .inl ho.symm⟩

theorem tells_stored {context : Context} (hn : n.form = .name o.name context)
    (hc : context ≠ .load) (ho : o.identifier = n) (p : Node) :
    Tells [.bind o.name p, .use o] [n] where
  closed _ _ _ := rfl
  facts base bs hbs := by
    have bound : n.boundNames = [o.name] := by
      rw [boundNames, hn]
      cases context <;> simp_all
    have one : n.facts bs = [(bs, .binds o.name)] := by
      simp [facts_eq, ownFacts, bound, hoistedName?, declarations, isBlock, parameterNames, surface,
        interior, children, hn, Form.children]
    simp [located, told, Directive.fact?, one, hbs]
  uses base bs cs o' hbs h := by
    simp only [located, if_neg hbs, List.mem_cons, List.not_mem_nil, or_false, Prod.mk.injEq,
      Directive.use.injEq, reduceCtorEq, and_false, false_or] at h
    obtain ⟨rfl, rfl⟩ := h
    exact ⟨n, List.mem_singleton_self n, ⟨_, ho ▸ hn⟩, n, .self _ n, .inl ho.symm⟩

/-- A name that is declared and not used binds all the same. -/
theorem tells_declared {x : String} {context : Context} (hn : n.form = .name x context)
    (hc : context ≠ .load) (p : Node) : Tells [.bind x p] [n] := by
  have single := (Account.fact (d := .bind x p) (f := .binds x) rfl (by simp) (by simp))
  refine single.node (by simp [surface, children, hn, Form.children]) (fun bs => ?_)
    (by simp [interior, hn])
  have bound : n.boundNames = [x] := by
    rw [boundNames, hn]
    cases context <;> simp_all
  simp [ownFacts, bound, hoistedName?, declarations, isBlock, parameterNames, hn]

/-- The target of `:=` is told by the whole, and so is its use. -/
theorem tells_walrus {target value : Node} {context : Context} (hn : n.form = .walrus target value)
    (ht : target.form = .name o.name context) (ho : o.identifier = target) {ds : List Directive}
    (h : Tells ds [value]) (p : Node) : Tells ([.hoist o.name p, .use o] ++ ds) [n] where
  closed base bs rest := by simp [located, h.closed base bs rest]
  facts base bs hbs := by
    have inner := h.facts base bs hbs
    have all : n.facts bs = (bs.dropWhile (·.passesBindings), .binds o.name) :: value.facts bs := by
      simp [facts_eq bs n, ownFacts, boundNames, hoistedName?, declarations, isBlock, parameterNames,
        surface, interior, hn, ht]
    simpa [located, told, Directive.fact?, all] using inner
  uses base bs cs o' hbs ho' := by
    refine ⟨n, List.mem_singleton_self n, ?_⟩
    simp only [List.cons_append, List.nil_append, located, if_neg hbs, List.mem_cons,
      Prod.mk.injEq, Directive.use.injEq, reduceCtorEq, and_false, false_or] at ho'
    rcases ho' with ⟨rfl, rfl⟩ | ho'
    · exact ⟨⟨context, ho ▸ ht⟩, n, .self _ n, .inr ⟨value, ho ▸ hn⟩⟩
    · obtain ⟨c, hc, hu⟩ := h.uses base bs cs o' hbs ho'
      obtain rfl := List.mem_singleton.1 hc
      exact hu.mono (by simp [surface, hn])

end Names

/-- Importing binds names, and says nothing else. -/
theorem tells_import {n : Node} {aliases : List Node} {names : List String}
    (hl : ∀ c ∈ aliases, c.form.category = .alias)
    (hown : ∀ bs, (names.map fun x => (bs, Fact.binds x)).Perm (n.ownFacts bs))
    (hs : n.surface = aliases) (hi : n.interior = []) :
    Tells (names.map (.bind · n)) [n] := by
  have none : ∀ bs : List Region, aliases.flatMap (facts bs) = [] := by
    intro bs
    rw [List.flatMap_eq_nil_iff]
    intro c hc
    obtain ⟨x, y, hform⟩ := exists_alias (hl c hc)
    simp [facts_eq, ownFacts, boundNames, hoistedName?, declarations, isBlock, parameterNames,
      surface, interior, children, hform, Form.children]
  have bound := Account.binds (names.map fun x => (x, n))
  rw [List.map_map] at bound
  have all : Account (names.map (.bind · n)) (fun bs => names.map fun x => (bs, .binds x))
      aliases := by
    refine ⟨bound.closed, fun base bs hbs => ?_, fun base bs cs o hbs h => ?_⟩
    · have same := bound.facts base bs hbs
      rw [none]
      simpa [Function.comp_def] using same
    · obtain ⟨c, hc, -⟩ := bound.uses base bs cs o hbs h
      simp at hc
  exact all.node hs.symm hown hi

theorem account_bindName (name : Option String) (n : Node) : Account (bindName name n)
    (fun bs => (given name).map fun x => (bs, .binds x)) [] := by
  cases name with
  | none => exact Account.nil
  | some x =>
    by_cases hx : x = ""
    · simpa [bindName, given, hx] using Account.nil
    · simpa [bindName, given, hx] using
        Account.fact (d := .bind x n) (f := .binds x) rfl (by simp) (by simp)

theorem quiet_facts {n : Node} (hn : n.form.isQuiet = true) :
    n.surface = n.children ∧ (∀ bs, n.ownFacts bs = []) ∧ n.interior = [] := by
  cases n with
  | mk i s f =>
    cases f
    all_goals first | (cases hn; done) | exact ⟨rfl, fun _ => rfl, rfl⟩

/-- An assignment says what its targets, its annotation and its value say. -/
theorem tells_assignment {n : Node} {ds : List Directive}
    (hn : (∃ targets value, n.form = .assign targets value) ∨
      (∃ target op value, n.form = .augmented target op value) ∨
        ∃ target hint value simple, n.form = .annotated target hint value simple)
    (h : Tells ds n.children) : Tells ds [n] := by
  rcases hn with ⟨_, _, hn⟩ | ⟨_, _, _, hn⟩ | ⟨_, _, _, _, hn⟩
  all_goals exact h.node (by simp [surface, hn]) (fun bs => by simp [ownFacts, boundNames,
    hoistedName?, declarations, isBlock, parameterNames, hn]) (by simp [interior, hn])

theorem capture_facts {n : Node} {caught : Option String} (hn : n.form.capture? = some caught) :
    n.surface = n.children ∧
      (∀ bs, n.ownFacts bs = (given caught).map fun x => (bs, .binds x)) ∧ n.interior = [] := by
  cases n with
  | mk i s f =>
    cases f
    all_goals
      first
      | (obtain rfl : _ = caught := Option.some.inj hn
         exact ⟨rfl, fun bs => by simp [ownFacts, boundNames, hoistedName?, declarations, isBlock,
           parameterNames, form], rfl⟩)
      | simp [form, Form.capture?] at hn

section Parts

variable {n : Node} (hg : n.isGrammatical = true) (hm : n.isMarked = true)
  (ih : ∀ c ∈ n.children.flatMap preorder, c.Told)

include ih

theorem told_child {c : Node} (hc : c ∈ n.children) : c.Told :=
  ih c (mem_below_of_mem_children hc)

theorem tells_flatMap {l : List Node} (hl : ∀ c ∈ l, c ∈ n.children) :
    Tells (l.flatMap directives) l :=
  .flatMap fun c hc => (told_child ih (hl c hc)).whole

theorem tells_heading : Tells (n.heading.flatMap directives) n.heading :=
  .flatMap fun c hc => (ih c (mem_below_of_mem_heading hc)).whole

theorem tells_store (hp : n.isPlace = true) (value : Option Node) (isRead : Bool)
    (hw : Tells n.directives [n]) : Tells (n.storeDirectives value isRead) [n] := by
  have targets {l : List Node} (hl : ∀ c ∈ l, c ∈ n.children ∧ c.isPlace = true) :
      Tells (l.flatMap (storeDirectives value false)) l :=
    .flatMap fun c hc => (told_child ih (hl c hc).1).target (hl c hc).2 _ _
  have silent : ∀ bs : List Region, ([] : List (List Region × Fact)).Perm [] := fun _ => .refl _
  cases n with
  | mk i s f =>
    have place := isPlace_of_children hp
    rw [storeDirectives.eq_def]
    cases f
    case name x context =>
      have marked : context ≠ .load := by
        rw [isPlace] at hp
        simpa [form] using hp
      exact tells_stored (o := ⟨_, x, isRead, true, value⟩) rfl marked rfl _
    case tuple elements context =>
      exact Account.node (targets fun c hc => ⟨hc, place (.inl ⟨_, _, rfl⟩) c hc⟩) rfl silent rfl
    case list elements context =>
      exact Account.node (targets fun c hc => ⟨hc, place (.inr (.inl ⟨_, _, rfl⟩)) c hc⟩) rfl silent
        rfl
    case starred inner context =>
      refine Account.node (l := [inner]) ?_ rfl silent rfl
      exact (told_child ih (List.mem_singleton_self inner)).target
        (place (.inr (.inr ⟨_, _, rfl⟩)) inner (List.mem_singleton_self inner)) _ _
    all_goals exact hw

include hm

theorem tells_turn (hn : n.isClause = true) : Tells (n.clauseDirectives true) n.turn := by
  cases n with
  | mk i s f =>
    cases f
    case clause target iterable conditions isAsync =>
      have place : target.isPlace = true :=
        isPlace_of_mem_places hm (by simp [places, form])
      have first := (told_child ih (c := target) (by simp [children, form, Form.children])).target
      have rest := tells_flatMap ih (l := conditions)
        (fun c hc => by simp [children, form, Form.children, hc])
      rw [clauseDirectives.eq_def]
      exact (first place none false).append rest
    all_goals simp [isClause, form] at hn

theorem tells_clause (hn : n.isClause = true) : Tells (n.clauseDirectives false) [n] := by
  have apart := tells_turn hm ih hn
  cases n with
  | mk i s f =>
    cases f
    case clause target iterable conditions isAsync =>
      have first := (told_child ih (c := iterable) (by simp [children, form, Form.children])).whole
      have split : (mk i s (.clause target iterable conditions isAsync)).clauseDirectives false =
          iterable.directives ++
            (mk i s (.clause target iterable conditions isAsync)).clauseDirectives true := by
        simp [clauseDirectives]
      rw [split]
      exact Account.node ((first.append apart).perm (List.Perm.swap ..)) rfl (fun _ => .refl _) rfl
    all_goals simp [isClause, form] at hn

include hg

omit hm in
/-- The clauses of a comprehension, the first without its iterable, and the elements. -/
theorem tells_interior {collector : Collector} {first : Node} {elements rest : List Node}
    (hn : n.form = .comprehension collector elements (first :: rest)) :
    Tells (first.clauseDirectives true ++ rest.flatMap (clauseDirectives false) ++
      elements.flatMap directives) n.interior := by
  have parts : n.children = elements ++ first :: rest := by simp [children, hn, Form.children]
  have isClause {c : Node} (hc : c ∈ first :: rest) : c.isClause = true :=
    isClause_eq_true_iff.2
      (category_of_fits (isGrammatical.fits hg) (by simp [hn, Form.fields]) hc)
  have apart : Tells (first.clauseDirectives true) first.turn :=
    (told_child ih (by simp [parts])).turn (isClause List.mem_cons_self)
  have later : Tells (rest.flatMap (clauseDirectives false)) rest := by
    apply Tells.flatMap
    intro c hc
    exact (told_child ih (by simp [parts, hc])).clause (isClause (List.mem_cons_of_mem _ hc))
  have elements := tells_flatMap ih (l := elements) (fun c hc => by simp [parts, hc])
  have all := (apart.append later).append elements
  simpa [interior, hn] using all

omit hm in
theorem tells_comprehension {collector : Collector} {elements clauses : List Node}
    (hn : n.form = .comprehension collector elements clauses) :
    Tells (n.heading.flatMap directives ++ [.openScope (collectorScope collector) n] ++
      (clauses.head?.toList.flatMap (clauseDirectives true) ++
        clauses.tail.flatMap (clauseDirectives false)) ++
      elements.flatMap directives ++ [.closeScope]) [n] := by
  obtain ⟨first, rest, target, iterable, conditions, isAsync, rfl, -⟩ := exists_first hg hn
  have heading := tells_heading ih
  have inner := tells_interior hg ih hn
  have surface : n.surface = n.heading := by simp [Node.surface, hn]
  rw [← surface] at heading
  have opened : n.region = ⟨collectorScope collector, n⟩ := by simp [region, hn]
  have all := Account.block heading inner opened (fun bs => by simp [ownFacts, boundNames,
    hoistedName?, declarations, isBlock, parameterNames, hn])
  rw [surface] at all
  simpa using all

omit hg hm in
theorem tells_lambda {parameters body : Node} (hn : n.form = .lambda parameters body) :
    Tells (n.heading.flatMap directives ++ [.openScope .function n] ++
      parameters.parameterDirectives ++ body.directives ++ [.closeScope]) [n] := by
  have heading := tells_heading ih
  have surface : n.surface = n.heading := by simp [Node.surface, hn]
  have inner := (Account.binds parameters.declaredParameters).append
    (told_child ih (c := body) (by simp [children, hn, Form.children])).whole
  have interior : n.interior = [] ++ [body] := by simp [Node.interior, hn]
  rw [← surface] at heading
  rw [← interior] at inner
  have opened : n.region = ⟨.function, n⟩ := by simp [region, hn]
  have all := Account.block heading inner opened (fun bs => by simp [ownFacts, boundNames,
    hoistedName?, declarations, isBlock, parameterNames, hn, Function.comp_def])
  rw [surface] at all
  simpa [parameterDirectives] using all

omit hg hm in
theorem tells_function {isAsync : Bool} {name : String} {parameters : Node}
    {body decorators : List Node} {returns : Option Node}
    (hn : n.form = .function isAsync name parameters body decorators returns) :
    Tells (n.heading.flatMap directives ++ [.bind name n, .openScope .function n] ++
      parameters.parameterDirectives ++ body.flatMap directives ++ [.closeScope]) [n] := by
  have named := Account.fact (d := .bind name n) (f := .binds name) rfl (by simp) (by simp)
  have heading := Account.append (tells_heading ih) named
  have surface : n.surface = n.heading ++ [] := by simp [Node.surface, hn]
  have inner := (Account.binds parameters.declaredParameters).append
    (tells_flatMap ih (l := body) fun c hc => by simp [children, hn, Form.children, hc])
  have interior : n.interior = [] ++ body := by simp [Node.interior, hn]
  rw [← surface] at heading
  rw [← interior] at inner
  have opened : n.region = ⟨.function, n⟩ := by simp [region, hn]
  have all := Account.block heading inner opened (fun bs => by simp [ownFacts, boundNames,
    hoistedName?, declarations, isBlock, parameterNames, hn, Function.comp_def])
  simpa [parameterDirectives] using all

omit hg hm in
theorem tells_class {name : String} {bases keywords body decorators : List Node}
    (hn : n.form = .classDef name bases keywords body decorators) :
    Tells (n.heading.flatMap directives ++ [.bind name n, .openScope .classBody n] ++
      body.flatMap directives ++ [.closeScope]) [n] := by
  have named := Account.fact (d := .bind name n) (f := .binds name) rfl (by simp) (by simp)
  have heading := Account.append (tells_heading ih) named
  have surface : n.surface = n.heading ++ [] := by simp [Node.surface, hn]
  have inner : Tells (body.flatMap directives) n.interior := by
    simpa [interior, hn] using tells_flatMap ih (l := body) fun c hc => by
      simp [children, hn, Form.children, hc]
  rw [← surface] at heading
  have opened : n.region = ⟨.classBody, n⟩ := by simp [region, hn]
  have all := Account.block heading inner opened (fun bs => by simp [ownFacts, boundNames,
    hoistedName?, declarations, isBlock, parameterNames, hn])
  simpa using all

theorem tells_directives : Tells n.directives [n] := by
  have fits := isGrammatical.fits hg
  have below : n.children = n.form.children := rfl
  have child {c : Node} (hc : c ∈ n.children) : Tells c.directives [c] := (told_child ih hc).whole
  have parts {l : List Node} (hl : ∀ c ∈ l, c ∈ n.children) : Tells (l.flatMap directives) l :=
    tells_flatMap ih hl
  have store {target : Node} (ht : target ∈ n.targets) (hp : n.places = n.targets)
      (value : Option Node) (isRead : Bool) : Tells (target.storeDirectives value isRead) [target] :=
    (told_child ih (mem_children_of_mem_targets ht)).target
      (isPlace_of_mem_places hm (hp ▸ ht)) value isRead
  have shape := n.directives_shape
  generalize n.directives = ds at shape ⊢
  cases shape with
  | quiet hn =>
    obtain ⟨surface, own, interior⟩ := quiet_facts hn
    exact Account.node (parts fun c hc => hc) surface.symm (fun bs => by rw [own]) interior
  | read hn => exact tells_name hn rfl
  | @stored x context hn hc => exact tells_stored (o := ⟨n, x, false, true, none⟩) hn hc rfl n
  | function hn => exact tells_function ih hn
  | lambda hn => exact tells_lambda ih hn
  | classDef hn => exact tells_class ih hn
  | comprehension hn => exact tells_comprehension hg ih hn
  | @walrus target value x context hn ht =>
    exact tells_walrus (o := ⟨target, x, false, true, some value⟩) hn ht rfl
      (child (by simp [below, hn, Form.children])) target
  | bareWalrus hn ht =>
    obtain ⟨x, context, hform⟩ := exists_walrus_name fits hn
    exact absurd hform (ht x context)
  | @capture caught before after hn hparts =>
    obtain ⟨surface, own, interior⟩ := capture_facts hn
    have first := parts (l := before) fun c hc => by simp [hparts, hc]
    have second := parts (l := after) fun c hc => by simp [hparts, hc]
    have all := Account.append (Account.append first (account_bindName caught n)) second
    exact all.node (by simp [surface, hparts]) (fun bs => by simp [own]) interior
  | @assign targets value hn =>
    have first : Tells (targets.flatMap (storeDirectives (some value) false)) targets :=
      .flatMap fun c hc => store (by simpa [Node.targets, hn] using hc) (by simp [places, hn]) _ _
    refine tells_assignment (.inl ⟨_, _, hn⟩) ?_
    rw [below, hn]
    exact first.append (child (by simp [below, hn, Form.children]))
  | @augmented target value op hn =>
    have first := store (show target ∈ n.targets by simp [targets, hn]) (by simp [places, hn])
    refine tells_assignment (.inr (.inl ⟨_, _, _, hn⟩)) ?_
    rw [below, hn]
    exact (first _ _).append (child (by simp [below, hn, Form.children]))
  | @annotated target hint value simple hn =>
    have first := store (show target ∈ n.targets by simp [targets, hn]) (by simp [places, hn])
    refine tells_assignment (.inr (.inr ⟨_, _, _, _, hn⟩)) ?_
    rw [below, hn]
    exact ((first _ _).append (child (by simp [below, hn, Form.children]))).append
      (child (by simp [below, hn, Form.children]))
  | @declared target hint simple x context hn ht =>
    have marked : context ≠ .load := by
      have place : target.isPlace = true :=
        isPlace_of_mem_places hm (by simp [places, targets, hn])
      rw [isPlace, ht] at place
      simpa using place
    refine tells_assignment (.inr (.inr ⟨_, _, _, _, hn⟩)) ?_
    rw [below, hn]
    exact (tells_declared ht marked target).append (child (by simp [below, hn, Form.children]))
  | hinted hn =>
    refine tells_assignment (.inr (.inr ⟨_, _, _, _, hn⟩)) ?_
    rw [below, hn]
    exact (child (by simp [below, hn, Form.children])).append
      (child (by simp [below, hn, Form.children]))
  | @globalDecl names hn =>
    have single := Account.fact (d := .declareGlobal names) (f := .declaresGlobal names) rfl
      (by simp) (by simp)
    exact single.node (by simp [surface, below, hn, Form.children]) (fun bs => by simp [ownFacts,
      boundNames, hoistedName?, declarations, isBlock, parameterNames, hn]) (by simp [interior, hn])
  | @nonlocalDecl names hn =>
    have single := Account.fact (d := .declareNonlocal names) (f := .declaresNonlocal names) rfl
      (by simp) (by simp)
    exact single.node (by simp [surface, below, hn, Form.children]) (fun bs => by simp [ownFacts,
      boundNames, hoistedName?, declarations, isBlock, parameterNames, hn]) (by simp [interior, hn])
  | @importStmt aliases hn =>
    have leaf : ∀ c ∈ aliases, c.form.category = .alias := fun c hc =>
      category_of_fits fits (l := aliases) (by simp [hn, Form.fields]) hc
    exact tells_import leaf (fun bs => by simp [ownFacts, boundNames, hoistedName?, declarations,
      isBlock, parameterNames, hn]) (by simp [surface, below, hn, Form.children])
      (by simp [interior, hn])
  | @importFrom module aliases level hn =>
    have leaf : ∀ c ∈ aliases, c.form.category = .alias := fun c hc =>
      category_of_fits fits (l := aliases) (by simp [hn, Form.fields]) hc
    exact tells_import leaf (fun bs => by simp [ownFacts, boundNames, hoistedName?, declarations,
      isBlock, parameterNames, hn]) (by simp [surface, below, hn, Form.children])
      (by simp [interior, hn])

end Parts

/-- The scopes are told what the parts of a grammatical program say. -/
theorem told {n : Node} (hg : n.isGrammatical = true) (hm : n.isMarked = true) : n.Told := by
  induction n using induct_below with
  | step n ih =>
    have below (c : Node) (hc : c ∈ n.children.flatMap preorder) : c.Told :=
      ih c hc (isGrammatical_of_mem hg (mem_preorder_of_below hc))
        (isMarked_of_mem hm (mem_preorder_of_below hc))
    have whole := tells_directives hg hm below
    exact {
      whole := whole
      target := fun hp value isRead => tells_store below hp value isRead whole
      clause := tells_clause hm below
      turn := tells_turn hm below }

end Node

end LostUpdate
