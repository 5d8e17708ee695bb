import LostUpdate.Proofs.Scope.Placement

namespace LostUpdate

namespace Node

theorem isSilent_of_mem_bindName {name : Option String} {n : Node} {d : Directive}
    (h : d ∈ bindName name n) : d.isSilent = true := by
  unfold bindName at h
  cases name with
  | none => simp at h
  | some x =>
    dsimp only at h
    split_ifs at h
    · simp at h
    · obtain rfl := List.mem_singleton.1 h
      rfl

theorem exists_name {n : Node} (h : n.isName = true) : ∃ x context, n.form = .name x context := by
  cases hform : n.form <;> simp_all [isName]

theorem exists_alias {n : Node} (h : n.form.category = .alias) : ∃ x y, n.form = .alias x y := by
  cases n with
  | mk i s f => cases f <;> simp_all [form, Form.category, Form.isExpression]

theorem isSilent_of_mem_parameterDirectives {n : Node} :
    ∀ d ∈ n.parameterDirectives, d.isSilent = true := by
  intro d hd
  obtain ⟨e, -, rfl⟩ := List.mem_map.1 hd
  rfl

theorem plain_of_isQuiet {n : Node} (hn : n.form.isQuiet = true) :
    n.isName = false ∧ n.isFunctionLike = false := by
  unfold isName isFunctionLike
  generalize n.form = f at hn ⊢
  cases f <;> simp_all [Form.isFunctionLike, Form.isQuiet]

theorem plain_of_capture {n : Node} {caught : Option String} (hn : n.form.capture? = some caught) :
    n.isName = false ∧ n.isFunctionLike = false := by
  unfold isName isFunctionLike
  generalize n.form = f at hn ⊢
  cases f <;> simp_all [Form.isFunctionLike, Form.capture?]

theorem exists_walrus_name {n target value : Node} (h : n.fits = true)
    (hn : n.form = .walrus target value) : ∃ x context, target.form = .name x context := by
  have complete : n.isComplete = true := (Bool.and_eq_true_iff.1 h).1
  rw [isComplete, hn] at complete
  cases hform : target.form <;> simp [hform] at complete
  exact ⟨_, _, rfl⟩

/-- What the scopes say of a node, as a part of its own, as a target and as a clause, places its
names where the walk enters them. -/
structure Agrees (n : Node) : Prop where
  whole : Agree n.directives [n]
  target : ∀ value isRead, Agree (n.storeDirectives value isRead) [n]
  clause : n.isClause = true → Agree (n.clauseDirectives false) [n]
  turn : Agree (n.clauseDirectives true) n.turn

theorem children_of_isName {n : Node} (h : n.isName = true) : n.children = [] := by
  obtain ⟨x, context, hform⟩ := exists_name h
  simp [children, hform, Form.children]

theorem not_isFunctionLike_of_isName {n : Node} (h : n.isName = true) :
    n.isFunctionLike = false := by
  obtain ⟨x, context, hform⟩ := exists_name h
  simp [isFunctionLike, hform, Form.isFunctionLike]

section Forms

variable {n : Node} (hg : n.isGrammatical = true)

include hg

theorem sites_name (hn : n.isName = true) (os : List Node) :
    (sites os [n]).Perm [(os, n)] := by
  have own := sites_node os hg
  have plain := not_isFunctionLike_of_isName hn
  rw [inPlace_of_plain plain, ownCode_of_plain plain, children_of_isName hn] at own
  simpa [hn, sites] using own

/-- A name stands where it is entered. -/
theorem agree_name (hn : n.isName = true) {o : NameUse} (ho : o.identifier = n) :
    Agree [.use o] [n] := by
  refine ⟨_, fun _ => [], .use o, fun os => ⟨?_, by simp⟩⟩
  rw [ho]
  exact sites_name hg hn os

theorem agree_stored_name (hn : n.isName = true) {o : NameUse} (ho : o.identifier = n)
    {d : Directive} (hd : d.isSilent = true) : Agree [d, .use o] [n] := by
  have silent : ∀ e ∈ [d], e.isSilent = true := by simpa using hd
  exact Agree.silent_append silent (agree_name hg hn ho)

/-- Nothing is said about the use of what is declared without a value, though it is entered. -/
theorem agree_declared {target hint : Node} {simple : Int}
    (hn : n.form = .annotated target hint none simple) (ht : target.isName = true)
    (h : Agree hint.directives [hint]) {d : Directive} (hd : d.isSilent = true) :
    Agree (d :: hint.directives) [n] := by
  obtain ⟨used, declared, hplaces, hsites⟩ := h
  have silent : Places [d] fun _ => [] := .of_silent (by simpa using hd)
  have parts : n.children = [target, hint] := by simp [children, hn, Form.children]
  have plain : n.isFunctionLike = false := by simp [isFunctionLike, hn, Form.isFunctionLike]
  have named : n.isName = false := by simp [isName, hn]
  refine ⟨_, fun os => (os, target) :: declared os, silent.append hplaces, fun os => ⟨?_, ?_⟩⟩
  · have own := sites_node os hg
    rw [inPlace_of_plain plain, ownCode_of_plain plain, parts] at own
    have single := sites_name (isGrammatical_child hg (c := target) (by simp [parts])) ht os
    have rest := (hsites os).1
    have split : sites os [target, hint] = sites os [target] ++ sites os [hint] :=
      sites_append os [target] [hint]
    rw [split] at own
    classical
    rw [List.perm_iff_count] at own single rest ⊢
    intro e
    have h₀ := own e
    have h₁ := single e
    have h₂ := rest e
    simp only [plain, named, Bool.or_self, Bool.false_eq_true, if_false, sites, List.flatMap_nil,
      List.count_append, List.count_cons, List.count_nil] at h₀ h₁ h₂ ⊢
    omega
  · intro e he
    rw [List.flatMap_singleton]
    rcases List.mem_cons.1 he with rfl | he
    · refine ⟨n, ⟨ht, hint, simple, hn⟩, ?_⟩
      rw [(visits_flow os hg).mem_iff]
      simp [ownVisits, plain]
    · obtain ⟨p, hp, hv⟩ := (hsites os).2 e he
      refine ⟨p, hp, ?_⟩
      rw [(visits_flow os hg).mem_iff, inPlace_of_plain plain, parts]
      rw [List.flatMap_singleton] at hv
      simp [hv]

/-- An import only binds names. -/
theorem agree_import (hc : ∀ c ∈ n.children, c.form.category = .alias)
    (hn : n.isName = false) (hf : n.isFunctionLike = false) {names : List String} :
    Agree (names.map (.bind · n)) [n] := by
  have silent : ∀ d ∈ names.map (Directive.bind · n), d.isSilent = true := by
    intro d hd
    obtain ⟨x, -, rfl⟩ := List.mem_map.1 hd
    rfl
  have nothing : Agree (n.children.flatMap fun _ => []) n.children := by
    apply Agree.flatMap
    intro c hm
    obtain ⟨x, y, hform⟩ := exists_alias (hc c hm)
    apply Agree.plain (isGrammatical_child hg hm) (by simp [isName, hform])
      (by simp [isFunctionLike, hform, Form.isFunctionLike])
    have leaf : c.children = [] := by simp [children, hform, Form.children]
    rw [leaf]
    exact .of_silent (by simp)
  have all := nothing.silent_append silent
  rw [List.flatMap_eq_nil_iff.2 (fun _ _ => rfl), List.append_nil] at all
  exact .plain hg hn hf all

end Forms

section Parts

variable {n : Node} (hg : n.isGrammatical = true)
  (ih : ∀ c ∈ n.children.flatMap preorder, c.Agrees)

include ih

theorem agrees_child {c : Node} (hc : c ∈ n.children) : c.Agrees :=
  ih c (List.mem_flatMap.2 ⟨c, hc, c.mem_preorder_self⟩)

theorem agree_flatMap {l : List Node} (hl : ∀ c ∈ l, c ∈ n.children) :
    Agree (l.flatMap directives) l :=
  .flatMap fun c hc => (agrees_child ih (hl c hc)).whole

theorem agree_heading : Agree (n.heading.flatMap directives) n.heading :=
  .flatMap fun c hc => (ih c (mem_below_of_mem_heading hc)).whole

include hg

theorem agree_store (value : Option Node) (isRead : Bool) (hw : Agree n.directives [n]) :
    Agree (n.storeDirectives value isRead) [n] := by
  have targets {l : List Node} (hl : ∀ c ∈ l, c ∈ n.children) :
      Agree (l.flatMap (storeDirectives value false)) l :=
    .flatMap fun c hc => (agrees_child ih (hl c hc)).target _ _
  cases n with
  | mk i s f =>
    rw [storeDirectives.eq_def]
    cases f
    case name x context => exact agree_stored_name hg rfl rfl rfl
    case tuple elements context => exact .plain hg rfl rfl (targets fun c hc => hc)
    case list elements context => exact .plain hg rfl rfl (targets fun c hc => hc)
    case starred inner context =>
      refine .plain hg rfl rfl ?_
      exact (agrees_child ih (List.mem_singleton_self inner)).target _ _
    all_goals exact hw

omit hg in
theorem agree_turn : Agree (n.clauseDirectives true) n.turn := by
  cases n with
  | mk i s f =>
    rw [clauseDirectives.eq_def]
    cases f
    case clause target iterable conditions isAsync =>
      have first := (agrees_child ih (c := target) (by simp [children, form, Form.children])).target
      have rest := agree_flatMap ih (l := conditions)
        (fun c hc => by simp [children, form, Form.children, hc])
      exact (first none false).append rest
    all_goals exact .of_silent (by simp)

theorem agree_clause (hn : n.isClause = true) : Agree (n.clauseDirectives false) [n] := by
  obtain ⟨target, iterable, conditions, isAsync, hform⟩ :=
    exists_clause (isClause_eq_true_iff.1 hn)
  have parts : n.children = target :: iterable :: conditions := by
    simp [children, hform, Form.children]
  have split : n.clauseDirectives false = iterable.directives ++ n.clauseDirectives true := by
    cases n with
    | mk i s f =>
      obtain rfl : f = .clause target iterable conditions isAsync := hform
      simp [clauseDirectives]
  have apart := agree_turn ih
  have all := (agrees_child ih (c := iterable) (by simp [parts])).whole.append apart
  rw [split]
  apply Agree.plain hg (not_isName_of_isClause hn) (by simp [isFunctionLike, hform, Form.isFunctionLike])
  rw [parts]
  refine all.perm ?_
  rw [turn, hform]
  exact List.Perm.swap ..

theorem agree_function {isAsync : Bool} {name : String} {parameters : Node}
    {body decorators : List Node} {returns : Option Node}
    (hn : n.form = .function isAsync name parameters body decorators returns) :
    Agree (n.heading.flatMap directives ++ [.bind name n, .openScope .function n] ++
      parameters.parameterDirectives ++ body.flatMap directives ++ [.closeScope]) [n] := by
  have bound : ∀ e ∈ [Directive.bind name n], e.isSilent = true := by simp [Directive.isSilent]
  have heading := (agree_heading ih).append_silent bound
  have inner := agree_flatMap ih (l := body)
    (fun c hc => by simp [children, hn, Form.children, hc])
  have code : Agree (parameters.parameterDirectives ++ body.flatMap directives) n.ownCode := by
    rw [ownCode, hn]
    exact inner.silent_append isSilent_of_mem_parameterDirectives
  simpa using heading.function hg (by simp [isFunctionLike, hn, Form.isFunctionLike]) code

theorem agree_lambda {parameters body : Node} (hn : n.form = .lambda parameters body) :
    Agree (n.heading.flatMap directives ++ [.openScope .function n] ++
      parameters.parameterDirectives ++ body.directives ++ [.closeScope]) [n] := by
  have inner := (agrees_child ih (c := body) (by simp [children, hn, Form.children])).whole
  have code : Agree (parameters.parameterDirectives ++ body.directives) n.ownCode := by
    rw [ownCode, hn]
    exact inner.silent_append isSilent_of_mem_parameterDirectives
  simpa using (agree_heading ih).function hg (by simp [isFunctionLike, hn, Form.isFunctionLike]) code

theorem agree_class {name : String} {bases keywords body decorators : List Node}
    (hn : n.form = .classDef name bases keywords body decorators) :
    Agree (n.heading.flatMap directives ++ [.bind name n, .openScope .classBody n] ++
      body.flatMap directives ++ [.closeScope]) [n] := by
  have bound : ∀ e ∈ [Directive.bind name n], e.isSilent = true := by simp [Directive.isSilent]
  have heading := (agree_heading ih).append_silent bound
  have inner := agree_flatMap ih (l := body)
    (fun c hc => by simp [children, hn, Form.children, hc])
  have other : ScopeKind.classBody ≠ .function := by simp
  have all := (heading.append (inner.inline other n)).perm (m := n.children) (by
    classical
    rw [List.perm_iff_count]
    intro q
    simp only [children, hn, Form.children, Node.heading, List.count_append]
    omega)
  apply Agree.plain hg (by simp [isName, hn]) (by simp [isFunctionLike, hn, Form.isFunctionLike])
  simpa using all

/-- The clauses of a comprehension, the first without its iterable, and the elements. -/
theorem agree_clauses {collector : Collector} {first : Node} {elements rest : List Node}
    (hn : n.form = .comprehension collector elements (first :: rest)) :
    Agree (first.clauseDirectives true ++ rest.flatMap (clauseDirectives false) ++
      elements.flatMap directives) (first.turn ++ rest ++ elements) := by
  have parts : n.children = elements ++ first :: rest := by simp [children, hn, Form.children]
  have isClause {c : Node} (hc : c ∈ first :: rest) : c.isClause = true :=
    isClause_eq_true_iff.2
      (category_of_fits (isGrammatical.fits hg) (by simp [hn, Form.fields]) hc)
  have apart : Agree (first.clauseDirectives true) first.turn :=
    (agrees_child ih (by simp [parts])).turn
  have later : Agree (rest.flatMap (clauseDirectives false)) rest := by
    apply Agree.flatMap
    intro c hc
    exact (agrees_child ih (by simp [parts, hc])).clause (isClause (List.mem_cons_of_mem _ hc))
  have inner := agree_flatMap ih (l := elements) (fun c hc => by simp [parts, hc])
  exact (apart.append later).append inner

/-- The parts of a generator expression stand in its own code, those of an inline comprehension with
the code around it. -/
theorem agree_comprehension {collector : Collector} {elements clauses : List Node}
    (hn : n.form = .comprehension collector elements clauses) :
    Agree (n.heading.flatMap directives ++ [.openScope (collectorScope collector) n] ++
      (clauses.head?.toList.flatMap (clauseDirectives true) ++
        clauses.tail.flatMap (clauseDirectives false)) ++
      elements.flatMap directives ++ [.closeScope]) [n] := by
  obtain ⟨first, rest, target, iterable, conditions, isAsync, rfl, hfirst⟩ := exists_first hg hn
  have code := agree_clauses hg ih hn
  by_cases hf : n.isFunctionLike = true
  · obtain rfl : collector = .generator := by
      cases collector <;> simp_all [isFunctionLike, Form.isFunctionLike]
    have own : n.ownCode = first.turn ++ rest ++ elements := by simp [ownCode, hn]
    rw [← own] at code
    simpa [collectorScope] using (agree_heading ih).function hg hf code
  rw [Bool.not_eq_true] at hf
  have scope : collectorScope collector ≠ .function := by
    cases collector <;> simp_all [collectorScope, isFunctionLike, Form.isFunctionLike]
  have parts : n.children = elements ++ first :: rest := by simp [children, hn, Form.children]
  have all := ((agree_heading ih).append (code.inline scope n)).perm
    (m := first.children ++ (rest ++ elements)) (by
      simp only [Node.heading, hn, children, hfirst, Form.children, Node.iterable, turn,
        List.head?_cons, Option.toList_some, List.flatMap_cons, List.flatMap_nil, List.append_nil,
        List.cons_append, List.nil_append, List.append_assoc]
      exact List.Perm.swap ..)
  have gathered := all.gather (isGrammatical_child hg (by simp [parts])) (by simp [isName, hfirst])
    (by simp [isFunctionLike, hfirst, Form.isFunctionLike])
  have order : (first :: rest ++ elements).Perm (elements ++ first :: rest) := List.perm_append_comm
  rw [← parts] at order
  apply Agree.plain hg (by simp [isName, hn]) hf
  simpa using gathered.perm order

theorem agree_directives : Agree n.directives [n] := by
  have fits := isGrammatical.fits hg
  have below : n.children = n.form.children := rfl
  have child {c : Node} (hc : c ∈ n.children) : Agree c.directives [c] := (agrees_child ih hc).whole
  have target {c : Node} (hc : c ∈ n.children) (value : Option Node) (isRead : Bool) :
      Agree (c.storeDirectives value isRead) [c] := (agrees_child ih hc).target value isRead
  have parts {l : List Node} (hl : ∀ c ∈ l, c ∈ n.children) : Agree (l.flatMap directives) l :=
    agree_flatMap ih hl
  have shape := n.directives_shape
  generalize n.directives = ds at shape ⊢
  cases shape with
  | quiet hn =>
    have plain := plain_of_isQuiet hn
    exact .plain hg plain.1 plain.2 (parts fun c hc => hc)
  | capture before after hn hparts =>
    have plain := plain_of_capture hn
    have first := parts (l := before) fun c hc => by simp [hparts, hc]
    have second := parts (l := after) fun c hc => by simp [hparts, hc]
    apply Agree.plain hg plain.1 plain.2
    rw [hparts]
    exact (first.append_silent fun d hd => isSilent_of_mem_bindName hd).append second
  | read hn => exact agree_name hg (by simp [isName, hn]) rfl
  | stored hn => exact agree_stored_name hg (by simp [isName, hn]) rfl rfl
  | function hn => exact agree_function hg ih hn
  | lambda hn => exact agree_lambda hg ih hn
  | classDef hn => exact agree_class hg ih hn
  | comprehension hn => exact agree_comprehension hg ih hn
  | @importStmt aliases hn =>
    have leaf : ∀ c ∈ n.children, c.form.category = .alias := by
      rw [below, hn]
      exact fun c hc => category_of_fits fits (l := aliases) (by simp [hn, Form.fields]) hc
    exact agree_import hg leaf (by simp [isName, hn]) (by simp [isFunctionLike, hn, Form.isFunctionLike])
  | @importFrom module aliases level hn =>
    have leaf : ∀ c ∈ n.children, c.form.category = .alias := by
      rw [below, hn]
      exact fun c hc => category_of_fits fits (l := aliases) (by simp [hn, Form.fields]) hc
    exact agree_import hg leaf (by simp [isName, hn]) (by simp [isFunctionLike, hn, Form.isFunctionLike])
  | declared hn ht =>
    exact agree_declared hg hn (by simp [isName, ht])
      (child (by simp [below, hn, Form.children])) rfl
  | @walrus target value x context hn ht =>
    have stored := agree_stored_name (isGrammatical_child hg (c := target)
      (by simp [below, hn, Form.children])) (by simp [isName, ht])
      (o := ⟨target, x, false, true, some value⟩) rfl (d := .hoist x target) rfl
    apply Agree.plain hg (by simp [isName, hn]) (by simp [isFunctionLike, hn, Form.isFunctionLike])
    rw [below, hn]
    exact stored.append (child (by simp [below, hn, Form.children]))
  | bareWalrus hn ht =>
    obtain ⟨x, context, hform⟩ := exists_walrus_name fits hn
    exact absurd hform (ht x context)
  | @assign targets value hn =>
    have first : Agree (targets.flatMap (storeDirectives (some value) false)) targets := by
      apply Agree.flatMap
      intro c hc
      exact target (by simp [below, hn, Form.children, hc]) _ _
    apply Agree.plain hg (by simp [isName, hn]) (by simp [isFunctionLike, hn, Form.isFunctionLike])
    rw [below, hn]
    exact first.append (child (by simp [below, hn, Form.children]))
  | augmented hn =>
    apply Agree.plain hg (by simp [isName, hn]) (by simp [isFunctionLike, hn, Form.isFunctionLike])
    rw [below, hn]
    exact (target (by simp [below, hn, Form.children]) _ _).append
      (child (by simp [below, hn, Form.children]))
  | annotated hn =>
    apply Agree.plain hg (by simp [isName, hn]) (by simp [isFunctionLike, hn, Form.isFunctionLike])
    rw [below, hn]
    exact ((target (by simp [below, hn, Form.children]) _ _).append
      (child (by simp [below, hn, Form.children]))).append
        (child (by simp [below, hn, Form.children]))
  | hinted hn =>
    apply Agree.plain hg (by simp [isName, hn]) (by simp [isFunctionLike, hn, Form.isFunctionLike])
    rw [below, hn]
    exact (child (by simp [below, hn, Form.children])).append
      (child (by simp [below, hn, Form.children]))
  | globalDecl hn | nonlocalDecl hn =>
    apply Agree.plain hg (by simp [isName, hn]) (by simp [isFunctionLike, hn, Form.isFunctionLike])
    rw [below, hn]
    exact .of_silent (by simp [Directive.isSilent])

end Parts

/-- The scopes and the walk take every part of a grammatical program to the same place. -/
theorem agrees {n : Node} (hg : n.isGrammatical = true) : n.Agrees := by
  induction n using induct_below with
  | step n ih =>
    have below (c : Node) (hc : c ∈ n.children.flatMap preorder) : c.Agrees :=
      ih c hc (isGrammatical_of_mem hg (mem_preorder_of_below hc))
    have whole := agree_directives hg below
    exact {
      whole := whole
      target := fun value isRead => agree_store hg below value isRead whole
      clause := agree_clause hg below
      turn := agree_turn below }

end Node

end LostUpdate
