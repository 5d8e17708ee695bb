import LostUpdate.Proofs.Scope.Agreement
import LostUpdate.Proofs.Scope.Delivery
import LostUpdate.Proofs.Scope.Region

namespace LostUpdate

namespace Node

/-- How a use comes to be among the directives of `n`. -/
inductive Utters (n : Node) (o : NameUse) : Prop
  | loaded (x : String) : n.form = .name x .load → o = ⟨n, x, true, false, none⟩ → Utters n o
  | stored (x : String) (context : Context) : context ≠ .load → n.form = .name x context →
    o = ⟨n, x, false, true, none⟩ → Utters n o
  /-- From a tuple, list or starred expression that is no target. -/
  | element (c : Node) : n.unpacks = true → c ∈ n.children → .use o ∈ c.directives → Utters n o
  | part (q c : Node) : q ∈ n.preorder → q.Employs c → .use o ∈ c.directives → Utters n o
  /-- From a target that takes its values from an iterable. -/
  | loose (q c : Node) : q ∈ n.preorder → q.Employs c → c ∈ q.places →
    .use o ∈ c.storeDirectives none false → Utters n o
  | target (v c : Node) (isRead : Bool) : n.assignedValue? = some v → c ∈ n.targets →
    (isRead = true ↔ n.Augments c) → .use o ∈ c.storeDirectives (some v) isRead → Utters n o

theorem use_notMem_bindName {o : NameUse} {name : Option String} {n : Node} :
    .use o ∉ bindName name n := fun h => by
  simpa [Directive.isSilent] using isSilent_of_mem_bindName h

theorem no_target_of_isFunctionLike {n : Node} (h : n.isFunctionLike = true) :
    n.targets = [] ∧ n.unpacks = false := by
  rcases isFunctionLike_cases h with ⟨_, _, _, _, _, _, hn⟩ | ⟨_, _, hn⟩ | ⟨_, _, hn⟩ <;>
    simp [targets, unpacks, hn]

theorem no_target_of_isSignature {n : Node} (h : n.isSignature = true) :
    n.targets = [] ∧ n.unpacks = false := by
  cases hn : n.form <;> simp_all [isSignature, targets, unpacks]

theorem no_target_of_isClause {n : Node} (h : n.isClause = true) :
    n.targets = [] ∧ n.unpacks = false := by
  cases hn : n.form <;> simp_all [isClause, targets, unpacks]

theorem isClause_of_mem_iterable {n c : Node} (h : c ∈ n.iterable) : n.isClause = true := by
  cases hn : n.form <;> simp_all [iterable, isClause]

section Utterance

variable {n : Node} {o : NameUse}

/-- The parts of a plain node are no targets. -/
theorem utters_part (ht : n.targets = []) (hu : n.unpacks = false) {l : List Node}
    (hl : ∀ c ∈ l, c ∈ n.children) (h : .use o ∈ l.flatMap directives) : n.Utters o := by
  obtain ⟨c, hc, ho⟩ := List.mem_flatMap.1 h
  exact .part n c n.mem_preorder_self (employs_of_targets_eq_nil ht hu (hl c hc)) ho

/-- The heading of a definition or comprehension holds no targets either. -/
theorem utters_heading (hg : n.isGrammatical = true) (h : .use o ∈ n.heading.flatMap directives) :
    n.Utters o := by
  obtain ⟨c, hc, ho⟩ := List.mem_flatMap.1 h
  have held {q : Node} (hq : q ∈ n.preorder) (h : q.targets = [] ∧ q.unpacks = false)
      (hc : c ∈ q.children) : n.Utters o :=
    .part q c hq (employs_of_targets_eq_nil h.1 h.2 hc) ho
  by_cases hf : n.isFunctionLike = true
  · obtain ⟨q, hq, hchild⟩ := exists_parent hf (c := c) (by simp [inPlace, hf, hc])
    rcases hq with rfl | hq
    · exact held q.mem_preorder_self (no_target_of_isFunctionLike hf) hchild
    · refine held (mem_preorder_of_framing hg hq) ?_ hchild
      exact (framing_cases hg hq).elim no_target_of_isSignature no_target_of_isClause
  · cases hform : n.form
    case classDef name bases keywords body decorators =>
      refine held n.mem_preorder_self (by simp [targets, unpacks, hform]) ?_
      simp only [heading, hform, List.mem_append] at hc
      simp only [children, hform, Form.children, List.mem_append]
      tauto
    case comprehension collector elements clauses =>
      simp only [heading, hform, List.mem_flatMap, Option.mem_toList] at hc
      obtain ⟨q, hq, hc⟩ := hc
      have child : q ∈ n.children := by
        simp [children, hform, Form.children, List.mem_of_head? hq]
      exact held (mem_preorder_of_mem_children child)
        (no_target_of_isClause (isClause_of_mem_iterable hc)) (mem_children_of_mem_iterable hc)
    case function | lambda => simp [isFunctionLike, hform, Form.isFunctionLike] at hf
    all_goals simp [heading, hform] at hc

/-- A clause hands its target what it takes from its iterable. -/
theorem utters_clause {c : Node} (hc : c ∈ n.children) {skips : Bool}
    (h : .use o ∈ c.clauseDirectives skips) : n.Utters o := by
  have mem := mem_preorder_of_mem_children hc
  cases c with
  | mk i s f =>
    rw [clauseDirectives.eq_def] at h
    cases f
    case clause target iterable conditions isAsync =>
      have part {d : Node} (hd : d ∈ target :: iterable :: conditions) :
          (mk i s (.clause target iterable conditions isAsync)).Employs d :=
        employs_of_targets_eq_nil rfl rfl hd
      simp only [List.mem_append, List.mem_flatMap] at h
      rcases h with (h | h) | ⟨d, hd, h⟩
      · split_ifs at h
        · simp at h
        · exact .part _ iterable mem (part (by simp)) h
      · exact .loose _ target mem (part (by simp)) (by simp [places, form]) h
      · exact .part _ d mem (part (by simp [hd])) h
    all_goals simp at h

theorem utters_name {x : String} {context : Context} (hn : n.form = .name x context)
    (h : .use o ∈ n.directives) : n.Utters o := by
  cases n with
  | mk i s f =>
    obtain rfl : f = .name x context := hn
    rw [directives.eq_def] at h
    cases context <;>
      simp only [List.mem_cons, List.not_mem_nil, or_false, Directive.use.injEq, reduceCtorEq,
        false_or] at h <;> subst h
    · exact .loaded x rfl rfl
    · exact .stored x .store (by simp) rfl rfl
    · exact .stored x .del (by simp) rfl rfl

theorem utters_value (hn : n.children.Nodup) {v : Node} (hv : n.assignedValue? = some v)
    (h : .use o ∈ v.directives) : n.Utters o :=
  .part n v n.mem_preorder_self (employs_assignedValue hn hv) h

theorem utters_annotated (hc : n.children.Nodup) {target hint : Node} {value : Option Node}
    {simple : Int} (hn : n.form = .annotated target hint value simple)
    (h : .use o ∈ n.directives) : n.Utters o := by
  have parts : n.children = target :: hint :: value.toList := by
    simp [children, hn, Form.children]
  have single : n.targets = [target] := by simp [targets, hn]
  have plain : n.unpacks = false := by simp [unpacks, hn]
  have apart : hint ≠ target := by
    rintro rfl
    simp [parts] at hc
  have ofHint (h : .use o ∈ hint.directives) : n.Utters o :=
    .part n hint n.mem_preorder_self ⟨by simp [parts], plain, by simp [single, apart], fun hd =>
      apart (List.mem_singleton.1 (single ▸ mem_targets_of_declares hd))⟩ h
  cases n with
  | mk i s f =>
    obtain rfl : f = .annotated target hint value simple := hn
    rw [directives.eq_def] at h
    cases value with
    | some value =>
      simp only [List.mem_append] at h
      rcases h with (h | h) | h
      · exact .target value target false rfl (List.mem_singleton_self _) (by simp [Augments, form]) h
      · exact ofHint h
      · exact utters_value hc rfl h
    | none =>
      rcases List.mem_append.1 h with h | h
      · split at h
        · simp at h
        · next hname =>
          -- A target that is no name is looked through like an expression.
          have stays : ¬ (mk i s (.annotated target hint none simple)).Declares target := by
            intro hd
            obtain ⟨x, context, hform⟩ := exists_name hd.1
            exact hname x context hform
          exact .part _ target (mem_preorder_self _)
            ⟨by simp [parts], plain, by simp [assignedValue?, form], stays⟩ h
      · exact ofHint h

theorem utters_walrus (hc : n.children.Nodup) {target value : Node}
    (hn : n.form = .walrus target value) (h : .use o ∈ n.directives) : n.Utters o := by
  cases n with
  | mk i s f =>
    obtain rfl : f = .walrus target value := hn
    rw [directives.eq_def] at h
    rcases List.mem_append.1 h with h | h
    · split at h
      · next x context hform =>
        refine .target value target false rfl (List.mem_singleton_self _)
          (by simp [Augments, form]) ?_
        cases target with
        | mk j r g =>
          obtain rfl : g = .name x context := hform
          rw [storeDirectives.eq_def]
          simpa using h
      · simp at h
    · exact utters_value hc rfl h

theorem utters_comprehension (hg : n.isGrammatical = true) {collector : Collector}
    {elements clauses : List Node} (hn : n.form = .comprehension collector elements clauses)
    (h : .use o ∈ n.directives) : n.Utters o := by
  have parts : n.children = elements ++ clauses := by simp [children, hn, Form.children]
  have heading := utters_heading (o := o) hg
  cases n with
  | mk i s f =>
    obtain rfl : f = .comprehension collector elements clauses := hn
    rw [directives.eq_def] at h
    simp only [List.mem_append, List.mem_cons, List.not_mem_nil, or_false, reduceCtorEq] at h
    rcases h with (h | h) | h
    · exact heading (flatMap_directives_attach _ ▸ h)
    · cases clauses with
      | nil => simp at h
      | cons first rest =>
        simp only [List.mem_append, List.mem_flatMap] at h
        rcases h with h | ⟨q, hq, h⟩
        · exact utters_clause (by simp [parts]) h
        · exact utters_clause (by simp [parts, hq]) h
    · exact utters_part rfl rfl (fun c hc => by simp [parts, hc]) h

/-- What puts a use among the directives of a node. -/
theorem utters_of_use (hg : n.isGrammatical = true) (hn : n.children.Nodup)
    (h : .use o ∈ n.directives) : n.Utters o := by
  have heading (h : .use o ∈ n.heading.attach.flatMap fun c => c.1.directives) : n.Utters o :=
    utters_heading hg (flatMap_directives_attach n.heading ▸ h)
  have parts (h : .use o ∈ n.children.attach.flatMap fun c => c.1.directives) :
      .use o ∈ n.children.flatMap directives := flatMap_directives_attach n.children ▸ h
  have element (hu : n.unpacks = true)
      (h : .use o ∈ n.children.attach.flatMap fun c => c.1.directives) : n.Utters o := by
    obtain ⟨c, hc, h⟩ := List.mem_flatMap.1 (parts h)
    exact .element c hu hc h
  have alone {c : Node} (ht : n.targets = []) (hu : n.unpacks = false) (hc : c ∈ n.children)
      (h : .use o ∈ c.directives) : n.Utters o :=
    .part n c n.mem_preorder_self (employs_of_targets_eq_nil ht hu hc) h
  have below : n.children = n.form.children := rfl
  cases n with
  | mk i s f =>
    cases f
    case name => exact utters_name rfl h
    case annotated => exact utters_annotated hn rfl h
    case walrus => exact utters_walrus hn rfl h
    case comprehension => exact utters_comprehension hg rfl h
    all_goals
      rw [directives.eq_def] at h
      simp only [form, Form.children] at below
    case assign targets value =>
      simp only [List.mem_append, List.mem_flatMap] at h
      rcases h with ⟨c, hc, h⟩ | h
      · exact .target value c false rfl hc (by simp [Augments, form]) h
      · exact utters_value hn rfl h
    case augmented target op value =>
      rcases List.mem_append.1 h with h | h
      · exact .target value target true rfl (List.mem_singleton_self _) (by simp [Augments, form]) h
      · exact utters_value hn rfl h
    case importStmt | importFrom | globalDecl | nonlocalDecl => simp at h
    case matchStar => exact absurd h use_notMem_bindName
    case handler exception name body =>
      simp only [List.mem_append] at h
      rcases h with (h | h) | h
      · cases exception with
        | none => simp at h
        | some e => exact alone (c := e) rfl rfl (by simp [below]) h
      · exact absurd h use_notMem_bindName
      · exact utters_part rfl rfl (fun c hc => by simp [below, hc]) h
    case matchAs pattern name =>
      rcases List.mem_append.1 h with h | h
      · cases pattern with
        | none => simp at h
        | some p => exact alone (c := p) rfl rfl (by simp [below]) h
      · exact absurd h use_notMem_bindName
    case matchMapping keys patterns rest =>
      simp only [List.mem_append] at h
      rcases h with (h | h) | h
      · exact utters_part rfl rfl (fun c hc => by simp [below, hc]) h
      · exact utters_part rfl rfl (fun c hc => by simp [below, hc]) h
      · exact absurd h use_notMem_bindName
    case function isAsync name parameters body decorators returns =>
      simp only [List.mem_append, List.mem_cons, List.not_mem_nil, or_false, List.mem_map,
        reduceCtorEq, and_false, exists_false] at h
      rcases h with h | h
      · exact heading h
      · exact utters_part rfl rfl (fun c hc => by simp [below, hc]) h
    case lambda parameters body =>
      simp only [List.mem_append, List.mem_cons, List.not_mem_nil, or_false, List.mem_map,
        reduceCtorEq, and_false, exists_false] at h
      rcases h with h | h
      · exact heading h
      · exact alone (c := body) rfl rfl (by simp [below]) h
    case classDef name bases keywords body decorators =>
      simp only [List.mem_append, List.mem_cons, List.not_mem_nil, or_false, reduceCtorEq] at h
      rcases h with h | h
      · exact heading h
      · exact utters_part rfl rfl (fun c hc => by simp [below, hc]) h
    case tuple | list | starred => exact element rfl h
    all_goals exact utters_part rfl rfl (fun c hc => hc) (parts h)

end Utterance

end Node

end LostUpdate
