import LostUpdate.Proofs.Scope.Correspondence
import LostUpdate.Proofs.Scope.Resolution
import LostUpdate.Proofs.Scope.Uses

namespace LostUpdate

/-- What `o` tells of its identifier is so in the tree. -/
structure Tree.Classifies (t : Tree) (o : NameUse) : Prop where
  isRead : o.isRead = true ↔
    o.identifier.form = .name o.name .load ∨ ∃ p ∈ t.nodes, p.Augments o.identifier
  isWrite : o.isWrite = true ↔
    o.identifier.form = .name o.name .store ∨ o.identifier.form = .name o.name .del
  value : ∀ v, o.value = some v ↔ ∃ p ∈ t.nodes, p.Delivers v o.identifier
  undeclared : ∀ p ∈ t.nodes, ¬ p.Declares o.identifier

/-- Targets into which no value of an assignment is stored: of loops, `with` and `del`. -/
def Node.looseTargets (n : Node) : List Node :=
  match n.form with
  | .forLoop _ target .. | .clause target .. => [target]
  | .withItem _ target => target.toList
  | .deleteStmt targets => targets
  | _ => []

def Node.isLink (n : Node) : Bool :=
  match n.form with
  | .member .. | .subscript .. => true
  | _ => false

theorem Node.mem_places_of_mem_targets {n c : Node} (h : c ∈ n.targets) : c ∈ n.places := by
  cases hform : n.form <;> simp_all [places, targets]

namespace Tree

variable {t : Tree}

theorem classifies_loaded {n : Node} {x : String} (hn : n.form = .name x .load)
    (h : t.Receives n none false) : t.Classifies ⟨n, x, true, false, none⟩ where
  isRead := by simp [hn]
  isWrite := by simp [hn]
  value := h.value
  undeclared := h.undeclared

theorem classifies_stored {n : Node} {x : String} {context : Context} (hc : context ≠ .load)
    (hn : n.form = .name x context) {value : Option Node} {isRead : Bool}
    (h : t.Receives n value isRead) : t.Classifies ⟨n, x, isRead, true, value⟩ where
  isRead := by simp [hn, hc, h.isRead]
  isWrite := by cases context <;> simp_all
  value := h.value
  undeclared := h.undeclared

/-- Every use that is said of a program classifies its name, whether the part of which it is said is
looked through as an expression or as a target. -/
theorem classifies_of_use {t : ParsedTree} {n : Node} (hn : n ∈ t.nodes) :
    (∀ o, .use o ∈ n.directives →
      (n.isName = true ∨ n.unpacks = true → t.Receives n none false) → t.Classifies o) ∧
    ∀ o value isRead, .use o ∈ n.storeDirectives value isRead → n.isPlace = true →
      t.Receives n value isRead → t.Classifies o := by
  induction n using Node.induct_below with
  | step n ih =>
    have child {c : Node} (hc : c ∈ n.children) := ih c (Node.mem_below_of_mem_children hc)
      (mem_nodes_of_mem_children hn hc)
    have part {q c : Node} (hq : q ∈ n.preorder) (hc : c ∈ q.children) := ih c
      (by
        rw [Node.preorder_eq] at hq
        rcases List.mem_cons.1 hq with rfl | hq
        · exact Node.mem_below_of_mem_children hc
        · obtain ⟨d, hd, hq⟩ := List.mem_flatMap.1 hq
          exact List.mem_flatMap.2
            ⟨d, hd, Node.mem_preorder_trans hq (Node.mem_preorder_of_mem_children hc)⟩)
      (mem_nodes_of_mem_children (mem_nodes_trans hn hq) hc)
    have marked {q c : Node} (hq : q ∈ n.preorder) (hc : c ∈ q.places) : c.isPlace = true :=
      Node.isPlace_of_mem_places (Node.isMarked_of_mem t.isMarked (mem_nodes_trans hn hq)) hc
    have whole : ∀ o, .use o ∈ n.directives →
        (n.isName = true ∨ n.unpacks = true → t.Receives n none false) → t.Classifies o := by
      intro o ho hreceives
      rcases Node.utters_of_use (t.isGrammatical_of_mem hn) (nodup_children hn) ho with
        ⟨x, hform, rfl⟩ | ⟨x, context, hcontext, hform, rfl⟩ | ⟨c, hu, hc, ho⟩ | ⟨q, c, hq, hc, ho⟩ |
        ⟨q, c, hq, hc, hplace, ho⟩ | ⟨v, c, isRead, hv, hc, hr, ho⟩
      · exact classifies_loaded hform (hreceives (.inl (by simp [Node.isName, hform])))
      · exact classifies_stored hcontext hform (hreceives (.inl (by simp [Node.isName, hform])))
      · exact (child hc).1 o ho fun _ => receives_element hn hu hc (hreceives (.inr hu))
      · exact (part hq hc.child).1 o ho fun _ => receives_of_employs (mem_nodes_trans hn hq) hc
      · exact (part hq hc.child).2 o none false ho (marked hq hplace)
          (receives_of_employs (mem_nodes_trans hn hq) hc)
      · have place := marked n.mem_preorder_self (Node.mem_places_of_mem_targets hc)
        exact (child (Node.mem_children_of_mem_targets hc)).2 o _ _ ho place
          (receives_target hn hv hc hr)
    refine ⟨whole, fun o value isRead ho hplace hreceives => ?_⟩
    have element {c : Node} (hu : n.unpacks = true) (hc : c ∈ n.children) (hp : c.isPlace = true)
        (ho : .use o ∈ c.storeDirectives value false) : t.Classifies o :=
      (child hc).2 o _ _ ho hp (receives_element hn hu hc hreceives)
    cases n with
    | mk i s f =>
      rw [Node.storeDirectives.eq_def] at ho
      cases f
      case name x context =>
        have stored : context ≠ .load := by simpa [Node.isPlace, Node.form] using hplace
        obtain rfl : o = ⟨.mk i s (.name x context), x, isRead, true, value⟩ := by simpa using ho
        exact classifies_stored stored rfl hreceives
      case tuple elements context =>
        obtain ⟨c, hc, ho⟩ := List.mem_flatMap.1 ho
        exact element rfl hc (Node.isPlace_of_children hplace (.inl ⟨_, _, rfl⟩) c hc) ho
      case list elements context =>
        obtain ⟨c, hc, ho⟩ := List.mem_flatMap.1 ho
        exact element rfl hc (Node.isPlace_of_children hplace (.inr (.inl ⟨_, _, rfl⟩)) c hc) ho
      case starred inner context =>
        have hc := List.mem_singleton_self inner
        exact element rfl hc (Node.isPlace_of_children hplace (.inr (.inr ⟨_, _, rfl⟩)) inner hc) ho
      all_goals exact whole o ho (by simp [Node.isName, Node.unpacks, Node.form])

/-- A target from which no assignment starts leaves its names without a value. -/
theorem Classifies.value_of_loose {o : NameUse} (h : t.Classifies o) {q target : Node}
    (hq : q ∈ t.nodes) (ht : target ∈ q.looseTargets) (hx : target.Element o.identifier) :
    o.value = none := by
  have facts : target ∈ q.children ∧ q.assignedValue? = none ∧ q.unpacks = false := by
    cases hform : q.form <;>
      simp_all [Node.looseTargets, Node.children, Form.children, Node.assignedValue?, Node.unpacks]
  obtain ⟨hchild, hvalue, hunpacks⟩ := facts
  refine Option.eq_none_iff_forall_ne_some.2 fun v hv => ?_
  have delivered := (h.value v).1 hv
  rw [delivers_element_iff (mem_nodes_of_mem_children hq hchild) hx, delivers_iff hq hchild]
    at delivered
  simp [hvalue, hunpacks] at delivered

/-- A name inside an attribute or subscript has no value but that of a `:=` in there. -/
theorem Classifies.value_of_link {o : NameUse} (h : t.Classifies o) {q v : Node} (hq : q ∈ t.nodes)
    (hl : q.isLink = true) (hx : o.identifier ∈ q.children.flatMap Node.preorder)
    (hv : o.value = some v) : ∃ p ∈ q.children.flatMap Node.preorder, p.Delivers v o.identifier := by
  obtain ⟨p, hp, hdelivers⟩ := (h.value v).1 hv
  have facts : q.unpacks = false ∧ q.assignedValue? = none := by
    cases hform : q.form <;> simp_all [Node.isLink, Node.assignedValue?, Node.unpacks]
  have within := mem_preorder_of_delivers hq facts.1 hp hdelivers hx
  rw [Node.preorder_eq] at within
  rcases List.mem_cons.1 within with rfl | hbelow
  · have assigns := hdelivers.1
    simp [facts.2] at assigns
  · exact ⟨p, hbelow, hdelivers⟩

end Tree

def Directive.identifier? : Directive → Option Node
  | .use o => some o.identifier
  | _ => none

namespace Node

theorem isName_of_mentions {n : Node} {o : NameUse} (h : n.Mentions o) :
    o.identifier.isName = true := by
  obtain ⟨context, hform⟩ := h.name
  simp [isName, hform]

theorem mem_identifiers {n x : Node} : x ∈ n.directives.filterMap Directive.identifier? ↔
    ∃ o, .use o ∈ n.directives ∧ o.identifier = x := by
  rw [List.mem_filterMap]
  constructor
  · rintro ⟨d, hd, hx⟩
    cases d <;> simp only [Directive.identifier?, Option.some.injEq, reduceCtorEq] at hx
    exact ⟨_, hd, hx⟩
  · rintro ⟨o, ho, rfl⟩
    exact ⟨_, ho, rfl⟩

theorem nodup_identifiers {n : Node} (hg : n.isGrammatical = true) (hn : n.preorder.Nodup) :
    (n.directives.filterMap Directive.identifier?).Nodup := by
  classical
  rw [List.nodup_iff_count_le_one]
  intro x
  by_cases hx : x ∈ n.directives.filterMap Directive.identifier?
  · obtain ⟨o, ho, rfl⟩ := mem_identifiers.1 hx
    obtain ⟨declared, hsites, -⟩ := sites_program hg
    have placed := (hsites.map (·.2)).count_eq o.identifier
    have once := count_name_sites_le hg (isName_of_mentions (says_of_mem ho)) [n]
    have distinct := List.nodup_iff_count_le_one.1 hn o.identifier
    have shown : (n.directives.filterMap Directive.identifier?).count o.identifier ≤
        (n.directives.filterMap Directive.site?).count o.identifier :=
      count_filterMap_le fun d _ hd => by cases d <;> simp_all [Directive.identifier?, Directive.site?]
    rw [List.map_append, List.count_append, map_placed] at placed
    omega
  · rw [List.count_eq_zero_of_not_mem hx]
    exact Nat.zero_le 1

/-- A program uses every name that it does not only declare. -/
theorem exists_use {n x : Node} (hg : n.isGrammatical = true) (hx : x ∈ n.preorder)
    (hname : x.isName = true) (hd : ∀ p ∈ n.preorder, ¬ p.Declares x) :
    ∃ o, .use o ∈ n.directives ∧ o.identifier = x := by
  have plain : x.isSignature = false := by
    cases hform : x.form <;> simp_all [isName, isSignature]
  obtain ⟨owners, hv, -⟩ := mem_visits_flow [n] hg hx plain
  obtain ⟨declared, hsites, hdeclared⟩ := sites_program hg
  rcases List.mem_append.1 (hsites.subset ((mem_sites_iff hg hname).2 hv)) with hplaced | hmem
  · have site : x ∈ n.directives.filterMap Directive.site? := by
      rw [← map_placed [n] [[n]]]
      exact List.mem_map_of_mem hplaced
    obtain ⟨d, hd, hsite⟩ := List.mem_filterMap.1 site
    cases d with
    | use o => exact ⟨o, hd, by simpa [Directive.site?] using hsite⟩
    | openScope kind block =>
      have opens : n.Opens kind block := says_of_mem hd
      cases kind <;> simp only [Directive.site?, Option.some.injEq, reduceCtorEq] at hsite
      subst hsite
      simp [not_isName_of_isFunctionLike (opens.function_iff.1 rfl)] at hname
    | _ => simp [Directive.site?] at hsite
  · obtain ⟨p, hp, henter⟩ := hdeclared _ hmem
    exact absurd hp (hd p (mem_preorder_of_visit Stop.shows_entered? hg henter rfl))

end Node

def Entry.identifier? : Entry → Option Node
  | .use o => some o.identifier
  | _ => none

namespace Outline

/-- An outline uses the names that the directives use, in their order. -/
theorem identifiers_eq {blocks : List Block} {opened : List ScopeId} {ds : List Directive}
    {o : Outline} (h : ofDirectives blocks opened ds = .ok o) :
    o.entries.filterMap (fun e => Entry.identifier? e.2) = ds.filterMap Directive.identifier? := by
  induction ds generalizing blocks opened o with
  | nil =>
    obtain rfl : (⟨blocks, []⟩ : Outline) = o := by simpa [ofDirectives] using h
    rfl
  | cons d ds ih =>
    have entry {s : ScopeId} {e : Entry} (he : Entry.identifier? e = d.identifier?)
        (h : (ofDirectives blocks opened ds).map (addEntry s e) = .ok o) :
        o.entries.filterMap (fun e => Entry.identifier? e.2) =
          (d :: ds).filterMap Directive.identifier? := by
      obtain ⟨rest, hrest, rfl⟩ := map_addEntry_eq_ok h
      rw [addEntry, List.filterMap_cons, List.filterMap_cons, he, ih hrest]
    cases d with
    | hoist name definition =>
      simp only [ofDirectives] at h
      cases hr : receiver? blocks opened with
      | none => simp [hr] at h
      | some s =>
        rw [hr] at h
        exact entry rfl h
    | openScope | closeScope => exact ih h
    | _ => exact entry rfl h

theorem identifiers_references (o : Outline) (s : ScopeId) :
    (o.references s).map (·.identifier) =
      (o.entries.filter (·.1 = s)).filterMap fun e => Entry.identifier? e.2 := by
  rw [references, List.map_filterMap, List.filterMap_filter]
  refine List.filterMap_congr fun e _ => ?_
  obtain ⟨u, e⟩ := e
  by_cases hu : u = s <;> cases e <;> simp [Entry.identifier?, hu]

end Outline

namespace Scoping

namespace Outlined

variable {m : Scoping} {o : Outline}

theorem references_eq (h : m.Outlined o) :
    m.references = (List.range' 0 o.blocks.length).flatMap o.references := by
  rw [references, h.scopes, Outline.scopes, List.flatMap_map, ← List.zipIdx_map_snd,
    List.flatMap_map]

theorem use_mem_of_reference (h : m.Outlined o) {r : Reference} (hr : r ∈ m.references) :
    .use r.toNameUse ∈ m.tree.root.directives := by
  have entry := (h.mem_references_iff_entry.1 hr).2
  obtain ⟨-, -, entries⟩ := Outline.ofDirectives_ok (fun d hd => Node.says_of_mem hd)
    (Outline.nested_root _) (Outline.opened_root _) h.outline
  exact (entries _ entry).2 _ rfl

theorem mem_identifiers_iff (h : m.Outlined o) {x : Node} :
    x ∈ m.references.map (·.identifier) ↔ ∃ c, .use c ∈ m.tree.root.directives ∧ c.identifier = x := by
  rw [← Node.mem_identifiers, ← Outline.identifiers_eq h.outline, List.mem_map, List.mem_filterMap]
  constructor
  · rintro ⟨r, hr, rfl⟩
    exact ⟨_, (h.mem_references_iff_entry.1 hr).2, rfl⟩
  · rintro ⟨⟨s, e⟩, he, hx⟩
    cases e <;> simp only [Entry.identifier?, Option.some.injEq, reduceCtorEq] at hx
    next c =>
      have bound := ((Outline.ofRoot_ok h.outline).2 _ he).1
      exact ⟨⟨c, s⟩, h.mem_references_iff_entry.2 ⟨bound, he⟩, hx⟩

end Outlined

variable {m : Scoping} {o : Outline}

theorem Grammatical.nodup_identifiers (h : m.Grammatical o) :
    (m.references.map (·.identifier)).Nodup := by
  have entries : (o.entries.filterMap fun e => Entry.identifier? e.2).Nodup := by
    rw [Outline.identifiers_eq h.outline]
    exact Node.nodup_identifiers h.isGrammatical (List.Nodup.of_map Node.id m.tree.nodup_ids)
  rw [h.references_eq, List.map_flatMap, List.nodup_flatMap]
  refine ⟨fun s _ => ?_, (List.nodup_range' ..).imp fun {s u} apart x hs hu => apart ?_⟩
  · rw [Outline.identifiers_references]
    exact entries.sublist (List.filter_sublist.filterMap _)
  · -- the entries of a name are one entry, so that it stands in one scope
    dsimp only at hs hu
    rw [Outline.identifiers_references, List.mem_filterMap] at hs hu
    obtain ⟨e, he, hx⟩ := hs
    obtain ⟨f, hf, hx'⟩ := hu
    rw [List.mem_filter, decide_eq_true_eq] at he hf
    obtain ⟨i, hi⟩ := List.mem_iff_getElem?.1 he.1
    obtain ⟨j, hj⟩ := List.mem_iff_getElem?.1 hf.1
    obtain rfl := eq_of_getElem?_of_nodup entries hi hj hx hx'
    obtain rfl : e = f := Option.some.inj (hi.symm.trans hj)
    exact he.2.symm.trans hf.2

/-- References tell what is so of their names. -/
theorem Parsed.classifies (h : m.Parsed o) {r : Reference} (hr : r ∈ m.references) :
    m.tree.Classifies r.toNameUse :=
  (Tree.classifies_of_use (t := h.tree) m.tree.root.mem_preorder_self).1 _ (h.use_mem_of_reference hr)
    fun _ => m.tree.receives_root

/-- Every name of a program is the identifier of exactly one reference, unless it is declared without
a value. The reference tells whether the name is read and written, and the value that an assignment
stores into it, directly or by taking a target apart: the targets of loops, `with` and `del` have
none, and names inside attributes and subscripts only that of a `:=` in there. -/
theorem names_classified {t : Tree} {body : List Node} (hr : t.root.form = .module body)
    (hg : t.root.isGrammatical = true) (hm : t.root.isMarked = true) :
    ∃ m, ofTree t = .ok m ∧ (m.references.map (·.identifier)).Nodup ∧
      (∀ x, x ∈ m.references.map (·.identifier) ↔
        x ∈ t.nodes ∧ x.isName = true ∧ ∀ p ∈ t.nodes, ¬ p.Declares x) ∧
      ∀ r ∈ m.references, t.Classifies r.toNameUse ∧
        (∀ q ∈ t.nodes, ∀ target ∈ q.looseTargets, target.Element r.identifier → r.value = none) ∧
        ∀ q ∈ t.nodes, q.isLink = true → r.identifier ∈ q.children.flatMap Node.preorder →
          ∀ v, r.value = some v →
            ∃ p ∈ q.children.flatMap Node.preorder, p.Delivers v r.identifier := by
  have keeps : (Region.program t.root).passesBindings = false := by
    simp [Region.passesBindings, Region.program, hr]
  let parsed : ParsedTree := ⟨⟨t, hg⟩, hm⟩
  obtain ⟨m, hofTree⟩ := exists_ofTree parsed keeps
  obtain ⟨o, h⟩ := exists_parsed (t := parsed) hofTree
  obtain rfl := tree_eq_of_ofTree hofTree
  refine ⟨m, hofTree, h.nodup_identifiers, fun x => ⟨fun hx => ?_, fun hx => ?_⟩, fun r hmem => ?_⟩
  · obtain ⟨r, hr, rfl⟩ := List.mem_map.1 hx
    have mentions := h.mentions hr
    exact ⟨mentions.identifier, Node.isName_of_mentions mentions, (h.classifies hr).undeclared⟩
  · obtain ⟨hx, hname, hd⟩ := hx
    exact h.mem_identifiers_iff.2 (Node.exists_use hg hx hname hd)
  · have tells := h.classifies hmem
    exact ⟨tells, fun q hq target ht => tells.value_of_loose hq ht,
      fun q hq hl hx v => tells.value_of_link hq hl hx⟩

end Scoping

namespace Unpack

def pattern : Node :=
  .mk 2 none (.tuple [.mk 3 none (.name "first" .store),
    .mk 4 none (.tuple [.mk 5 none (.starred (.mk 6 none (.name "rest" .store)) .store),
      .mk 7 none (.member (.mk 8 none (.name "box" .load)) "lid" .store)] .store)] .store)

def row : Node :=
  .mk 9 none (.walrus (.mk 10 none (.name "count" .store)) (.mk 11 none (.name "row" .load)))

def body : List Node :=
  [.mk 1 none (.assign [pattern] row),
    .mk 12 none (.augmented (.mk 13 none (.name "total" .store)) .add
      (.mk 14 none (.constant (.integer 1) none))),
    .mk 15 none (.annotated (.mk 16 none (.name "note" .store)) (.mk 17 none (.name "int" .load))
      none 1)]

/-- Names that are stored in all the ways of assignments:

    first, (*rest, box.lid) = (count := row)
    total += 1
    note: int
-/
def root : Node := .mk 0 none (.module body)

def tree : Tree := ⟨root, root.edges, rfl, pairwise_of_strictlyAscending (by cbv)⟩

theorem isGrammatical : tree.root.isGrammatical = true := by cbv

theorem isMarked : tree.root.isMarked = true := by cbv

def scoping : Scoping := ((Scoping.ofTree tree).toOption).getD ⟨tree, []⟩

theorem ofTree_tree : Scoping.ofTree tree = .ok scoping := by cbv

end Unpack

/-- The name `note` has no reference, `total` is read and written, and the names in the tuple receive
the value of the whole assignment, but for `box`. -/
theorem Scoping.names_classified_unpack : ∃ m, ofTree Unpack.tree = .ok m ∧
    (m.references.map (·.identifier)).Nodup ∧
    (∀ x, x ∈ m.references.map (·.identifier) ↔
      x ∈ Unpack.tree.nodes ∧ x.isName = true ∧ ∀ p ∈ Unpack.tree.nodes, ¬ p.Declares x) ∧
    (∀ r ∈ m.references, Unpack.tree.Classifies r.toNameUse) ∧
    m.references.map (fun r => (r.name, r.isRead, r.isWrite, r.value.map Node.id)) =
      [("first", false, true, some 9), ("rest", false, true, some 9), ("box", true, false, none),
        ("count", false, true, some 11), ("row", true, false, none), ("total", true, true, some 14),
        ("int", true, false, none)] := by
  obtain ⟨m, hm, nodup, names, classified⟩ :=
    names_classified (show Unpack.tree.root.form = .module Unpack.body from rfl)
      Unpack.isGrammatical Unpack.isMarked
  obtain rfl := Except.ok.inj (hm.symm.trans Unpack.ofTree_tree)
  exact ⟨_, hm, nodup, names, fun r hr => (classified r hr).1, by cbv⟩

end LostUpdate
