import LostUpdate.Proofs.Scope.Region

namespace LostUpdate

/-- What a part of a program can say to a region: that it binds or declares names, or that it is
there. -/
inductive Fact
  | binds (name : String)
  | declaresGlobal (names : List String)
  | declaresNonlocal (names : List String)
  | opens

namespace Node

/-- A name that is given and not empty. -/
def given (name : Option String) : List String := name.toList.filter (· ≠ "")

/-- The names that a node binds in the region in which it stands. -/
def boundNames (n : Node) : List String :=
  match n.form with
  | .name _ .load => []
  | .name x _ => [x]
  | .function _ name .. | .classDef name .. => [name]
  | .importStmt names => names.filterMap importedName
  | .importFrom _ names _ => names.filterMap importedMember
  | .handler _ name _ | .matchAs _ name | .matchStar name | .matchMapping _ _ name => given name
  | _ => []

/-- The names that a function binds in its own region. -/
def parameterNames (n : Node) : List String :=
  match n.form with
  | .function _ _ parameters .. | .lambda parameters _ => parameters.declaredParameters.map (·.1)
  | _ => []

/-- The name that `:=` binds outside of the comprehensions around it. -/
def hoistedName? (n : Node) : Option String :=
  match n.form with
  | .walrus target _ => match target.form with
    | .name x _ => some x
    | _ => none
  | _ => none

section Names

variable {n : Node} {x name : String}

theorem firstPart_eq_iff : firstPart name = x ↔ IsFirstPart x name := by
  constructor
  · rintro rfl
    have split := List.takeWhile_append_dropWhile (p := (· ≠ '.')) (l := name.toList)
    have plain : ∀ c ∈ name.toList.takeWhile (· ≠ '.'), c ≠ '.' := fun c hc => by
      simpa using List.mem_takeWhile_imp hc
    refine ⟨fun h => ?_, ?_⟩
    · rw [firstPart, String.toList_ofList] at h
      exact plain '.' h rfl
    · cases hrest : name.toList.dropWhile (· ≠ '.') with
      | nil =>
        rw [hrest, List.append_nil] at split
        exact .inl (by rw [firstPart, split, String.ofList_toList])
      | cons c rest =>
        have dot : c = '.' := by
          have some : name.toList.dropWhile (· ≠ '.') ≠ [] := hrest ▸ List.cons_ne_nil c rest
          have head := List.head_dropWhile_not (· ≠ '.') some
          simp only [hrest, List.head_cons] at head
          simpa using head
        refine .inr ⟨String.ofList rest, ?_⟩
        rw [← String.toList_inj, ← split, hrest, dot]
        simp [firstPart]
  · rintro ⟨plain, whole⟩
    have all : ∀ c ∈ x.toList, decide (c ≠ '.') = true := fun c hc =>
      decide_eq_true fun same => plain (same ▸ hc)
    rcases whole with rfl | ⟨rest, rfl⟩
    · rw [firstPart, List.takeWhile_eq_self_iff.2 all, String.ofList_toList]
    · rw [firstPart, String.toList_append, String.toList_append, List.append_assoc,
        List.takeWhile_append_of_pos all]
      simp

theorem mem_given {o : Option String} : x ∈ given o ↔ o = some x ∧ x ≠ "" := by
  cases o with
  | none => simp [given]
  | some y =>
    rw [given, List.mem_filter, Option.mem_toList, decide_eq_true_eq]

theorem importedName_eq_some : importedName n = some x ↔ ∃ name asName,
    n.form = .alias name asName ∧
      (asName.getD "" = "" ∧ IsFirstPart x name ∨ asName = some x ∧ x ≠ "") := by
  unfold importedName
  constructor
  · intro h
    split at h
    · rename_i name asName hform
      refine ⟨name, _, hform, ?_⟩
      split_ifs at h with unnamed
      · exact .inl ⟨unnamed, firstPart_eq_iff.1 (Option.some.inj h)⟩
      · exact .inr ⟨h, Option.some.inj h ▸ unnamed⟩
    · rename_i name hform
      exact ⟨name, _, hform, .inl ⟨rfl, firstPart_eq_iff.1 (Option.some.inj h)⟩⟩
    · cases h
  · rintro ⟨name, asName, hform, ⟨unnamed, first⟩ | ⟨rfl, named⟩⟩
    · rw [hform]
      cases asName with
      | none => exact congrArg some (firstPart_eq_iff.2 first)
      | some a => simpa [show a = "" from unnamed] using firstPart_eq_iff.2 first
    · simp [hform, named]

theorem importedMember_eq_some : importedMember n = some x ↔ ∃ name asName,
    n.form = .alias name asName ∧ name ≠ "*" ∧
      (asName.getD "" = "" ∧ name = x ∨ asName = some x ∧ x ≠ "") := by
  unfold importedMember
  constructor
  · intro h
    split at h
    · rename_i name asName hform
      refine ⟨name, asName, hform, ?_⟩
      split_ifs at h with star
      refine ⟨star, ?_⟩
      cases asName with
      | none => exact .inl ⟨rfl, Option.some.inj h⟩
      | some a =>
        dsimp only at h
        split_ifs at h with unnamed
        · exact .inl ⟨unnamed, Option.some.inj h⟩
        · exact .inr ⟨h, Option.some.inj h ▸ unnamed⟩
    · cases h
  · rintro ⟨name, asName, hform, star, ⟨unnamed, rfl⟩ | ⟨rfl, named⟩⟩
    · cases asName with
      | none => simp [hform, star]
      | some a => simp [hform, star, show a = "" from unnamed]
    · simp [hform, star, named]

/-- The list of names has those that are bound by the fields of the node. -/
theorem mem_boundNames : x ∈ n.boundNames ↔ n.BindsHere x := by
  constructor
  · intro h
    cases hform : n.form <;> simp only [boundNames, hform, List.not_mem_nil] at h
    case name y context =>
      cases context <;> simp at h <;> exact h ▸ .name hform (by decide)
    case function => exact .function (List.mem_singleton.1 h ▸ hform)
    case classDef => exact .classDef (List.mem_singleton.1 h ▸ hform)
    case importStmt names =>
      obtain ⟨a, ha, hx⟩ := List.mem_filterMap.1 h
      obtain ⟨name, asName, halias, ⟨unnamed, first⟩ | ⟨rfl, named⟩⟩ := importedName_eq_some.1 hx
      · exact .importModule hform ha halias unnamed first
      · exact .importModuleAs hform ha halias named
    case importFrom module names level =>
      obtain ⟨a, ha, hx⟩ := List.mem_filterMap.1 h
      obtain ⟨name, asName, halias, star, ⟨unnamed, rfl⟩ | ⟨rfl, named⟩⟩ :=
        importedMember_eq_some.1 hx
      · exact .importMember hform ha halias unnamed star
      · exact .importMemberAs hform ha halias named star
    case handler =>
      obtain ⟨rfl, some⟩ := mem_given.1 h
      exact .handler hform some
    case matchAs =>
      obtain ⟨rfl, some⟩ := mem_given.1 h
      exact .matchAs hform some
    case matchStar =>
      obtain ⟨rfl, some⟩ := mem_given.1 h
      exact .matchStar hform some
    case matchMapping =>
      obtain ⟨rfl, some⟩ := mem_given.1 h
      exact .matchMapping hform some
  · intro h
    cases h with
    | @name context hform stored => cases context <;> simp_all [boundNames]
    | function hform | classDef hform => simp [boundNames, hform]
    | importModule hform ha halias unnamed first =>
      rw [boundNames, hform]
      exact List.mem_filterMap.2 ⟨_, ha, importedName_eq_some.2 ⟨_, _, halias, .inl ⟨unnamed, first⟩⟩⟩
    | importModuleAs hform ha halias named =>
      rw [boundNames, hform]
      exact List.mem_filterMap.2 ⟨_, ha, importedName_eq_some.2 ⟨_, _, halias, .inr ⟨rfl, named⟩⟩⟩
    | importMember hform ha halias unnamed star =>
      rw [boundNames, hform]
      exact List.mem_filterMap.2
        ⟨_, ha, importedMember_eq_some.2 ⟨_, _, halias, star, .inl ⟨unnamed, rfl⟩⟩⟩
    | importMemberAs hform ha halias named star =>
      rw [boundNames, hform]
      exact List.mem_filterMap.2
        ⟨_, ha, importedMember_eq_some.2 ⟨_, _, halias, star, .inr ⟨rfl, named⟩⟩⟩
    | handler hform some | matchAs hform some | matchStar hform some | matchMapping hform some =>
      rw [boundNames, hform]
      exact mem_given.2 ⟨rfl, some⟩

theorem mem_declaredParameters : x ∈ n.declaredParameters.map (·.1) ↔ n.DeclaresParameter x := by
  unfold declaredParameters DeclaresParameter
  constructor
  · intro h
    cases hform : n.form <;> simp only [hform, List.map_nil, List.not_mem_nil] at h
    case parameterList p =>
      obtain ⟨⟨y, q⟩, hq, rfl⟩ := List.mem_map.1 h
      obtain ⟨q', hmem, heq⟩ := List.mem_filterMap.1 hq
      cases hparameter : q'.form <;> simp only [hparameter, reduceCtorEq] at heq
      case parameter name hint =>
        obtain ⟨rfl, rfl⟩ := Prod.mk.inj (Option.some.inj heq)
        refine ⟨p, q', hint, rfl, hparameter, ?_⟩
        simp only [Parameters.declared, List.mem_append, Option.mem_toList] at hmem
        grind
  · rintro ⟨p, q, hint, hform, hparameter, place⟩
    rw [hform]
    refine List.mem_map.2 ⟨(x, q), List.mem_filterMap.2 ⟨q, ?_, by rw [hparameter]⟩, rfl⟩
    simp only [Parameters.declared, List.mem_append, Option.mem_toList]
    grind

theorem mem_parameterNames : x ∈ n.parameterNames ↔ n.HasParameter x := by
  constructor
  · intro h
    cases hform : n.form <;> simp only [parameterNames, hform, List.not_mem_nil] at h
    case function => exact .function hform (mem_declaredParameters.1 h)
    case lambda => exact .lambda hform (mem_declaredParameters.1 h)
  · intro h
    cases h with
    | function hform h | lambda hform h =>
      rw [parameterNames, hform]
      exact mem_declaredParameters.2 h

theorem hoistedName?_eq_some : n.hoistedName? = some x ↔ n.Hoists x := by
  constructor
  · intro h
    cases hform : n.form <;> simp only [hoistedName?, hform, reduceCtorEq] at h
    case walrus target value =>
      cases htarget : target.form <;> simp only [htarget, reduceCtorEq] at h
      exact ⟨target, value, _, hform, Option.some.inj h ▸ htarget⟩
  · rintro ⟨target, value, context, hform, htarget⟩
    simp [hoistedName?, hform, htarget]

end Names

def declarations (n : Node) : List Fact :=
  match n.form with
  | .globalDecl names => [.declaresGlobal names]
  | .nonlocalDecl names => [.declaresNonlocal names]
  | _ => []

/-- Whether the node opens a region. -/
def isBlock (n : Node) : Bool :=
  match n.form with
  | .function .. | .lambda .. | .classDef .. | .comprehension .. => true
  | _ => false

/-- What a node says by itself, if it stands in the regions `bs`. -/
def ownFacts (bs : List Region) (n : Node) : List (List Region × Fact) :=
  n.boundNames.map (fun x => (bs, .binds x)) ++
    n.hoistedName?.toList.map (fun x => (bs.dropWhile (·.passesBindings), .binds x)) ++
    n.declarations.map (fun f => (bs, f)) ++
    (if n.isBlock then [(n.region :: bs, .opens)] else []) ++
    n.parameterNames.map (fun x => (n.region :: bs, .binds x))

theorem mem_below_of_mem_surface {n c : Node} (hc : c ∈ n.surface) :
    c ∈ n.children.flatMap preorder := by
  cases hn : n.form
  case function | lambda | classDef | comprehension =>
    simp only [surface, hn] at hc
    exact mem_below_of_mem_heading hc
  case walrus target value =>
    simp only [surface, hn, List.mem_singleton] at hc
    subst hc
    exact mem_below_of_mem_children (by simp [children, hn, Form.children])
  all_goals
    simp only [surface, hn] at hc
    exact mem_below_of_mem_children hc

theorem mem_below_of_mem_interior {n c : Node} (hc : c ∈ n.interior) :
    c ∈ n.children.flatMap preorder := by
  cases hn : n.form
  case function | lambda | classDef =>
    simp only [interior, hn] at hc
    exact mem_below_of_mem_children (by simp_all [children, Form.children])
  case comprehension collector elements clauses =>
    simp only [interior, hn, List.mem_append, List.mem_flatMap, Option.mem_toList] at hc
    have child {q : Node} (hq : q ∈ elements ++ clauses) : q ∈ n.children := by
      simpa [children, hn, Form.children] using hq
    rcases hc with (⟨q, hq, hc⟩ | hc) | hc
    · exact mem_below_trans (child (List.mem_append_right _ (List.mem_of_head? hq)))
        (mem_children_of_mem_turn hc)
    · exact mem_below_of_mem_children (child (List.mem_append_right _ (List.mem_of_mem_tail hc)))
    · exact mem_below_of_mem_children (child (List.mem_append_left _ hc))
  all_goals simp [interior, hn] at hc

theorem sizeOf_lt_of_mem_below {n c : Node} (hc : c ∈ n.children.flatMap preorder) :
    sizeOf c < sizeOf n := by
  obtain ⟨d, hd, hc⟩ := List.mem_flatMap.1 hc
  exact Nat.lt_of_le_of_lt (sizeOf_le_of_mem_preorder hc) (sizeOf_lt_of_mem_children hd)

/-- What a node and all below it say, if it stands in the regions `bs`. -/
def facts (bs : List Region) (n : Node) : List (List Region × Fact) :=
  n.ownFacts bs ++ (n.surface.attach.flatMap fun ⟨c, _⟩ => c.facts bs) ++
    n.interior.attach.flatMap fun ⟨c, _⟩ => c.facts (n.region :: bs)
termination_by n
decreasing_by
  · exact sizeOf_lt_of_mem_below (mem_below_of_mem_surface ‹_›)
  · exact sizeOf_lt_of_mem_below (mem_below_of_mem_interior ‹_›)

theorem facts_eq (bs : List Region) (n : Node) : n.facts bs = n.ownFacts bs ++
    n.surface.flatMap (facts bs) ++ n.interior.flatMap (facts (n.region :: bs)) := by
  rw [facts, List.flatMap_subtype (fun _ _ => rfl), List.unattach_attach,
    List.flatMap_subtype (fun _ _ => rfl), List.unattach_attach]

/-- The facts are what the parts of the node say where they stand. -/
theorem mem_facts {n : Node} {bs : List Region} {e : List Region × Fact} :
    e ∈ n.facts bs ↔ ∃ cs p, Stands bs n cs p ∧ e ∈ p.ownFacts cs := by
  constructor
  · intro h
    induction n using induct_below generalizing bs with
    | step n ih =>
      rw [facts_eq, List.mem_append, List.mem_append] at h
      rcases h with (h | h) | h
      · exact ⟨bs, n, .self bs n, h⟩
      · obtain ⟨c, hc, h⟩ := List.mem_flatMap.1 h
        obtain ⟨cs, p, hp, he⟩ := ih c (mem_below_of_mem_surface hc) h
        exact ⟨cs, p, .surface hc hp, he⟩
      · obtain ⟨c, hc, h⟩ := List.mem_flatMap.1 h
        obtain ⟨cs, p, hp, he⟩ := ih c (mem_below_of_mem_interior hc) h
        exact ⟨cs, p, .interior hc hp, he⟩
  · rintro ⟨cs, p, hp, he⟩
    induction hp with
    | self bs n =>
      rw [facts_eq, List.append_assoc]
      exact List.mem_append_left _ he
    | surface hc _ ih =>
      rw [facts_eq, List.mem_append, List.mem_append]
      exact .inl (.inr (List.mem_flatMap.2 ⟨_, hc, ih he⟩))
    | interior hc _ ih =>
      rw [facts_eq, List.mem_append]
      exact .inr (List.mem_flatMap.2 ⟨_, hc, ih he⟩)

theorem suffix_of_stands {bs cs : List Region} {n p : Node} (h : Stands bs n cs p) : bs <:+ cs := by
  induction h with
  | self => exact List.suffix_refl _
  | surface _ _ ih => exact ih
  | interior _ _ ih => exact (List.suffix_cons _ _).trans ih

section Membership

variable {n : Node} {bs cs : List Region} {x : String}

theorem mem_facts_declaresGlobal {names : List String} :
    (cs, Fact.declaresGlobal names) ∈ n.facts bs ↔
      ∃ p, Stands bs n cs p ∧ p.form = .globalDecl names := by
  rw [mem_facts]
  constructor
  · rintro ⟨ds, p, hp, he⟩
    cases hform : p.form <;> simp [ownFacts, declarations, hform] at he
    obtain ⟨rfl, rfl⟩ := he
    exact ⟨p, hp, hform⟩
  · rintro ⟨p, hp, hform⟩
    exact ⟨cs, p, hp, by simp [ownFacts, declarations, hform]⟩

theorem mem_facts_declaresNonlocal {names : List String} :
    (cs, Fact.declaresNonlocal names) ∈ n.facts bs ↔
      ∃ p, Stands bs n cs p ∧ p.form = .nonlocalDecl names := by
  rw [mem_facts]
  constructor
  · rintro ⟨ds, p, hp, he⟩
    cases hform : p.form <;> simp [ownFacts, declarations, hform] at he
    obtain ⟨rfl, rfl⟩ := he
    exact ⟨p, hp, hform⟩
  · rintro ⟨p, hp, hform⟩
    exact ⟨cs, p, hp, by simp [ownFacts, declarations, hform]⟩

theorem mem_facts_opens :
    (cs, Fact.opens) ∈ n.facts bs ↔
      ∃ p ds, Stands bs n ds p ∧ p.isBlock = true ∧ cs = p.region :: ds := by
  rw [mem_facts]
  constructor
  · rintro ⟨ds, p, hp, he⟩
    refine ⟨p, ds, hp, ?_⟩
    cases hform : p.form <;> simp_all [ownFacts, declarations, isBlock]
  · rintro ⟨p, ds, hp, hblock, rfl⟩
    exact ⟨ds, p, hp, by simp [ownFacts, hblock]⟩

theorem mem_facts_binds :
    (cs, Fact.binds x) ∈ n.facts bs ↔
      (∃ p, Stands bs n cs p ∧ x ∈ p.boundNames) ∨
      (∃ f ds, Stands bs n ds f ∧ x ∈ f.parameterNames ∧ cs = f.region :: ds) ∨
      ∃ p ds, Stands bs n ds p ∧ p.hoistedName? = some x ∧
        cs = ds.dropWhile (·.passesBindings) := by
  have own {p : Node} {ds : List Region} : (cs, Fact.binds x) ∈ p.ownFacts ds ↔
      (x ∈ p.boundNames ∧ cs = ds) ∨ (x ∈ p.parameterNames ∧ cs = p.region :: ds) ∨
        (p.hoistedName? = some x ∧ cs = ds.dropWhile (·.passesBindings)) := by
    have silent : ∀ f ∈ p.declarations, f ≠ .binds x := by
      cases hform : p.form <;> simp [declarations, hform]
    simp only [ownFacts, List.mem_append, List.mem_map, Prod.mk.injEq, Fact.binds.injEq,
      Option.mem_toList]
    grind
  rw [mem_facts]
  constructor
  · rintro ⟨ds, p, hp, he⟩
    rcases own.1 he with ⟨hx, rfl⟩ | ⟨hx, rfl⟩ | ⟨hx, rfl⟩
    · exact .inl ⟨p, hp, hx⟩
    · exact .inr (.inl ⟨p, ds, hp, hx, rfl⟩)
    · exact .inr (.inr ⟨p, ds, hp, hx, rfl⟩)
  · rintro (⟨p, hp, hx⟩ | ⟨p, ds, hp, hx, rfl⟩ | ⟨p, ds, hp, hx, rfl⟩)
    · exact ⟨cs, p, hp, own.2 (.inl ⟨hx, rfl⟩)⟩
    · exact ⟨ds, p, hp, own.2 (.inr (.inl ⟨hx, rfl⟩))⟩
    · exact ⟨ds, p, hp, own.2 (.inr (.inr ⟨hx, rfl⟩))⟩

end Membership

/-- The parts of a node take no more of what is below it than there is. -/
theorem count_parts_le [DecidableEq Node] {n : Node} (h : n.isGrammatical = true) (q : Node) :
    ((n.surface ++ n.interior).flatMap preorder).count q ≤
      (n.children.flatMap preorder).count q := by
  by_cases hf : n.isFunctionLike = true
  · have parts : n.surface ++ n.interior = n.inPlace ++ n.ownCode := by
      rw [inPlace, if_pos hf]
      rcases isFunctionLike_cases hf with ⟨_, _, _, _, _, _, hn⟩ | ⟨_, _, hn⟩ | ⟨_, _, hn⟩ <;>
        simp [surface, interior, ownCode, hn]
    rw [parts, (below_parts h).count_eq, List.count_append]
    omega
  rw [Bool.not_eq_true] at hf
  cases hn : n.form
  case function | lambda => simp [isFunctionLike, hn, Form.isFunctionLike] at hf
  case classDef name bases keywords body decorators =>
    simp only [surface, interior, heading, children, hn, Form.children, List.flatMap_append,
      List.count_append]
    omega
  case comprehension collector elements clauses =>
    obtain ⟨first, rest, target, iterable, conditions, isAsync, rfl, hfirst⟩ := exists_first h hn
    have inner : first.preorder = first :: (target :: iterable :: conditions).flatMap preorder := by
      rw [preorder_eq first]
      simp [children, hfirst, Form.children]
    simp only [surface, interior, heading, children, hn, Form.children, Node.iterable, turn, hfirst,
      inner, List.head?_cons, Option.toList_some, List.tail_cons, List.flatMap_cons,
      List.flatMap_nil, List.flatMap_append, List.cons_append, List.nil_append, List.append_nil,
      List.count_cons, List.count_append]
    omega
  case walrus target value =>
    simp only [surface, interior, children, hn, Form.children, List.append_nil, List.flatMap_cons,
      List.flatMap_nil, List.count_append]
    omega
  all_goals simp [surface, interior, hn]

/-- The nodes that open a region, each as often as it stands in `n`. -/
def openers (l : List (List Region × Fact)) : List Node :=
  l.filterMap fun e => match e with
    | (r :: _, .opens) => some r.node
    | _ => none

theorem openers_ownFacts (bs : List Region) (n : Node) :
    openers (n.ownFacts bs) = if n.isBlock then [n] else [] := by
  have node : n.region.node = n := by
    cases hform : n.form <;> simp [region, hform]
  have silent : openers (n.declarations.map fun f => (bs, f)) = [] := by
    cases hform : n.form <;> simp [declarations, openers, hform]
  have binds {ds : List Region} {l : List String} :
      openers (l.map fun x => (ds, Fact.binds x)) = [] := by
    rw [openers, List.filterMap_eq_nil_iff]
    intro e he
    obtain ⟨x, -, rfl⟩ := List.mem_map.1 he
    cases ds <;> rfl
  have split (l m : List (List Region × Fact)) : openers (l ++ m) = openers l ++ openers m :=
    List.filterMap_append
  rw [ownFacts, split, split, split, split, binds, binds, binds, silent]
  split_ifs <;> simp [openers, node]

theorem count_openers_le [DecidableEq Node] {n : Node} (h : n.isGrammatical = true)
    (bs : List Region) (q : Node) : (openers (n.facts bs)).count q ≤ n.preorder.count q := by
  induction n using induct_below generalizing bs with
  | step n ih =>
    have parts (cs : List Region) : ∀ l : List Node, (∀ c ∈ l, c ∈ n.children.flatMap preorder) →
        (openers (l.flatMap (facts cs))).count q ≤ (l.flatMap preorder).count q := by
      intro l hl
      induction l with
      | nil => simp [openers]
      | cons c l ihl =>
        have below := hl c List.mem_cons_self
        have first := ih c below (isGrammatical_of_mem h (mem_preorder_of_below below)) cs
        have later := ihl fun d hd => hl d (List.mem_cons_of_mem _ hd)
        have split : openers ((c :: l).flatMap (facts cs)) =
            openers (c.facts cs) ++ openers (l.flatMap (facts cs)) := List.filterMap_append
        rw [split, List.flatMap_cons, List.count_append, List.count_append]
        omega
    have outer := parts bs n.surface fun c hc => mem_below_of_mem_surface hc
    have inner := parts (n.region :: bs) n.interior fun c hc => mem_below_of_mem_interior hc
    have bound := count_parts_le h q
    have own : (openers (n.ownFacts bs)).count q ≤ [n].count q := by
      rw [openers_ownFacts]
      split_ifs
      · exact Nat.le_refl _
      · simp
    have split : openers (n.facts bs) = openers (n.ownFacts bs) ++
        openers (n.surface.flatMap (facts bs)) ++
          openers (n.interior.flatMap (facts (n.region :: bs))) := by
      rw [facts_eq]
      simp only [openers, List.filterMap_append]
    have all : n.preorder.count q = [n].count q + (n.children.flatMap preorder).count q := by
      rw [preorder_eq, ← List.count_append]
      rfl
    rw [List.flatMap_append, List.count_append] at bound
    rw [split, List.count_append, List.count_append, all]
    omega

end Node

def openings (l : List (List Region × Fact)) : List (List Region) :=
  l.filterMap fun (bs, f) => match f with
    | .opens => some bs
    | _ => none

theorem openings_perm {l m : List (List Region × Fact)} (h : l.Perm m) :
    (openings l).Perm (openings m) :=
  h.filterMap _

theorem nodup_openings {n : Node} (h : n.isGrammatical = true) (hn : n.preorder.Nodup)
    (bs : List Region) : (openings (n.facts bs)).Nodup := by
  classical
  have single : (Node.openers (n.facts bs)).Nodup := by
    rw [List.nodup_iff_count_le_one]
    intro q
    exact (Node.count_openers_le h bs q).trans (List.nodup_iff_count_le_one.1 hn q)
  rw [Node.openers, List.Nodup, List.pairwise_filterMap] at single
  rw [openings, List.Nodup, List.pairwise_filterMap]
  refine single.imp_of_mem ?_
  rintro ⟨cs, f⟩ ⟨cs', f'⟩ hmem hmem' apart ds hds ds' hds' rfl
  cases f <;> simp only [Option.some.injEq, reduceCtorEq] at hds
  cases f' <;> simp only [Option.some.injEq, reduceCtorEq] at hds'
  subst hds hds'
  obtain ⟨p, ds, -, -, rfl⟩ := Node.mem_facts_opens.1 hmem
  exact apart p.region.node rfl p.region.node rfl rfl

section Rules

variable {root : Node} {cs : List Region} {x : String}

theorem Node.declaresGlobal_iff : root.DeclaresGlobal cs x ↔
    ∃ names, (cs, Fact.declaresGlobal names) ∈ root.facts [.program root] ∧ x ∈ names := by
  simp only [DeclaresGlobal, mem_facts_declaresGlobal]
  constructor
  · rintro ⟨p, names, hp, hform, hx⟩
    exact ⟨names, ⟨p, hp, hform⟩, hx⟩
  · rintro ⟨names, ⟨p, hp, hform⟩, hx⟩
    exact ⟨p, names, hp, hform, hx⟩

theorem Node.declaresNonlocal_iff : root.DeclaresNonlocal cs x ↔
    ∃ names, (cs, Fact.declaresNonlocal names) ∈ root.facts [.program root] ∧ x ∈ names := by
  simp only [DeclaresNonlocal, mem_facts_declaresNonlocal]
  constructor
  · rintro ⟨p, names, hp, hform, hx⟩
    exact ⟨names, ⟨p, hp, hform⟩, hx⟩
  · rintro ⟨names, ⟨p, hp, hform⟩, hx⟩
    exact ⟨p, names, hp, hform, hx⟩

/-- The rule for bindings, as a question about the list of facts. -/
theorem Node.binds_iff (hcs : cs ≠ []) : root.Binds cs x ↔
    (cs, Fact.binds x) ∈ root.facts [.program root] ∨
      (cs = [.program root] ∧ ∃ ds, root.DeclaresGlobal ds x) := by
  rw [mem_facts_binds]
  constructor
  · intro h
    cases h with
    | here hp hx => exact .inl (.inl ⟨_, hp, mem_boundNames.2 hx⟩)
    | parameter hf hx => exact .inl (.inr (.inl ⟨_, _, hf, mem_parameterNames.2 hx, rfl⟩))
    | @hoisted inner cs r p x hp hx hinner hr =>
      refine .inl (.inr (.inr ⟨p, _, hp, hoistedName?_eq_some.2 hx, ?_⟩))
      rw [List.dropWhile_append_of_pos hinner, List.dropWhile_cons_of_neg (by simp [hr])]
    | @global ds x hd => exact .inr ⟨rfl, ds, hd⟩
  · rintro ((⟨p, hp, hx⟩ | ⟨f, ds, hf, hx, rfl⟩ | ⟨p, ds, hp, hx, rfl⟩) | ⟨rfl, ds, hd⟩)
    · exact .here hp (mem_boundNames.1 hx)
    · exact .parameter hf (mem_parameterNames.1 hx)
    · have split := List.takeWhile_append_dropWhile (p := Region.passesBindings) (l := ds)
      have inner : ∀ q ∈ ds.takeWhile (·.passesBindings), q.passesBindings = true :=
        fun q hq => List.mem_takeWhile_imp hq
      have head : ∀ r rest, ds.dropWhile (·.passesBindings) = r :: rest →
          r.passesBindings = false := by
        intro r rest hrest
        have first := List.head_dropWhile_not Region.passesBindings hcs
        simpa [hrest] using first
      generalize ds.takeWhile (·.passesBindings) = outwards at split inner
      generalize ds.dropWhile (·.passesBindings) = rest at split head hcs
      cases rest with
      | nil => exact absurd rfl hcs
      | cons r rest =>
        subst split
        exact .hoisted hp (hoistedName?_eq_some.1 hx) inner (head r rest rfl)
    · exact .global hd

end Rules

end LostUpdate
