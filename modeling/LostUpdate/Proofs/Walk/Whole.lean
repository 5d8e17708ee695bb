import LostUpdate.Proofs.Walk.Bracketing
import LostUpdate.Proofs.Walk.Hosts
import Mathlib

namespace LostUpdate

namespace Event

/-- The code path that runs after events. -/
def active? (events : List Event) : Option OpenPath := (Trail.empty.after events).opened.head?

/-- Events of walking a whole node leave its code path running. -/
theorem Bracketed.active?_id {events : List Event} (h : Bracketed events) (before : List Event) :
    (active? (before ++ events)).map (·.id) = (active? before).map (·.id) := by
  have same := congrArg List.head? (h.opened (Trail.empty.after before))
  simpa only [active?, Trail.after_append, List.head?_map] using same

end Event

namespace Node

open LostUpdate.Flow

variable {n a q f : Node} {owners : List Node}

/-- What is in the first iterable of a generator expression runs ahead of the clause it stands in. -/
def RunsAhead (n a q : Node) : Prop :=
  ∃ g ∈ n.preorder, a ∈ g.firstClause ∧ q ∈ a.iterable.flatMap preorder

theorem block_of_piece {g : Flow} (h : Piece owners g [n] n.programFlow) : g.BlockIn n.events :=
  (h.walk_block (Walk.alone 0) (Walk.entry 0)).mono ⟨[_, _], [_], rfl⟩

/-- The walk of a program enters everything in it but signatures. -/
theorem exists_enter_of_plain (h : n.isGrammatical = true) (hplain : n.isPlain = true)
    (hq : q ∈ n.preorder) (hs : q.isSignature = false) :
    ∃ os, (os, Stop.enter q) ∈ Event.visits [] n.events ∧
      (os, Stop.exit q) ∈ Event.visits [] n.events := by
  obtain ⟨os, enter, exit⟩ := mem_visits_flow [n] h hq hs
  rw [visits_events_of_plain (isFunctionLike_of_isPlain hplain)]
  exact ⟨os, List.mem_cons_of_mem _ enter, List.mem_cons_of_mem _ exit⟩

/-- The walk of a function: its heading, and then its code path. -/
theorem exists_function_block (h : n.isGrammatical = true) (hf : f.isFunctionLike = true)
    (hv : (owners, Stop.enter f) ∈ Event.visits [] n.events) :
    ∃ around p q before later, n.events = before ++ .enter f ::
      ((walk around (sequence (f.heading.map flow)) p).1 ++
        (walk around (.codePath f f.bodyFlow) q).1 ++ later) := by
  have piece := piece_of_enter_events h hv (not_framing_of_functionLike hf).2
  rw [flow_eq, innerFlow_functionLike hf] at piece
  obtain ⟨around, p, before, later, hblock⟩ := block_of_piece piece
  refine ⟨around, p, (walk around (sequence (f.heading.map flow)) p).2, before, .exit f :: later, ?_⟩
  rw [← hblock]
  simp [walk, Walk.andThen, Walk.emit]

/-- What is below a clause is entered by the flow of the clause, but for what that flow skips. -/
theorem mem_visits_clause (os : List Node) {target iterable : Node} {conditions : List Node}
    (hl : ∀ c ∈ target :: iterable :: conditions, c.isGrammatical = true) {skips : Bool}
    (hq : q ∈ (target :: iterable :: conditions).flatMap preorder) (hs : q.isSignature = false)
    (hskips : skips = true → q ∉ iterable.preorder) : ∃ owners, (owners, Stop.enter q) ∈
      (Flow.seq (if skips then .idle else iterable.flow)
        (.seq target.flow (.sequence (conditions.map flow)))).visits os := by
  obtain ⟨c, hc, mem⟩ := List.mem_flatMap.1 hq
  obtain ⟨owners, enter, -⟩ := mem_visits_flow os (hl c hc) mem hs
  refine ⟨owners, ?_⟩
  simp only [Flow.visits, visits_map_flow, List.mem_append, List.mem_flatMap]
  rcases List.mem_cons.1 hc with rfl | hc
  · exact .inr (.inl enter)
  · rcases List.mem_cons.1 hc with rfl | hc
    · rw [if_neg fun first => hskips first mem]
      exact .inl enter
    · exact .inr (.inr ⟨c, hc, enter⟩)

/-- What is below a node is walked between entering and leaving the node, or runs ahead of it. -/
theorem encloses_of_below (h : n.isGrammatical = true) (hplain : n.isPlain = true)
    (ha : a ∈ n.preorder) (hsa : a.isSignature = false) (hq : q ∈ a.children.flatMap preorder)
    (hsq : q.isSignature = false) (hahead : ¬ n.RunsAhead a q) : Event.Encloses a q n.events := by
  have grammatical := isGrammatical_of_mem h ha
  by_cases hclause : a.isClause = true
  · rcases eq_or_exists_parent ha with rfl | ⟨g, hg, hchild⟩
    · simp [isPlain, hclause] at hplain
    obtain ⟨collector, elements, clauses, hn⟩ :=
      exists_comprehension (isGrammatical_of_mem h hg) hchild hclause
    obtain ⟨os, enter, -⟩ := exists_enter_of_plain h hplain hg (by simp [isSignature, hn])
    obtain ⟨owners, skips, hskips, piece⟩ :=
      piece_clauseFlow os (isGrammatical_of_mem h hg) hchild hclause
    have block := block_of_piece ((piece_of_enter_events h enter (by simp [isClause, hn])).trans piece)
    have framed := clauseFlow_framed (fun c hc => flow_framed (isGrammatical_child grammatical hc)) skips
    obtain ⟨target, iterable, conditions, isAsync, hform⟩ :=
      exists_clause (isClause_eq_true_iff.1 hclause)
    have parts : a.children = target :: iterable :: conditions := by
      simp [children, hform, Form.children]
    rw [clauseFlow_eq hform] at block framed
    rw [parts] at hq
    obtain ⟨os, inside⟩ := mem_visits_clause owners
      (fun c hc => isGrammatical_child grammatical (parts ▸ hc)) hq hsq
      (fun first hi => hahead ⟨g, hg, hskips first, by simpa [Node.iterable, hform] using hi⟩)
    exact block.encloses framed.inner inside
  · obtain ⟨owners, enter, -⟩ := exists_enter_of_plain h hplain ha hsa
    have block := block_of_piece (piece_of_enter_events h enter (by simpa using hclause))
    have framed := flow_framed grammatical
    rw [flow_eq] at block framed
    obtain ⟨os, inside, -⟩ := mem_visits_flow owners grammatical (mem_preorder_of_below hq) hsq
    have other : q ≠ a := fun same => absurd (sizeOf_lt_of_below hq) (by simp [same])
    rw [visits_flow_eq] at inside
    exact block.encloses framed.inner (by simpa [other] using inside)

theorem mem_heading_of_firstClause {g c : Node} (ha : a ∈ g.firstClause) (hc : c ∈ a.iterable) :
    c ∈ g.heading := by
  cases hn : g.form
  case comprehension collector elements clauses =>
    cases collector
    case generator =>
      simp only [firstClause, hn] at ha
      simp only [Node.heading, hn]
      exact List.mem_flatMap.2 ⟨a, ha, hc⟩
    all_goals simp [firstClause, hn] at ha
  all_goals simp [firstClause, hn] at ha

/-- The first iterable of a generator expression has been left when its clause is entered. -/
theorem interval_of_runsAhead (h : n.isGrammatical = true) (hplain : n.isPlain = true)
    (hsq : q.isSignature = false) (hahead : n.RunsAhead a q) :
    ∃ before later, n.events = before ++ .enter a :: later ∧ Event.Interval q before := by
  obtain ⟨g, hg, ha, hq⟩ := hahead
  have hf : g.isFunctionLike = true := isFunctionLike_of_bodyPart (List.mem_append_left _ ha)
  have grammatical := isGrammatical_of_mem h hg
  have headed {c : Node} (hc : c ∈ g.heading) : c.isGrammatical = true :=
    isGrammatical_of_mem grammatical (mem_preorder_of_below (mem_below_of_mem_heading hc))
  obtain ⟨os, enter, -⟩ := exists_enter_of_plain h hplain hg (not_framing_of_functionLike hf).1
  obtain ⟨around, p, r, before, later, hevents⟩ := exists_function_block h hf enter
  -- The iterable is walked with the heading, the clause with the code path behind it.
  obtain ⟨c, hc, hq⟩ := List.mem_flatMap.1 hq
  have mem := mem_heading_of_firstClause ha hc
  obtain ⟨inner, inside, -⟩ := mem_visits_flow os (headed mem) hq hsq
  have ahead : Event.Interval q (walk around (sequence (g.heading.map flow)) p).1 :=
    Framed.interval (.sequence fun c hc => flow_framed (headed hc)) around p
      (visits_map_flow os g.heading ▸ List.mem_flatMap.2 ⟨c, mem, inside⟩)
  have clause : (g :: os, Stop.enter a) ∈ (Flow.codePath g g.bodyFlow).visits os := by
    refine List.mem_cons_of_mem _ ?_
    rw [(visits_bodyFlow (g :: os) grammatical hf).mem_iff]
    exact List.mem_append_left _ (List.mem_flatMap.2 ⟨a, ha, by simp⟩)
  obtain ⟨first, second, hsplit⟩ := List.append_of_mem (mem_walk_of_visits clause around r)
  exact ⟨(before ++ [.enter g]) ++ (walk around (sequence (g.heading.map flow)) p).1 ++ first,
    second ++ later, by simp [hevents, hsplit], ahead.widen _ _⟩

end Node

/-- What is known of a walk of a whole program. -/
structure Node.WalkedWhole (n : Node) : Prop where
  /-- What is entered or started last is left or ended first. -/
  bracketed : Event.Bracketed n.events
  /-- No node is entered twice, and only signatures are not entered. -/
  entered : (Event.nodes Stop.entered? n.events).Perm (n.preorder.filter (!·.isSignature))
  left : (Event.nodes Stop.left? n.events).Perm (n.preorder.filter (!·.isSignature))
  inside : ∀ a ∈ n.preorder, a.isSignature = false → ∀ q ∈ a.children.flatMap preorder,
    q.isSignature = false → ¬ n.RunsAhead a q → Event.Encloses a q n.events
  ahead : ∀ a q, q.isSignature = false → n.RunsAhead a q →
    ∃ before later, n.events = before ++ .enter a :: later ∧ Event.Interval q before
  /-- The program and its functions have one code path each. -/
  owners : ((CodePath.ofEvents n.events).map (·.owner)).Perm
    (n :: n.preorder.filter (·.isFunctionLike))
  root : ∀ p ∈ CodePath.ofEvents n.events, p.owner = n → p.upper = none
  /-- Above a function's path is the one that runs where the function is entered. -/
  upper : ∀ p ∈ CodePath.ofEvents n.events, p.owner ≠ n →
    ∃ before later, n.events = before ++ .enter p.owner :: later ∧
      p.upper = (Event.active? before).map (·.id)
  /-- A node is entered in the path of its host or, without one, in the path of the program. -/
  hosted : ∀ before q later, n.events = before ++ .enter q :: later →
    ∃ path, Event.active? before = some path ∧
      (n.Hosts path.owner q ∨ path.owner = n ∧ ∀ g ∈ n.preorder, q ∉ g.bodyPart)

namespace CodePath

@[simp] theorem upper_keep (p : CodePath) (e : Event) : (p.keep e).upper = p.upper := by
  cases e <;> simp only [keep, addLoopedEdge] <;> split_ifs <;> rfl

theorem upper_foldl (p : CodePath) (events : List Event) :
    (events.foldl keep p).upper = p.upper := by
  induction events generalizing p with
  | nil => rfl
  | cons e events ih => rw [List.foldl_cons, ih, upper_keep]

/-- A walk makes a code path for each start of one. -/
theorem owners_ofEvents (events : List Event) :
    (ofEvents events).map (·.owner) = Event.nodes Stop.started? events := by
  have all (paths : List CodePath) : (events.foldl record paths).map (·.owner) =
      paths.map (·.owner) ++ Event.nodes Stop.started? events := by
    induction events generalizing paths with
    | nil => simp [Event.nodes]
    | cons e events ih =>
      rw [List.foldl_cons, ih, record_eq, Event.nodes_cons]
      cases e <;> simp [Event.visit?, Stop.started?, start, Function.comp_def]
  exact all []

end CodePath

namespace GrammaticalTree

open Node LostUpdate.Tree

variable {t : GrammaticalTree} {n q : Node}

theorem mem_nodes_of_visit {side : Stop → Option Node} {owners : List Node} {v : Stop}
    (hv : (owners, v) ∈ Event.visits [] n.events) (hq : side v = some q) :
    q ∈ Event.nodes side n.events := by
  rw [← Event.nodes_visits side []]
  exact List.mem_filterMap.2 ⟨_, hv, hq⟩

/-- What a walk does to all nodes but signatures, it does to each of them once and to no others. -/
theorem nodes_events_perm (hn : n ∈ t.nodes) (hplain : n.isPlain = true)
    {side : Stop → Option Node} (hside : Stop.Shows side)
    (hall : ∀ q ∈ n.preorder, q.isSignature = false → q ∈ Event.nodes side n.events) :
    (Event.nodes side n.events).Perm (n.preorder.filter (!·.isSignature)) := by
  have hg := t.isGrammatical_of_mem hn
  refine (List.perm_ext_iff_of_nodup (nodup_events hn hside)
    ((nodup_preorder hn).filter _)).2 fun q => ?_
  simp only [List.mem_filter, Bool.not_eq_true']
  refine ⟨fun hq => ⟨mem_preorder_of_event hg hside hq, ?_⟩, fun hq => hall q hq.1 hq.2⟩
  have hs := isSignature_of_isPlain hplain
  rw [← Event.nodes_visits side [], visits_events_of_plain (isFunctionLike_of_isPlain hplain)] at hq
  obtain ⟨v, hv, hqv⟩ := List.mem_filterMap.1 hq
  obtain rfl := hside.node_eq hqv
  rcases List.mem_cons.1 hv with rfl | hv
  · exact hs
  · exact isSignature_of_visit hg hs hv

theorem owners_perm (hn : n ∈ t.nodes) (hplain : n.isPlain = true) :
    ((CodePath.ofEvents n.events).map (·.owner)).Perm
      (n :: n.preorder.filter (·.isFunctionLike)) := by
  have hg := t.isGrammatical_of_mem hn
  have hf := isFunctionLike_of_isPlain hplain
  rw [CodePath.owners_ofEvents]
  refine (List.perm_ext_iff_of_nodup (nodup_events hn Stop.shows_started?)
    (List.nodup_cons.2 ⟨by simp [hf], (nodup_preorder hn).filter _⟩)).2 fun f => ?_
  rw [List.mem_cons, List.mem_filter]
  constructor
  · intro started
    have mem := mem_preorder_of_event hg Stop.shows_started? started
    rw [← Event.nodes_visits Stop.started? []] at started
    obtain ⟨⟨owners, v⟩, hv, hfv⟩ := List.mem_filterMap.1 started
    obtain rfl : v = .start f := by cases v <;> simp_all [Stop.started?]
    exact (enter_of_start hg hv).imp_right fun h => ⟨mem, h.1⟩
  · rintro (rfl | ⟨mem, hl⟩)
    · have visits := visits_events_of_plain (isFunctionLike_of_isPlain hplain)
      exact mem_nodes_of_visit (visits ▸ List.mem_cons_self) rfl
    · obtain ⟨os, enter, -⟩ :=
        exists_enter_of_plain hg hplain mem (not_framing_of_functionLike hl).1
      obtain ⟨upper, paths, block⟩ := exists_own_block hg hl enter
      exact List.mem_filterMap.2 ⟨_, block.subset List.mem_cons_self, rfl⟩

/-- Where a code path starts, and what is known of the one above it. -/
theorem start_of_path {p : CodePath} (hp : p ∈ CodePath.ofEvents n.events) :
    ∃ before id later, n.events = before ++ .pathStart id p.owner p.upper :: later ∧
      p.upper = (Event.active? before).map (·.id) := by
  obtain ⟨before, id, owner, upper, later, hsplit, rfl⟩ := CodePath.mem_ofEvents.1 hp
  rw [CodePath.owner_foldl, CodePath.upper_foldl]
  have allowed := n.events_allowed.1
  rw [hsplit] at allowed
  exact ⟨before, id, later, hsplit, (Trail.allowsAll_append.1 allowed).2.1.2⟩

theorem upper_of_root (hn : n ∈ t.nodes) {p : CodePath}
    (hp : p ∈ CodePath.ofEvents n.events) (howner : p.owner = n) : p.upper = none := by
  obtain ⟨before, id, later, hsplit, hupper⟩ := start_of_path hp
  have distinct := nodup_events hn Stop.shows_started?
  rw [hsplit] at distinct
  have alone : before ++ .pathStart id p.owner p.upper :: later = [] ++ n.events := hsplit.symm
  obtain ⟨rfl, -, -⟩ := split_unique distinct alone (by rw [howner]; rfl) rfl
  exact hupper

/-- Between entering a function and the start of its code path, the path it stands in runs. -/
theorem upper_of_function (hn : n ∈ t.nodes) {p : CodePath}
    (hp : p ∈ CodePath.ofEvents n.events) (howner : p.owner ≠ n) :
    ∃ before later, n.events = before ++ .enter p.owner :: later ∧
      p.upper = (Event.active? before).map (·.id) := by
  have hg := t.isGrammatical_of_mem hn
  have started := CodePath.started_of_mem_ofEvents hp
  rw [← Event.nodes_visits Stop.started? []] at started
  obtain ⟨⟨owners, v⟩, hv, hfv⟩ := List.mem_filterMap.1 started
  obtain rfl : v = .start p.owner := by cases v <;> simp_all [Stop.started?]
  obtain ⟨hl, os, enter⟩ := (enter_of_start hg hv).resolve_left howner
  have grammatical := Node.isGrammatical_of_mem hg
    (mem_preorder_of_event hg Stop.shows_started? (CodePath.started_of_mem_ofEvents hp))
  obtain ⟨around, r, s, before, later, hevents⟩ := exists_function_block hg hl enter
  obtain ⟨first, id, last, hsplit, hupper⟩ := start_of_path hp
  have distinct := nodup_events hn Stop.shows_started?
  rw [hsplit] at distinct
  have headed : Flow.Framed (.sequence (p.owner.heading.map flow)) := .sequence fun c hc =>
    flow_framed (Node.isGrammatical_of_mem grammatical
      (mem_preorder_of_below (mem_below_of_mem_heading hc)))
  have split : n.events = (before ++ [.enter p.owner] ++
      (Flow.walk around (.sequence (p.owner.heading.map flow)) r).1) ++
        (.pathStart (.ordinal (s.paths + 1)) p.owner (some around.path) ::
          (Flow.walk around (.codePath p.owner p.owner.bodyFlow) s).1.tail ++ later) := by
    rw [hevents]
    simp only [List.append_assoc, List.cons_append, List.nil_append]
    rfl
  obtain ⟨rfl, -, -⟩ := split_unique distinct (hsplit.symm.trans split) rfl rfl
  refine ⟨before, _, hevents, hupper.trans ?_⟩
  rw [(headed.walk_bracketed around r).active?_id]
  simp [Event.active?, Trail.after_concat, Trail.record]

/-- A node is entered in the path of its host or, if it has none, in that of the program. -/
theorem active_of_enter (hn : n ∈ t.nodes) (hplain : n.isPlain = true)
    {before later : List Event} (hevents : n.events = before ++ .enter q :: later) :
    ∃ path, Event.active? before = some path ∧
      (n.Hosts path.owner q ∨ path.owner = n ∧ ∀ g ∈ n.preorder, q ∉ g.bodyPart) := by
  have allowed := n.events_allowed.1
  rw [hevents] at allowed
  obtain ⟨hbefore, ⟨path, rest, hopened, -⟩, -⟩ := Trail.allowsAll_append.1 allowed
  refine ⟨path, by simp [Event.active?, hopened], ?_⟩
  have visits := Trail.empty.visits_append hbefore (.enter q :: later)
  have running : (Trail.empty.after before).owners = path.owner :: rest.map (·.owner) := by
    simp [Trail.owners, hopened]
  have entered : (path.owner :: rest.map (·.owner), Stop.enter q) ∈ n.flow.visits [n] := by
    have mem : (path.owner :: rest.map (·.owner), Stop.enter q) ∈ Event.visits [] n.events := by
      rw [hevents, ← running]
      exact visits ▸ List.mem_append_right _ List.mem_cons_self
    rw [visits_events_of_plain (isFunctionLike_of_isPlain hplain)] at mem
    simpa using mem
  rcases host_of_enter hn entered with ⟨howners, none⟩ | ⟨f, outer, howners, hosts⟩
  · exact .inr ⟨(List.cons.inj howners).1, none⟩
  · exact .inl ((List.cons.inj howners).1 ▸ hosts)

/-- What the walk of a program that is no function makes of its nodes and functions. -/
theorem root_walkedWhole (t : GrammaticalTree) (hplain : t.root.isPlain = true) :
    t.root.WalkedWhole where
  bracketed := Walk.ownPath_bracketed none t.root 0 fun around p => by
    rw [programFlow_of_plain (isFunctionLike_of_isPlain hplain)]
    exact (flow_framed t.isGrammatical).walk_bracketed around p
  entered := nodes_events_perm t.root.mem_preorder_self hplain Stop.shows_entered? fun q hq hs => by
    obtain ⟨os, enter, -⟩ := exists_enter_of_plain t.isGrammatical hplain hq hs
    exact mem_nodes_of_visit enter rfl
  left := nodes_events_perm t.root.mem_preorder_self hplain Stop.shows_left? fun q hq hs => by
    obtain ⟨os, -, exit⟩ := exists_enter_of_plain t.isGrammatical hplain hq hs
    exact mem_nodes_of_visit exit rfl
  inside a ha hsa q hq hsq := encloses_of_below t.isGrammatical hplain ha hsa hq hsq
  ahead a q := interval_of_runsAhead t.isGrammatical hplain
  owners := owners_perm t.root.mem_preorder_self hplain
  root p := upper_of_root t.root.mem_preorder_self
  upper p := upper_of_function t.root.mem_preorder_self
  hosted before q later := active_of_enter t.root.mem_preorder_self hplain

end GrammaticalTree

/-- The walk of a program that is no function enters and leaves its nodes as they are nested, and
starts the code paths of its functions. -/
theorem Tree.walkedWhole {t : Tree} {n : Node} (hg : n.isGrammatical = true) (hn : n ∈ t.nodes)
    (hplain : n.isPlain = true) : n.WalkedWhole :=
  (GrammaticalTree.below hn hg).root_walkedWhole hplain

namespace Pick

def iterable : Node := .mk 11 none (.name "rows" .load)

def clause : Node :=
  .mk 9 none (.clause (.mk 10 none (.name "row" .store)) iterable
    [.mk 12 none (.name "limit" .load)] false)

def generator : Node :=
  .mk 7 none (.comprehension .generator [.mk 8 none (.name "row" .load)] [clause])

def parameters : Node :=
  .mk 2 none (.parameterList ⟨[], [.mk 3 none (.parameter "rows" none),
    .mk 4 none (.parameter "limit" none)], none, [], [], none, [.mk 5 none (.name "top" .load)]⟩)

def function : Node :=
  .mk 1 none (.function false "pick" parameters [.mk 6 none (.returnStmt (some generator))] [] none)

/-- A function with a default value, whose body holds a generator expression:

    def pick(rows, limit=top):
        return (row for row in rows if limit)
-/
def root : Node := .mk 0 none (.module [function])

def tree : Tree := ⟨root, root.edges, rfl, pairwise_of_strictlyAscending (by cbv)⟩

theorem isGrammatical : tree.root.isGrammatical = true := by cbv

theorem runsAhead : root.RunsAhead clause iterable := by
  have inReturn : generator ∈ (Node.mk 6 none (.returnStmt (some generator))).preorder :=
    Node.mem_preorder_of_mem_children List.mem_cons_self
  have inFunction : generator ∈ function.preorder :=
    Node.mem_preorder_child (List.mem_cons_of_mem _ List.mem_cons_self) inReturn
  exact ⟨generator, Node.mem_preorder_child List.mem_cons_self inFunction, List.mem_cons_self,
    List.mem_flatMap.2 ⟨iterable, List.mem_cons_self, iterable.mem_preorder_self⟩⟩

end Pick

/-- The iterable of the generator expression has been left when its clause is entered. -/
theorem Tree.walkedWhole_pick : Pick.root.isGrammatical = true ∧ Pick.root ∈ Pick.tree.nodes ∧
    Pick.root.isPlain = true ∧ Pick.root.WalkedWhole ∧
      ∃ before later, Pick.root.events = before ++ .enter Pick.clause :: later ∧
        Event.Interval Pick.iterable before := by
  have mem : Pick.root ∈ Pick.tree.nodes := Pick.root.mem_preorder_self
  have whole := walkedWhole Pick.isGrammatical mem rfl
  exact ⟨Pick.isGrammatical, mem, rfl, whole, whole.ahead _ _ rfl Pick.runsAhead⟩

end LostUpdate
