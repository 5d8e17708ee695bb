import LostUpdate.Proofs.Scope.Occurrence
import LostUpdate.Proofs.Walk.Allowed
import LostUpdate.Proofs.Walk.Pieces
import Mathlib.Data.List.Induction

namespace LostUpdate

/-- What an event does to a node, if it is about one. -/
def Event.visit? : Event → Option Stop
  | .enter n => some (.enter n)
  | .exit n => some (.exit n)
  | .pathStart _ owner _ => some (.start owner)
  | _ => none

namespace Event

/-- The nodes of events, seen from one side. -/
def nodes (side : Stop → Option Node) (events : List Event) : List Node :=
  events.filterMap fun e => e.visit?.bind side

theorem nodes_append (side : Stop → Option Node) (first second : List Event) :
    nodes side (first ++ second) = nodes side first ++ nodes side second :=
  List.filterMap_append

theorem nodes_cons (side : Stop → Option Node) (e : Event) (events : List Event) :
    nodes side (e :: events) = (e.visit?.bind side).toList ++ nodes side events := by
  unfold nodes
  cases h : e.visit?.bind side <;> simp [h]

theorem nodes_visits (side : Stop → Option Node) (owners : List Node) (events : List Event) :
    Stop.nodes side (visits owners events) = nodes side events := by
  induction events generalizing owners with
  | nil => rfl
  | cons e events ih =>
    rw [nodes_cons]
    cases e <;> simp [visits, Stop.nodes_cons, visit?, ih]

end Event

/-- A list can be split in one way only at an element that no other agrees with. -/
theorem split_unique {α β : Type} {f : α → Option β} {before after first last : List α} {a b : α}
    {y : β} (hn : ((before ++ a :: after).filterMap f).Nodup)
    (h : before ++ a :: after = first ++ b :: last) (ha : f a = some y) (hb : f b = some y) :
    before = first ∧ a = b ∧ after = last := by
  have twice {l m r : List α} {c d : α} (hc : f c = some y) (hd : f d = some y) :
      ¬ ((l ++ c :: (m ++ d :: r)).filterMap f).Nodup := by
    rw [List.filterMap_append, List.filterMap_cons_some hc, List.filterMap_append,
      List.filterMap_cons_some hd]
    intro hn
    have inner := (List.nodup_cons.1 (List.nodup_append.1 hn).2.1).1
    exact inner (by simp)
  rcases List.append_eq_append_iff.1 h with ⟨m, rfl, hm⟩ | ⟨m, rfl, hm⟩
  · cases m with
    | nil => simpa using hm
    | cons c m =>
      obtain ⟨rfl, rfl⟩ : a = c ∧ after = m ++ b :: last := by simpa using hm
      exact absurd hn (twice ha hb)
  · cases m with
    | nil =>
      obtain ⟨rfl, rfl⟩ : b = a ∧ last = after := by simpa using hm
      exact ⟨by simp, rfl, rfl⟩
    | cons c m =>
      obtain ⟨rfl, rfl⟩ : b = c ∧ last = m ++ a :: after := by simpa using hm
      rw [List.append_assoc, List.cons_append] at hn
      exact absurd hn (twice hb ha)

namespace Node

theorem mem_preorder_of_event {n : Node} (hg : n.isGrammatical = true) {side : Stop → Option Node}
    (hside : Stop.Shows side) {q : Node} (hq : q ∈ Event.nodes side n.events) : q ∈ n.preorder := by
  classical
  rw [← Event.nodes_visits side []] at hq
  have bound := count_nodes_events_le hside hg q
  exact List.count_pos_iff.1 (Nat.lt_of_lt_of_le (List.count_pos_iff.2 hq) bound)

end Node

namespace GrammaticalTree

open LostUpdate.Tree

variable {t : GrammaticalTree} {n : Node}

/-- A walk enters, leaves and starts every node once at most. -/
theorem nodup_events (hn : n ∈ t.nodes) {side : Stop → Option Node} (hside : Stop.Shows side) :
    (Event.nodes side n.events).Nodup := by
  classical
  have distinct := nodup_preorder hn
  rw [List.nodup_iff_count_le_one] at distinct ⊢
  intro q
  have bound := Node.count_nodes_events_le hside (t.isGrammatical_of_mem hn) q
  rw [Event.nodes_visits] at bound
  exact Nat.le_trans bound (distinct q)

theorem mem_nodes_of_event (hn : n ∈ t.nodes) {side : Stop → Option Node} (hside : Stop.Shows side)
    {q : Node} (hq : q ∈ Event.nodes side n.events) : q ∈ t.nodes :=
  mem_nodes_trans hn (Node.mem_preorder_of_event (t.isGrammatical_of_mem hn) hside hq)

end GrammaticalTree

namespace Trail

/-- A visit among the visits of events is made by one of the events, inside the code it tells. -/
theorem exists_event {t : Trail} {events : List Event} (h : t.AllowsAll events)
    {before after : List (List Node × Stop)} {os : List Node} {v : Stop}
    (hv : Event.visits t.owners events = before ++ (os, v) :: after) :
    ∃ first e later, events = first ++ e :: later ∧ e.visit? = some v ∧
      (t.after first).owners = os := by
  induction events generalizing t before with
  | nil => simp [Event.visits] at hv
  | cons e events ih =>
    have later {before' : List (List Node × Stop)}
        (hv : Event.visits (t.record e).owners events = before' ++ (os, v) :: after) :
        ∃ first e' later, e :: events = first ++ e' :: later ∧ e'.visit? = some v ∧
          (t.after first).owners = os := by
      obtain ⟨first, e', later, rfl, hvisit, howners⟩ := ih h.2 hv
      exact ⟨e :: first, e', later, rfl, hvisit, howners⟩
    rw [visits_cons t h.1] at hv
    cases hvisit : e.visit? with
    | none =>
      have quiet : Event.visits t.owners [e] = [] := by
        cases e <;> simp_all [Event.visits, Event.visit?]
      rw [quiet, List.nil_append] at hv
      exact later hv
    | some w =>
      have here : Event.visits t.owners [e] = [(t.owners, w)] := by
        cases e <;> simp_all [Event.visits, Event.visit?]
      rw [here, List.singleton_append] at hv
      cases before with
      | nil =>
        obtain ⟨⟨hos, rfl⟩, -⟩ : (t.owners = os ∧ w = v) ∧ _ := by simpa using hv
        exact ⟨[], e, events, rfl, hvisit, hos⟩
      | cons first before =>
        obtain ⟨-, hv⟩ : _ ∧ Event.visits (t.record e).owners events = before ++ (os, v) :: after := by
          simpa using hv
        exact later hv

/-- Open paths have been open, or have started since, the last one first. -/
theorem owners_after_sublist (t : Trail) (events : List Event) :
    (t.after events).owners.Sublist
      ((Event.nodes Stop.started? events).reverse ++ t.owners) := by
  induction events using List.reverseRecOn with
  | nil => exact List.Sublist.refl _
  | append_singleton events e ih =>
    rw [after_concat, Event.nodes_append, List.reverse_append]
    generalize t.after events = u at ih
    cases e with
    | pathStart id owner upper => exact ih.cons_cons owner
    | segment s =>
      have same : (u.record (.segment s)).owners = u.owners := by
        cases h : u.opened <;> simp [record, owners, h]
      rw [same]
      exact ih
    | pathEnd id owner returned thrown =>
      refine List.Sublist.trans ?_ ih
      simp [record, owners, List.map_tail, List.tail_sublist]
    | _ => exact ih

/-- The owners of the open paths are among those whose paths have started. -/
theorem owners_sublist (events : List Event) :
    (empty.after events).owners.Sublist (Event.nodes Stop.started? events).reverse := by
  have sublist := owners_after_sublist empty events
  have closed : empty.owners = [] := rfl
  rwa [closed, List.append_nil] at sublist

end Trail

namespace Node

theorem isPlain_of_passesOn {n : Node} (h : n.passesOn = true) : n.isPlain = true := by
  cases hform : n.form <;>
    simp_all [passesOn, isPlain, isFunctionLike, Form.isFunctionLike, isSignature, isClause]

theorem isPlain_of_assignedValue? {n v : Node} (h : n.assignedValue? = some v) :
    n.isPlain = true := by
  cases hform : n.form <;>
    simp_all [assignedValue?, isPlain, isFunctionLike, Form.isFunctionLike, isSignature, isClause]

/-- An assignment is a row of parts, its targets before its value. -/
theorem innerFlow_assignment {p v : Node} (hv : p.assignedValue? = some v) :
    ∃ parts, p.targets ⊆ parts ∧ p.children = parts ++ [v] ∧
      p.innerFlow = .sequence ((parts ++ [v]).map flow) := by
  cases p with
  | mk i s f =>
    rw [innerFlow.eq_def]
    cases f
    case assign targets value =>
      obtain rfl : value = v := by simpa [assignedValue?, form] using hv
      refine ⟨targets, List.Subset.refl _, rfl, ?_⟩
      simp only [map_flow_attach]
      rfl
    case augmented target op value =>
      obtain rfl : value = v := by simpa [assignedValue?, form] using hv
      refine ⟨[target], List.Subset.refl _, rfl, ?_⟩
      simp only [map_flow_attach]
      rfl
    case walrus target value =>
      obtain rfl : value = v := by simpa [assignedValue?, form] using hv
      refine ⟨[target], List.Subset.refl _, rfl, ?_⟩
      simp only [map_flow_attach]
      rfl
    case annotated target hint value simple =>
      obtain rfl : value = some v := by simpa [assignedValue?, form] using hv
      refine ⟨[target, hint], by simp [targets, form], rfl, ?_⟩
      simp only [map_flow_attach]
      rfl
    all_goals simp [assignedValue?, form] at hv

end Node

namespace GrammaticalTree

open LostUpdate.Tree

variable {t : GrammaticalTree} {n p x v : Node}

/-- Where a name in a target is entered, in a function, the assignment is entered. -/
theorem enter_assignment (hn : n ∈ t.nodes) (hp : p ∈ t.nodes)
    (hs : p.Stores v x) {f : Node} {outer : List Node} (hf : f.isFunctionLike = true)
    (hv : (f :: outer, Stop.enter x) ∈ Event.visits [] n.events) :
    (f :: outer, Stop.enter p) ∈ Event.visits [] n.events := by
  obtain ⟨hvalue, target, htarget, hreach⟩ := hs
  have climb {q c : Node} (hq : q ∈ t.nodes) (hplain : q.isPlain = true) (hc : c ∈ q.children)
      (hv : (f :: outer, Stop.enter c) ∈ Event.visits [] n.events) :
      (f :: outer, Stop.enter q) ∈ Event.visits [] n.events := by
    refine (enter_parent_events hn hq hplain hc hv).resolve_left ?_
    rintro ⟨rfl, hos, hplain⟩
    obtain rfl : f = c := (List.cons.inj hos).1
    simp [hf] at hplain
  have reach {y : Node} (hy : y ∈ t.nodes) (h : Node.Reaches x y) :
      (f :: outer, Stop.enter y) ∈ Event.visits [] n.events := by
    induction h with
    | self => exact hv
    | step passes hc _ ih =>
      exact climb hy (Node.isPlain_of_passesOn passes) hc (ih (mem_nodes_of_mem_children hy hc))
  have child := Node.mem_children_of_mem_targets htarget
  exact climb hp (Node.isPlain_of_assignedValue? hvalue) child
    (reach (mem_nodes_of_mem_children hp child) hreach)

/-- In a function, the value that is stored through a name is left after the name has been entered,
and in the same code. -/
theorem exit_after_enter (hn : n ∈ t.nodes) (hp : p ∈ t.nodes)
    (hs : p.Stores v x) {name : String} {context : Context}
    (hx : x.form = .name name context) {done rest : List Event}
    (hevents : n.events = done ++ .enter x :: rest) {f : Node} {outer : List Node}
    (howners : (Trail.empty.after done).owners = f :: outer) (hf : f.isFunctionLike = true) :
    ∃ first later, rest = first ++ .exit v :: later ∧
      (Trail.empty.after (done ++ .enter x :: first)).owners = f :: outer := by
  have allowed := n.events_allowed.1
  rw [hevents] at allowed
  obtain ⟨hdone, hnext⟩ := Trail.allowsAll_append.1 allowed
  have visits : Event.visits [] n.events = Event.visits [] done ++
      (f :: outer, Stop.enter x) :: Event.visits (f :: outer) rest := by
    have split := Trail.empty.visits_append hdone (.enter x :: rest)
    rw [howners] at split
    rw [hevents]
    exact split
  have henter : (f :: outer, Stop.enter x) ∈ Event.visits [] n.events := by
    rw [visits]
    simp
  have hassign := enter_assignment hn hp hs hf henter
  obtain ⟨hvalue, target, htarget, hreach⟩ := hs
  have notClause := Node.isClause_of_isPlain (Node.isPlain_of_assignedValue? hvalue)
  have piece := Node.piece_of_enter_events (t.isGrammatical_of_mem hn) hassign notClause
  have block := piece.visits_block.trans (List.suffix_cons ([], Stop.start n) _).isInfix
  rw [← Node.visits_events] at block
  obtain ⟨parts, hparts, -, hflow⟩ := Node.innerFlow_assignment hvalue
  -- The name is entered among the parts before the value.
  have child := Node.mem_children_of_mem_targets htarget
  obtain ⟨os, hin, -⟩ : ∃ os, (os, Stop.enter x) ∈ target.flow.visits (f :: outer) ∧
      (os, Stop.exit x) ∈ target.flow.visits (f :: outer) := by
    exact Node.mem_visits_flow _ (Node.isGrammatical_child (t.isGrammatical_of_mem hp) child)
      (Node.mem_preorder_of_reaches hreach) (by simp [Node.isSignature, hx])
  obtain ⟨one, two, hsplit⟩ := List.append_of_mem
    (List.mem_flatMap.2 ⟨target, hparts htarget, hin⟩ :
      (os, Stop.enter x) ∈ parts.flatMap fun c => c.flow.visits (f :: outer))
  obtain ⟨before, after, hblock⟩ := block
  rw [Node.visits_flow_eq, hflow, Node.visits_map_flow, List.flatMap_append, List.flatMap_cons,
    List.flatMap_nil, List.append_nil, hsplit, Node.visits_flow_eq (f :: outer) v] at hblock
  have distinct := nodup_events hn Stop.shows_entered?
  rw [← Event.nodes_visits Stop.entered? [], visits] at distinct
  have again : Event.visits [] n.events = (before ++ (f :: outer, Stop.enter p) :: one) ++
      (os, Stop.enter x) :: (two ++ ((f :: outer, Stop.enter v) :: (v.innerFlow.visits (f :: outer) ++
        [(f :: outer, Stop.exit v)])) ++ [(f :: outer, Stop.exit p)] ++ after) := by
    rw [← hblock]
    simp
  obtain ⟨-, -, hrest⟩ := split_unique distinct (visits.symm.trans again) rfl rfl
  have inner : Event.visits (Trail.empty.after (done ++ [.enter x])).owners rest =
      (two ++ (f :: outer, Stop.enter v) :: v.innerFlow.visits (f :: outer)) ++
        (f :: outer, Stop.exit v) :: ([(f :: outer, Stop.exit p)] ++ after) := by
    rw [Trail.after_concat, Trail.record, howners, hrest]
    simp
  obtain ⟨first, e, later, rfl, hvisit, hos⟩ := Trail.exists_event
    (t := Trail.empty.after (done ++ [.enter x])) (by rw [Trail.after_concat]; exact hnext.2) inner
  obtain rfl : e = .exit v := by
    cases e <;> simp_all [Event.visit?]
  refine ⟨first, later, rfl, ?_⟩
  rw [← List.singleton_append, ← List.append_assoc, Trail.after_append]
  exact hos

end GrammaticalTree

end LostUpdate
