import LostUpdate.Proofs.Syntax.Parts
import LostUpdate.Proofs.Walk.FlowShape
import LostUpdate.Proofs.Walk.Visits

namespace LostUpdate

namespace Stop

def entered? : Stop → Option Node
  | enter n => some n
  | _ => none

def left? : Stop → Option Node
  | exit n => some n
  | _ => none

def started? : Stop → Option Node
  | start n => some n
  | _ => none

/-- A choice of entering, leaving or starting shows a node once if all of these are done to it. -/
def Shows (side : Stop → Option Node) : Prop :=
  ∀ n, (side (enter n)).toList ++ (side (exit n)).toList ++ (side (start n)).toList = [n]

theorem shows_entered? : Shows entered? := fun _ => rfl

theorem shows_left? : Shows left? := fun _ => rfl

theorem shows_started? : Shows started? := fun _ => rfl

/-- The nodes of visits, seen from one side. -/
def nodes (side : Stop → Option Node) (visits : List (List Node × Stop)) : List Node :=
  visits.filterMap fun v => side v.2

theorem nodes_cons (side : Stop → Option Node) (v : List Node × Stop)
    (later : List (List Node × Stop)) :
    nodes side (v :: later) = (side v.2).toList ++ nodes side later := by
  unfold nodes
  cases h : side v.2 <;> simp [h]

theorem nodes_append (side : Stop → Option Node) (first second : List (List Node × Stop)) :
    nodes side (first ++ second) = nodes side first ++ nodes side second :=
  List.filterMap_append

theorem nodes_flatMap {side : Stop → Option Node} {α : Type} (l : List α)
    (f : α → List (List Node × Stop)) :
    nodes side (l.flatMap f) = l.flatMap fun a => nodes side (f a) :=
  List.filterMap_flatMap

end Stop

namespace Node

open LostUpdate.Flow

theorem visits_map_flow (os : List Node) (l : List Node) :
    (sequence (l.map flow)).visits os = l.flatMap fun c => c.flow.visits os := by
  rw [visits_sequence, List.flatMap_map]

theorem visits_clauseFlow (os : List Node) {n : Node} (hn : n.isClause = true) :
    ((n.clauseFlow false).visits os).Perm (n.flow.visits os) := by
  cases hform : n.form
  case clause target iterable conditions isAsync =>
    classical
    rw [List.perm_iff_count, clauseFlow_eq hform, flow_eq n, innerFlow_clause hform]
    intro v
    simp only [Bool.false_eq_true, if_false, Flow.visits, visits_map_flow, List.flatMap_cons,
      List.count_append]
    omega
  all_goals simp [isClause, hform] at hn

theorem visits_placedFlow (os : List Node) (n : Node) :
    (n.placedFlow.visits os).Perm (n.flow.visits os) := by
  unfold placedFlow
  split_ifs with hn
  · exact visits_clauseFlow os hn
  · rfl

theorem visits_row (os : List Node) (l : List Node) :
    ((sequence (l.map placedFlow)).visits os).Perm (l.flatMap fun c => c.flow.visits os) := by
  rw [visits_sequence, List.flatMap_map]
  exact List.Perm.flatMap_left l fun c _ => visits_placedFlow os c

theorem visitsEach_row (os : List Node) (l : List Node) :
    (visitsEach os (l.map placedFlow)).Perm (l.flatMap fun c => c.flow.visits os) := by
  rw [visitsEach_eq, List.flatMap_map]
  exact List.Perm.flatMap_left l fun c _ => visits_placedFlow os c

theorem visits_clauses (os : List Node) {clauses : List Node}
    (h : ∀ q ∈ clauses, q.isClause = true) :
    ((sequence (clauses.map (clauseFlow false))).visits os).Perm
      (clauses.flatMap fun c => c.flow.visits os) := by
  rw [visits_sequence, List.flatMap_map]
  exact List.Perm.flatMap_left clauses fun q hq => visits_clauseFlow os (h q hq)

/-- Entering and leaving the first clause of a generator expression, in its own code path. -/
def clauseVisits (owners : List Node) (n : Node) : List (List Node × Stop) :=
  n.firstClause.flatMap fun q => [(owners, .enter q), (owners, .exit q)]

theorem visits_flow_eq (os : List Node) (n : Node) :
    n.flow.visits os = (os, .enter n) :: (n.innerFlow.visits os ++ [(os, .exit n)]) := by
  rw [flow_eq]
  rfl

/-- Entering and leaving a node, and starting its code path. -/
def ownVisits (os : List Node) (n : Node) : List (List Node × Stop) :=
  (os, .enter n) :: (os, .exit n) :: if n.isFunctionLike then [(os, .start n)] else []

open Stop

theorem count_nodes_ownVisits_le [DecidableEq Node] {side : Stop → Option Node} (hside : Shows side)
    (os : List Node) (n q : Node) : (nodes side (n.ownVisits os)).count q ≤ [n].count q := by
  have h := congrArg (List.count q) (hside n)
  rw [← h, ownVisits, nodes_cons, nodes_cons]
  split_ifs
  · rw [nodes_cons]
    simp only [nodes, List.filterMap_nil, List.count_append, List.count_nil]
    omega
  · simp only [nodes, List.filterMap_nil, List.count_append, List.count_nil]
    omega

theorem count_nodes_clauseVisits_le [DecidableEq Node] {side : Stop → Option Node}
    (hside : Shows side) (os : List Node) (n q : Node) :
    (nodes side (n.clauseVisits os)).count q ≤ n.firstClause.count q := by
  rw [clauseVisits, nodes_flatMap]
  induction n.firstClause with
  | nil => simp
  | cons c l ih =>
    have h := congrArg (List.count q) (hside c)
    rw [List.flatMap_cons, List.count_append]
    rw [List.count_append, List.count_append] at h
    have both : nodes side [(os, .enter c), (os, .exit c)] =
        (side (.enter c)).toList ++ (side (.exit c)).toList := by
      rw [nodes_cons, nodes_cons]
      simp [nodes]
    rw [both, List.count_append]
    simp only [List.count_cons, List.count_nil] at h ⊢
    omega

theorem count_nodes_flatMap_le [DecidableEq Node] {side : Stop → Option Node} {os l : List Node}
    {q : Node} (h : ∀ c ∈ l, (nodes side (c.flow.visits os)).count q ≤ c.preorder.count q) :
    (l.flatMap fun c => nodes side (c.flow.visits os)).count q ≤ (l.flatMap preorder).count q := by
  induction l with
  | nil => simp
  | cons c l ih =>
    simp only [List.forall_mem_cons] at h
    have later := ih h.2
    simp only [List.flatMap_cons, List.count_append]
    omega

section Grammatical

variable {side : Stop → Option Node} (hside : Shows side) (os : List Node) {n q : Node}
  (h : n.isGrammatical = true)

include h

theorem visits_innerFlow (hf : n.isFunctionLike = false) :
    (n.innerFlow.visits os).Perm (n.children.flatMap fun c => c.flow.visits os) := by
  have shape := innerFlow_shape h
  generalize n.innerFlow = f at shape ⊢
  classical
  have one (c : Node) := List.perm_iff_count.1 (visits_placedFlow os c)
  have row (l : List Node) := List.perm_iff_count.1 (visits_row os l)
  have each (l : List Node) := List.perm_iff_count.1 (visitsEach_row os l)
  cases shape with
  | function hn => simp [hn] at hf
  | entries hn complete =>
    rw [children, hn]
    exact (visits_row os _).trans ((interleave_perm _ _ complete).flatMap_right _)
  | row => exact visits_row os _
  | classDef hn | turns hn | branch hn | conditional hn | noLinks hn | links hn | cases hn
  | whileLoop hn | forLoop hn | attempt hn | final hn =>
    rw [List.perm_iff_count, children, hn]
    intro v
    simp only [Flow.visits, visitsEach, one, row, each, heading, hn, Form.children,
      List.flatMap_cons, List.flatMap_nil, List.flatMap_append, List.count_append, List.count_nil]
    try omega
  | breakStmt hn | continueStmt hn => simp [Flow.visits, children, hn, Form.children]
  | returnStmt | raiseStmt => simpa [Flow.visits] using visits_row os n.children

theorem visits_bodyFlow (hf : n.isFunctionLike = true) : (n.bodyFlow.visits os).Perm
      (n.clauseVisits os ++ n.ownCode.flatMap fun c => c.flow.visits os) := by
  rcases isFunctionLike_cases hf with ⟨isAsync, name, parameters, body, decorators, returns, hn⟩ |
    ⟨parameters, body, hn⟩ | ⟨elements, clauses, hn⟩
  · rw [bodyFlow_function hn, visits_map_flow]
    simp [clauseVisits, firstClause, ownCode, hn]
  · simp [bodyFlow_lambda hn, clauseVisits, firstClause, ownCode, hn]
  · obtain ⟨first, rest, target, iterable, conditions, isAsync, rfl, hfirst⟩ := exists_first h hn
    have hrest : ∀ q ∈ rest, q.isClause = true := fun q hq => isClause_eq_true_iff.2
      (category_of_fits (isGrammatical.fits h) (l := first :: rest) (by simp [hn, Form.fields])
        (List.mem_cons_of_mem _ hq))
    classical
    have later := List.perm_iff_count.1 (visits_clauses os hrest)
    rw [List.perm_iff_count, bodyFlow_generator hn, clauseFlow_eq hfirst]
    intro v
    simp only [if_true, Flow.visits, visits_map_flow, clauseVisits, firstClause, ownCode, turn, hn,
      hfirst, List.head?_cons, Option.toList_some, List.tail_cons, List.flatMap_cons,
      List.flatMap_nil, List.flatMap_append, List.append_nil, List.count_append, List.count_cons,
      List.count_nil, later v]
    omega

/-- The visits of a node: its own, and the visits of its parts where they run. -/
theorem visits_flow :
    (n.flow.visits os).Perm (n.ownVisits os ++ n.clauseVisits (n :: os) ++
      n.inPlace.flatMap (fun c => c.flow.visits os) ++
        n.ownCode.flatMap fun c => c.flow.visits (n :: os)) := by
  rw [visits_flow_eq]
  classical
  by_cases hf : n.isFunctionLike = true
  · have inner := List.perm_iff_count.1 (visits_bodyFlow (n :: os) h hf)
    rw [List.perm_iff_count, innerFlow_functionLike hf, inPlace, if_pos hf, ownVisits, if_pos hf]
    intro v
    simp only [Flow.visits, visits_map_flow, List.cons_append, List.count_cons, List.count_append,
      List.count_nil, inner v]
    omega
  · rw [Bool.not_eq_true] at hf
    have inner := List.perm_iff_count.1 (visits_innerFlow os h hf)
    have first : n.firstClause = [] := (List.append_eq_nil_iff.1 (framing_of_plain hf)).2
    rw [List.perm_iff_count, inPlace_of_plain hf, ownCode_of_plain hf, clauseVisits, first,
      ownVisits, if_neg (by simp [hf])]
    intro v
    simp only [List.cons_append, List.flatMap_nil, List.append_nil, List.count_cons,
      List.count_append, List.count_nil, inner v]
    omega

theorem nodes_flow (side : Stop → Option Node) : (nodes side (n.flow.visits os)).Perm
      (nodes side (n.ownVisits os) ++ nodes side (n.clauseVisits (n :: os)) ++
        n.inPlace.flatMap (fun c => nodes side (c.flow.visits os)) ++
          n.ownCode.flatMap fun c => nodes side (c.flow.visits (n :: os))) := by
  have parts := (visits_flow os h).filterMap fun v => side v.2
  refine parts.trans (List.Perm.of_eq ?_)
  change nodes side _ = _
  rw [nodes_append, nodes_append, nodes_append, nodes_flatMap, nodes_flatMap]

/-- A walk enters and leaves every node, but for signatures. -/
theorem mem_visits_flow (hq : q ∈ n.preorder) (hs : q.isSignature = false) :
    ∃ owners, (owners, Stop.enter q) ∈ n.flow.visits os ∧
      (owners, Stop.exit q) ∈ n.flow.visits os := by
  induction n, h using induct_parts generalizing os with
  | step n h ih =>
    simp only [(visits_flow os h).mem_iff]
    rw [(preorder_parts h).mem_iff] at hq
    simp only [List.cons_append, List.mem_cons, List.mem_append, List.mem_flatMap, framing] at hq
    rcases hq with rfl | (hq | hq) | ⟨c, hc, hq⟩
    · exact ⟨os, by simp [ownVisits], by simp [ownVisits]⟩
    · simp [isSignature_of_signature h hq] at hs
    · have visited : ∀ v ∈ [(n :: os, Stop.enter q), (n :: os, Stop.exit q)],
          v ∈ n.clauseVisits (n :: os) := fun v hv =>
        List.mem_flatMap.2 ⟨q, hq, hv⟩
      exact ⟨n :: os, by simp [visited], by simp [visited]⟩
    · have part : c ∈ n.inPlace ++ n.ownCode := by simpa using hc
      rcases hc with hc | hc
      · obtain ⟨owners, henter, hexit⟩ := ih c part os hq
        refine ⟨owners, ?_, ?_⟩ <;> simp only [List.mem_append, List.mem_flatMap]
        · exact .inl (.inr ⟨c, hc, henter⟩)
        · exact .inl (.inr ⟨c, hc, hexit⟩)
      · obtain ⟨owners, henter, hexit⟩ := ih c part (n :: os) hq
        refine ⟨owners, ?_, ?_⟩ <;> simp only [List.mem_append, List.mem_flatMap]
        · exact .inr ⟨c, hc, henter⟩
        · exact .inr ⟨c, hc, hexit⟩

include hside

theorem count_nodes_flow_le [DecidableEq Node] (q : Node) :
    (nodes side (n.flow.visits os)).count q ≤ n.preorder.count q := by
  induction n, h using induct_parts generalizing os with
  | step n h ih =>
    have parts := List.perm_iff_count.1 (preorder_parts h) q
    have flows := List.perm_iff_count.1 (nodes_flow os h side) q
    have inner (os : List Node) {l : List Node} (hl : l ⊆ n.inPlace ++ n.ownCode) :=
      count_nodes_flatMap_le fun c hc => ih c (hl hc) os
    have first := inner os (List.subset_append_left _ _)
    have second := inner (n :: os) (List.subset_append_right _ _)
    have own := count_nodes_ownVisits_le hside os n q
    have clause := count_nodes_clauseVisits_le hside (n :: os) n q
    simp only [framing, List.flatMap_append, List.cons_append, List.count_cons, List.count_nil,
      List.count_append] at parts flows own
    omega

/-- A walk enters, leaves and starts no node more often than it stands in the tree. -/
theorem count_nodes_events_le [DecidableEq Node] (q : Node) :
    (nodes side (Event.visits [] n.events)).count q ≤ n.preorder.count q := by
  have parts := List.perm_iff_count.1 (preorder_parts h) q
  have own := congrArg (List.count q) (hside n)
  have inner (os : List Node) {l : List Node} (hl : l ⊆ n.inPlace ++ n.ownCode) :=
    count_nodes_flatMap_le fun c hc =>
      count_nodes_flow_le hside os (isGrammatical_of_part h (hl hc)) q
  have first := inner [n] (List.subset_append_left _ _)
  have second := inner [n] (List.subset_append_right _ _)
  have clause := count_nodes_clauseVisits_le hside [n] n q
  rw [visits_events, nodes_cons, programFlow]
  simp only [framing, List.flatMap_append, List.cons_append, List.count_cons, List.count_nil,
    List.count_append] at parts own ⊢
  by_cases hf : n.isFunctionLike = true
  · have body := List.perm_iff_count.1 ((visits_bodyFlow [n] h hf).filterMap fun v => side v.2) q
    change (nodes side _).count q = (nodes side _).count q at body
    rw [nodes_append, nodes_flatMap, List.count_append] at body
    rw [if_pos hf]
    omega
  · rw [Bool.not_eq_true] at hf
    have flows := List.perm_iff_count.1 (nodes_flow [n] h side) q
    have clause := count_nodes_clauseVisits_le hside [n, n] n q
    have both : nodes side (n.ownVisits [n]) =
        (side (.enter n)).toList ++ (side (.exit n)).toList := by
      rw [ownVisits, if_neg (by simp [hf]), nodes_cons, nodes_cons]
      simp [nodes]
    rw [both, ownCode_of_plain hf] at flows
    rw [if_neg (by simp [hf])]
    simp only [List.flatMap_nil, List.append_nil, List.count_append] at flows
    omega

variable {os}

/-- A walk only visits nodes of its program. -/
theorem mem_preorder_of_visit {v : List Node × Stop} (hv : v ∈ n.flow.visits os)
    (hq : side v.2 = some q) : q ∈ n.preorder := by
  classical
  have mem : q ∈ nodes side (n.flow.visits os) := List.mem_filterMap.2 ⟨v, hv, hq⟩
  have bound := count_nodes_flow_le hside os h q
  exact List.count_pos_iff.1 (Nat.lt_of_lt_of_le (List.count_pos_iff.2 mem) bound)

omit hside

/-- Only functions start code paths. -/
theorem isFunctionLike_of_start {f : Node} {owners : List Node}
    (hv : (owners, Stop.start f) ∈ n.flow.visits os) : f.isFunctionLike = true := by
  induction n, h using induct_parts generalizing os with
  | step n h ih =>
    rw [(visits_flow os h).mem_iff] at hv
    simp only [List.mem_append, List.mem_flatMap] at hv
    rcases hv with ((hv | hv) | ⟨c, hc, hv⟩) | ⟨c, hc, hv⟩
    · by_cases hf : n.isFunctionLike = true
      · obtain ⟨-, rfl⟩ : owners = os ∧ f = n := by simpa [ownVisits, hf] using hv
        exact hf
      · simp [ownVisits, hf] at hv
    · simp [clauseVisits] at hv
    · exact ih c (List.mem_append_left _ hc) hv
    · exact ih c (List.mem_append_right _ hc) hv

end Grammatical

theorem mem_children_of_mem_firstClause {n q : Node} (hq : q ∈ n.firstClause) : q ∈ n.children := by
  cases hn : n.form
  case comprehension collector elements clauses =>
    cases collector
    case generator =>
      simp only [firstClause, hn, Option.mem_toList] at hq
      simp [children, hn, Form.children, List.mem_of_head? hq]
    all_goals simp [firstClause, hn] at hq
  all_goals simp [firstClause, hn] at hq

/-- Nodes whose parts are their children, and that hold nothing together for a node above. -/
def isPlain (n : Node) : Bool := !n.isFunctionLike && !n.isSignature && !n.isClause

section Plain

variable {n : Node} (h : n.isPlain = true)

include h

theorem isFunctionLike_of_isPlain : n.isFunctionLike = false := by
  simp only [isPlain, Bool.and_eq_true, Bool.not_eq_true'] at h
  exact h.1.1

theorem isSignature_of_isPlain : n.isSignature = false := by
  simp only [isPlain, Bool.and_eq_true, Bool.not_eq_true'] at h
  exact h.1.2

theorem isClause_of_isPlain : n.isClause = false := by
  simp only [isPlain, Bool.and_eq_true, Bool.not_eq_true'] at h
  exact h.2

end Plain

end Node

namespace GrammaticalTree

open LostUpdate.Tree

variable {t : GrammaticalTree} {n p x : Node}

/-- A part of a node has a plain parent only if the node is that parent. -/
theorem eq_of_part (hn : n ∈ t.nodes) (hp : p ∈ t.nodes)
    (hplain : p.isPlain = true) (hx : x ∈ p.children) (hpart : x ∈ n.inPlace ++ n.ownCode) :
    n = p := by
  have hg := t.isGrammatical_of_mem hn
  simp only [Node.isPlain, Bool.and_eq_true, Bool.not_eq_true'] at hplain
  by_cases hf : n.isFunctionLike = true
  · obtain ⟨q, hq, hc⟩ := Node.exists_parent hf hpart
    rcases hq with rfl | hq
    · exact parent_unique hn hp hc hx
    · have mem := mem_nodes_trans hn (Node.mem_preorder_of_framing hg hq)
      obtain rfl := parent_unique mem hp hc hx
      rcases Node.framing_cases hg hq with h | h <;> simp [h] at hplain
  · rw [Bool.not_eq_true] at hf
    rw [Node.inPlace_of_plain hf, Node.ownCode_of_plain hf, List.append_nil] at hpart
    exact parent_unique hn hp hpart hx

/-- What is entered below a plain node is entered where that node is, unless the walk starts there. -/
theorem enter_parent (hn : n ∈ t.nodes) (hp : p ∈ t.nodes)
    (hplain : p.isPlain = true) (hx : x ∈ p.children) {os owners : List Node}
    (hv : (owners, Stop.enter x) ∈ n.flow.visits os) :
    (x = n ∧ owners = os) ∨ (owners, Stop.enter p) ∈ n.flow.visits os := by
  induction n using Node.induct_below generalizing os with
  | step n ih =>
    have hg := t.isGrammatical_of_mem hn
    have parts := Node.visits_flow os hg
    rw [parts.mem_iff] at hv ⊢
    have inside {c : Node} (hc : c ∈ n.inPlace ++ n.ownCode) {os : List Node}
        (hv : (owners, Stop.enter x) ∈ c.flow.visits os) :
        (x = c ∧ owners = os ∧ n = p) ∨ (owners, Stop.enter p) ∈ c.flow.visits os := by
      have below := Node.mem_below_of_part hg hc
      have mem := Node.mem_preorder_of_part hg hc
      refine (ih c below (mem_nodes_trans hn mem) hv).imp_left ?_
      rintro ⟨rfl, howners⟩
      exact ⟨rfl, howners, eq_of_part hn hp hplain hx hc⟩
    simp only [List.mem_append, List.mem_flatMap] at hv ⊢
    rcases hv with ((hv | hv) | ⟨c, hc, hv⟩) | ⟨c, hc, hv⟩
    · left
      unfold Node.ownVisits at hv
      split_ifs at hv <;> simp_all
    · obtain ⟨q, hq, hv⟩ := List.mem_flatMap.1 hv
      obtain rfl : x = q := by simp_all
      obtain rfl := parent_unique hn hp (Node.mem_children_of_mem_firstClause hq) hx
      have clause := Node.isClause_of_firstClause hg hq
      obtain ⟨collector, elements, clauses, hform⟩ := Node.exists_comprehension hg hx clause
      cases collector <;>
        simp_all [Node.isPlain, Node.isFunctionLike, Form.isFunctionLike, Node.firstClause]
    · rcases inside (List.mem_append_left _ hc) hv with ⟨rfl, rfl, rfl⟩ | hv
      · exact .inr (.inl (.inl (.inl (by simp [Node.ownVisits]))))
      · exact .inr (.inl (.inr ⟨c, hc, hv⟩))
    · rcases inside (List.mem_append_right _ hc) hv with ⟨rfl, rfl, rfl⟩ | hv
      · simp [Node.ownCode_of_plain (Node.isFunctionLike_of_isPlain hplain)] at hc
      · exact .inr (.inr ⟨c, hc, hv⟩)

/-- What a walk enters below a plain node, it enters where that node is, unless it starts there. -/
theorem enter_parent_events (hn : n ∈ t.nodes) (hp : p ∈ t.nodes)
    (hplain : p.isPlain = true) (hx : x ∈ p.children) {owners : List Node}
    (hv : (owners, Stop.enter x) ∈ Event.visits [] n.events) :
    (x = n ∧ owners = [n] ∧ n.isFunctionLike = false) ∨
      (owners, Stop.enter p) ∈ Event.visits [] n.events := by
  have hg := t.isGrammatical_of_mem hn
  rw [Node.visits_events, List.mem_cons] at hv ⊢
  simp only [Prod.mk.injEq, reduceCtorEq, and_false, false_or, Node.programFlow] at hv ⊢
  by_cases hf : n.isFunctionLike = true
  · right
    rw [if_pos hf, (Node.visits_bodyFlow [n] hg hf).mem_iff] at hv ⊢
    have other : n ≠ p := by
      rintro rfl
      simp [Node.isPlain, hf] at hplain
    simp only [List.mem_append, List.mem_flatMap] at hv ⊢
    rcases hv with hv | ⟨c, hc, hv⟩
    · obtain ⟨q, hq, hv⟩ := List.mem_flatMap.1 hv
      obtain rfl : x = q := by simp_all
      exact absurd (parent_unique hn hp (Node.mem_children_of_mem_firstClause hq) hx) other
    · have part : c ∈ n.inPlace ++ n.ownCode := List.mem_append_right _ hc
      have mem := Node.mem_preorder_of_below (Node.mem_below_of_part hg part)
      rcases enter_parent (mem_nodes_trans hn mem) hp hplain hx hv with ⟨rfl, -⟩ | hv
      · exact absurd (eq_of_part hn hp hplain hx part) other
      · exact .inr ⟨c, hc, hv⟩
  · rw [if_neg hf] at hv ⊢
    rw [Bool.not_eq_true] at hf
    exact (enter_parent hn hp hplain hx hv).imp_left fun h => ⟨h.1, h.2, hf⟩

end GrammaticalTree

end LostUpdate
