import LostUpdate.Proofs.Race.Within
import LostUpdate.Proofs.Walk.Blocks

namespace LostUpdate

theorem Event.exit_mem_iff {events : List Event} {v : Node} :
    .exit v ∈ events ↔ v ∈ nodes Stop.left? events := by
  rw [nodes, List.mem_filterMap]
  constructor
  · intro h
    exact ⟨.exit v, h, rfl⟩
  · rintro ⟨e, he, hv⟩
    cases e <;> simp_all [visit?, Stop.left?]

namespace Node

variable {n f : Node}

theorem owners_of_ownVisits {os owners : List Node} {stop : Stop}
    (hv : (owners, stop) ∈ n.ownVisits os) : owners = os := by
  unfold ownVisits at hv
  split_ifs at hv
  · simp only [List.mem_cons, List.not_mem_nil, or_false, Prod.mk.injEq] at hv
    exact hv.elim (·.1) fun hv => hv.elim (·.1) (·.1)
  · simp only [List.mem_cons, List.not_mem_nil, or_false, Prod.mk.injEq] at hv
    exact hv.elim (·.1) (·.1)

theorem owners_of_clauseVisits {os owners : List Node} {stop : Stop}
    (hv : (owners, stop) ∈ n.clauseVisits os) : owners = os := by
  obtain ⟨q, -, hv⟩ := List.mem_flatMap.1 hv
  simp only [List.mem_cons, List.not_mem_nil, or_false, Prod.mk.injEq] at hv
  exact hv.elim (·.1) (·.1)

/-- Whatever is visited, is visited inside the code where the walk starts. -/
theorem suffix_of_visit (h : n.isGrammatical = true) {os owners : List Node} {stop : Stop}
    (hv : (owners, stop) ∈ n.flow.visits os) : os <:+ owners := by
  induction n, h using induct_parts generalizing os with
  | step n h ih =>
    rw [(visits_flow os h).mem_iff] at hv
    simp only [List.mem_append, List.mem_flatMap] at hv
    rcases hv with ((hv | hv) | ⟨c, hc, hv⟩) | ⟨c, hc, hv⟩
    · rw [owners_of_ownVisits hv]
    · rw [owners_of_clauseVisits hv]
      exact List.suffix_cons n os
    · exact ih c (List.mem_append_left _ hc) hv
    · exact (List.suffix_cons n os).trans (ih c (List.mem_append_right _ hc) hv)

theorem suffix_of_visit_body (h : f.isGrammatical = true) (hl : f.isFunctionLike = true)
    {os owners : List Node} {stop : Stop} (hv : (owners, stop) ∈ f.bodyFlow.visits os) :
    os <:+ owners := by
  rw [(visits_bodyFlow os h hl).mem_iff, List.mem_append, List.mem_flatMap] at hv
  rcases hv with hv | ⟨c, hc, hv⟩
  · rw [owners_of_clauseVisits hv]
  · exact suffix_of_visit (isGrammatical_of_part h (List.mem_append_right _ hc)) hv

theorem visits_events_of_functionLike (hl : f.isFunctionLike = true) :
    Event.visits [] f.events = ([], .start f) :: f.bodyFlow.visits [f] := by
  rw [visits_events, programFlow, if_pos hl]

/-- The walk of a program walks each of its functions in one piece. -/
theorem exists_contains (h : n.isGrammatical = true) (hf : f ∈ n.preorder)
    (hl : f.isFunctionLike = true)
    (hh : n.isFunctionLike = true → f ∉ n.heading.flatMap preorder) :
    ∃ before later above, n.Contains f before later above := by
  by_cases hne : f = n
  · subst hne
    refine ⟨[], [], none, ?_⟩
    have same : Event.shift 0 none = fun e => e := funext Event.shift_zero
    simp [Contains, Trail.empty, same]
  · obtain ⟨owners, henter⟩ := exists_enter h hf hne hl hh
    have clause : f.isClause = false := by
      cases hform : f.form <;> simp_all [isFunctionLike, Form.isFunctionLike, isClause]
    have piece := (piece_of_enter_events h henter clause).trans (piece_codePath owners hl)
    let start : Spot := ⟨⟨⟨.ordinal 1, 1⟩, [], true⟩, 1, 1, [], [], []⟩
    have body : (n.programFlow.walk ⟨.ordinal 1, none⟩ start).1 <:+: n.events := ⟨[_, _], [_], rfl⟩
    obtain ⟨around, p, hblock⟩ := piece.walk_block ⟨.ordinal 1, none⟩ start
    rw [Flow.walk] at hblock
    simp only [events_shift p.paths hl around.path] at hblock
    obtain ⟨before, later, hevents⟩ := hblock.trans body
    rw [List.append_assoc] at hevents
    -- The piece starts with the path of `f`, whose number tells how many have started before.
    obtain ⟨inner, hinner⟩ : ∃ inner, f.events = .pathStart (.ordinal 1) f none :: inner := ⟨_, rfl⟩
    have started : p.paths = (Trail.empty.after before).started := by
      have all := n.events_allowed.1
      rw [← hevents, hinner] at all
      obtain ⟨number, -⟩ := (Trail.allowsAll_append.1 all).2.1
      simp only [PathId.shift, PathId.ordinal.injEq] at number
      omega
    exact ⟨before, later, some around.path, by rw [Contains, ← started, hevents]⟩

/-- The code of a function leaves what stands in it. -/
theorem exit_mem_events_iff {v : Node} (h : f.isGrammatical = true) (hl : f.isFunctionLike = true)
    (hs : v.isSignature = false) (hc : v.isClause = false) :
    .exit v ∈ f.events ↔ v ∈ f.ownCode.flatMap preorder := by
  rw [Event.exit_mem_iff, ← Event.nodes_visits Stop.left? [], visits_events_of_functionLike hl,
    Stop.nodes, List.mem_filterMap, List.mem_flatMap]
  have grammatical {c : Node} (hown : c ∈ f.ownCode) : c.isGrammatical = true :=
    isGrammatical_of_part h (List.mem_append_right _ hown)
  constructor
  · rintro ⟨⟨owners, stop⟩, hvisit, hleft⟩
    obtain rfl : stop = .exit v := by cases stop <;> simp_all [Stop.left?]
    rw [List.mem_cons, (visits_bodyFlow [f] h hl).mem_iff, List.mem_append,
      List.mem_flatMap] at hvisit
    rcases hvisit with hvisit | hvisit | ⟨c, hown, hvisit⟩
    · simp at hvisit
    · obtain ⟨q, hq, hvisit⟩ := List.mem_flatMap.1 hvisit
      obtain rfl : v = q := by simp_all
      simp [isClause_of_firstClause h hq] at hc
    · exact ⟨c, hown, mem_preorder_of_visit Stop.shows_left? (grammatical hown) hvisit rfl⟩
  · rintro ⟨c, hown, hv⟩
    obtain ⟨owners, -, hexit⟩ := mem_visits_flow [f] (grammatical hown) hv hs
    refine ⟨(owners, .exit v), List.mem_cons_of_mem _ ?_, rfl⟩
    rw [(visits_bodyFlow [f] h hl).mem_iff]
    exact List.mem_append_right _ (List.mem_flatMap.2 ⟨c, hown, hexit⟩)

end Node

/-- An assignment stands in the code of a function if its value does. -/
theorem Tree.mem_ownCode_iff {t : Tree} {f a v : Node} (h : f.isGrammatical = true)
    (hf : f ∈ t.nodes) (hl : f.isFunctionLike = true) (ha : a ∈ t.nodes)
    (hv : a.assignedValue? = some v) :
    v ∈ f.ownCode.flatMap Node.preorder ↔ a ∈ f.ownCode.flatMap Node.preorder := by
  have child := Node.mem_children_of_assignedValue? hv
  have plain := Node.isPlain_of_assignedValue? hv
  simp only [Node.isPlain, Bool.and_eq_true, Bool.not_eq_true'] at plain
  rw [List.mem_flatMap, List.mem_flatMap]
  constructor
  · rintro ⟨c, hown, hmem⟩
    have part : c ∈ f.inPlace ++ f.ownCode := List.mem_append_right _ hown
    have inside := mem_nodes_trans hf (Node.mem_preorder_of_below (Node.mem_below_of_part h part))
    rcases Node.eq_or_exists_parent hmem with rfl | ⟨p, hp, hc⟩
    · -- The parts of a function stand under it, or under what is no assignment.
      obtain ⟨q, hq, hc⟩ := Node.exists_parent hl part
      rcases hq with rfl | hq
      · obtain rfl := parent_unique ha hf child hc
        simp [hl] at plain
      · obtain rfl :=
          parent_unique ha (mem_nodes_trans hf (Node.mem_preorder_of_framing h hq)) child hc
        rcases Node.framing_cases h hq with hs | hs <;> simp [hs] at plain
    · obtain rfl := parent_unique ha (mem_nodes_trans inside hp) child hc
      exact ⟨c, hown, hp⟩
  · rintro ⟨c, hown, hmem⟩
    exact ⟨c, hown, Node.mem_preorder_trans hmem (Node.mem_preorder_of_mem_children child)⟩

theorem Finding.exit_of_along {c : Subject} {met : List Meeting} {done events : List Event}
    {g : Finding} (h : g ∈ along c met done events) : .exit g.value ∈ events := by
  induction events generalizing done with
  | nil => simp [along] at h
  | cons e events ih =>
    rcases List.mem_append.1 h with h | h
    · cases e <;> simp only [atEvent, List.mem_map, List.not_mem_nil] at h
      obtain ⟨m, -, rfl⟩ := h
      exact List.mem_cons_self
    · exact List.mem_cons_of_mem _ (ih h)

section Block

variable {c : Subject} {o : Outline} {n f : Node} {before later : List Event}
  {above : Option PathId}

/-- What a finding stores is an expression, which one assignment stores. -/
theorem Subject.value_of_mem_findings (ho : c.scoping.Grammatical o)
    {g : Finding} (h : g ∈ c.findings n) :
    g.value.isSignature = false ∧ g.value.isClause = false := by
  obtain ⟨a, ha, updates, -⟩ := violation_of_mem_findings ho.toOutlined h
  have expression :=
    Node.isExpression_of_assignedValue? (ho.tree.isGrammatical_of_mem ha) updates.1
  cases hform : g.value.form <;>
    simp_all [Form.isExpression, Node.isSignature, Node.isClause]

/-- The events of a function inside a program leave nothing that is left before or after them. -/
theorem Node.Contains.exit_once {t : GrammaticalTree} (hn : n ∈ t.nodes)
    (h : n.Contains f before later above) {v : Node} (hv : .exit v ∈ f.events) :
    .exit v ∉ before ∧ .exit v ∉ later := by
  have distinct := GrammaticalTree.nodup_events hn Stop.shows_left?
  rw [h, Event.nodes_append, Event.nodes_append, Event.nodes_shift, List.nodup_append] at distinct
  obtain ⟨-, behind, apart⟩ := distinct
  rw [Event.exit_mem_iff] at hv
  rw [Event.exit_mem_iff, Event.exit_mem_iff]
  constructor
  · intro first
    exact apart v first v (List.mem_append_left _ hv) rfl
  · intro last
    exact (List.nodup_append.1 behind).2.2 v hv v last rfl

open Classical in
/-- The findings of a function are the findings of the program whose value stands in the function's
own code. -/
theorem Subject.findings_part (ho : c.scoping.Grammatical o)
    (hn : n ∈ c.scoping.tree.nodes)
    (hf : f ∈ c.scoping.tree.nodes) (hl : f.isFunctionLike = true)
    (h : n.Contains f before later above) : c.findings f =
      (c.findings n).filter fun g => decide (g.value ∈ f.ownCode.flatMap Node.preorder) := by
  have grammatical := ho.tree.isGrammatical_of_mem hf
  obtain ⟨first, last, hfirst, hlast, block⟩ : ∃ first last : List Finding,
      (∀ g ∈ first, .exit g.value ∈ before) ∧ (∀ g ∈ last, .exit g.value ∈ later) ∧
        c.findings n = first ++ (c.findings f ++ last) :=
    ⟨_, _, fun g => Finding.exit_of_along, fun g => Finding.exit_of_along,
      findings_block ho hn hf h⟩
  have inside {g : Finding} (hmem : g ∈ c.findings n) :=
    Node.exit_mem_events_iff grammatical hl (value_of_mem_findings ho hmem).1
      (value_of_mem_findings ho hmem).2
  have once {v : Node} (hv : .exit v ∈ f.events) :=
    h.exit_once (t := ho.tree) hn hv
  rw [block] at inside ⊢
  have before_none : first.filter
      (fun g => decide (g.value ∈ f.ownCode.flatMap Node.preorder)) = [] := by
    rw [List.filter_eq_nil_iff]
    intro g hmem hin
    have own := (inside (List.mem_append_left _ hmem)).2 (of_decide_eq_true hin)
    exact (once own).1 (hfirst g hmem)
  have within_all : (c.findings f).filter
      (fun g => decide (g.value ∈ f.ownCode.flatMap Node.preorder)) = c.findings f := by
    rw [List.filter_eq_self]
    intro g hmem
    have all := List.mem_append_right first (List.mem_append_left last hmem)
    exact decide_eq_true ((inside all).1 (Finding.exit_of_along hmem))
  have later_none : last.filter
      (fun g => decide (g.value ∈ f.ownCode.flatMap Node.preorder)) = [] := by
    rw [List.filter_eq_nil_iff]
    intro g hmem hin
    have all := List.mem_append_right first (List.mem_append_right (c.findings f) hmem)
    have own := (inside all).2 (of_decide_eq_true hin)
    exact (once own).2 (hlast g hmem)
  rw [List.filter_append, List.filter_append, before_none, within_all, later_none, List.nil_append,
    List.append_nil]

end Block

end LostUpdate
