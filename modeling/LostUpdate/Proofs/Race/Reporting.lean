import LostUpdate.Proofs.Race.Dataflow
import LostUpdate.Proofs.Race.Waiting
import LostUpdate.Proofs.Walk.Moments
import LostUpdate.Proofs.Walk.Traversal

namespace LostUpdate

/-- The graph of a path that ends can be traversed. -/
theorem Session.Follows.traverse_pathEnd {c : Subject} {s : Session} {t : Trail}
    (h : s.Follows c t) (ht : t.Consistent) {id : PathId} {owner : Node}
    {returned thrown : List Segment} (he : t.Allows (.pathEnd id owner returned thrown))
    {q : CodePath} (hq : q ∈ CodePath.record s.paths (.pathEnd id owner returned thrown))
    (hid : q.id = id) : ∃ l, q.traverse = .ok l ∧ l.Perm q.segments := by
  obtain ⟨p, rest, hp, rfl, -, -⟩ := he
  have mem : p ∈ t.opened := by simp [hp]
  obtain ⟨graph, hgraph, drawn⟩ := h.drawn.opened p mem
  have vertices : q.vertices = graph.vertices := by
    obtain ⟨known, hknown, rfl⟩ := List.mem_map.1 hq
    obtain rfl : known = graph := by
      refine List.inj_on_of_nodup_map h.drawn.nodup_ids hknown hgraph (Eq.trans ?_ drawn.id.symm)
      split_ifs at hid <;> exact hid
    split_ifs <;> rfl
  have hd : Vertex.Drawn p.segments q.vertices := vertices ▸ drawn.vertices
  have distinct : (q.vertices.map (·.id)).Nodup := by
    rw [hd.ids, List.nodup_reverse]
    exact (ht.successive p mem).nodup_ids
  obtain ⟨l, traverses, -, perm⟩ := CodePath.exists_traverse hd distinct
  exact ⟨l, traverses, perm⟩

/-- Events other than entering and leaving a node find nothing, and let nothing wait. -/
theorem Session.Follows.step_quiet {c : Subject} {s : Session} {t : Trail} (h : s.Follows c t)
    (ht : t.Consistent) {e : Event} (he : t.Allows e) (hq : ∀ n, e ≠ .enter n ∧ e ≠ .exit n) :
    (s.step c e).2 = none ∧ (s.step c e).1.tracker.violations = s.tracker.violations ∧
      (s.step c e).1.tracker.unbound = s.tracker.unbound ∧
        (s.step c e).1.tracker.pending = s.tracker.pending := by
  cases e with
  | enter n => exact absurd rfl (hq n).1
  | exit n => exact absurd rfl (hq n).2
  | backEdge source target => exact ⟨rfl, rfl, rfl, rfl⟩
  | pathStart id owner upper =>
    rw [h.step_pathStart ht he]
    exact ⟨rfl, rfl, rfl, rfl⟩
  | segment seg =>
    obtain ⟨p, rest, hp, -⟩ := he
    simp [Session.step, Session.startSegment, Session.withTracker, Tracker.startSegment,
      h.frames_isEmpty hp]
  | pathEnd id owner returned thrown =>
    obtain ⟨frame, frames, q, hframes, -, hq, hid, hstep⟩ := h.step_pathEnd ht he
    obtain ⟨l, traverses, -⟩ := h.traverse_pathEnd ht he hq hid
    rw [hstep]
    simp only [Session.withTracker, Tracker.endPath, hframes, if_true, traverses]
    exact ⟨trivial, trivial, trivial, trivial⟩

theorem Trail.meeting?_eq_some {c : Subject} {t : Trail} {e : Event} {m : Meeting}
    (h : t.meeting? c e = some m) : ∃ n p rest references, e = .enter n ∧ t.opened = p :: rest ∧
      p.owner = m.owner ∧ Tracker.followed c m.owner = some references ∧
        m.reference ∈ references ∧ m.reference.identifier.id = n.id ∧
          t.reference? c n = some m.reference := by
  cases e with
  | enter n =>
    cases hp : t.opened with
    | nil => simp [meeting?, hp] at h
    | cons p rest =>
      simp only [meeting?, hp, List.head?_cons, Option.bind_some, Option.map_eq_some_iff] at h
      obtain ⟨r, hr, rfl⟩ := h
      have hfound := hr
      unfold reference? at hr
      split at hr
      · cases hfollowed : Tracker.followed c p.owner with
        | none => simp [followed, hp, hfollowed] at hr
        | some references =>
          simp only [followed, hp, hfollowed, List.head?_cons, Option.bind_some,
            Option.getD_some] at hr
          have hid := List.find?_some (List.findRev?_eq_find?_reverse ▸ hr)
          have hmem := List.mem_of_find?_eq_some (List.findRev?_eq_find?_reverse ▸ hr)
          exact ⟨n, p, rest, references, rfl, rfl, rfl, hfollowed ▸ rfl, by simpa using hmem,
            by simpa using hid, hfound⟩
      · simp at hr
  | _ => simp [meeting?] at h

namespace GrammaticalTree

variable {t : GrammaticalTree} {n : Node}

/-- A node is left at one moment of a walk only. -/
theorem exit_unique (hn : n ∈ t.nodes) {v : Node}
    {before after first last : List Event} (h : n.events = before ++ .exit v :: after)
    (h' : n.events = first ++ .exit v :: last) : before = first := by
  have distinct := nodup_events hn Stop.shows_left?
  rw [h] at distinct
  exact (split_unique distinct (h.symm.trans h') rfl rfl).1

theorem exit_notMem (hn : n ∈ t.nodes) {v : Node}
    {before after : List Event} (h : n.events = before ++ .exit v :: after) :
    .exit v ∉ before := fun hmem => by
  obtain ⟨first, last, rfl⟩ := List.append_of_mem hmem
  have again : n.events = first ++ .exit v :: (last ++ .exit v :: after) := by
    rw [h]
    simp
  have long := congrArg List.length (exit_unique hn h again)
  simp at long

theorem mem_nodes_of_exit (hn : n ∈ t.nodes) {v : Node}
    (h : .exit v ∈ n.events) : v ∈ t.nodes :=
  mem_nodes_of_event hn Stop.shows_left?
    (List.mem_filterMap.2 ⟨_, h, by simp [Event.visit?, Stop.left?]⟩)

theorem nodup_owners (hn : n ∈ t.nodes) {done rest : List Event}
    (h : n.events = done ++ rest) : (Trail.empty.after done).owners.Nodup := by
  have distinct := nodup_events hn Stop.shows_started?
  rw [h, Event.nodes_append] at distinct
  have started := (List.nodup_append.1 distinct).1
  exact (List.nodup_reverse.2 started).sublist (Trail.owners_sublist done)

end GrammaticalTree

theorem Node.isExpression_of_assignedValue? {p v : Node} (hp : p.isGrammatical = true)
    (hv : p.assignedValue? = some v) : v.form.isExpression = true := by
  have fits := Node.isGrammatical.fits hp
  refine Form.isExpression_of_category ?_
  cases hform : p.form
  case assign targets value =>
    obtain rfl : value = v := by simpa [Node.assignedValue?, hform] using hv
    exact Node.category_of_fits fits (l := [value]) (by simp [hform, Form.fields]) (by simp)
  case augmented target op value =>
    obtain rfl : value = v := by simpa [Node.assignedValue?, hform] using hv
    exact Node.category_of_fits fits (l := [target, value]) (by simp [hform, Form.fields]) (by simp)
  case walrus target value =>
    obtain rfl : value = v := by simpa [Node.assignedValue?, hform] using hv
    exact Node.category_of_fits fits (l := [target, value]) (by simp [hform, Form.fields]) (by simp)
  case annotated target hint value simple =>
    obtain rfl : value = some v := by simpa [Node.assignedValue?, hform] using hv
    exact Node.category_of_fits fits (l := [target, hint, v]) (by simp [hform, Form.fields]) (by simp)
  all_goals simp [Node.assignedValue?, hform] at hv

section Walk

variable {c : Subject} {o : Outline} {n : Node}

/-- A value that a name waits for is left after the name has been met, in the same code. -/
theorem Meeting.WaitsFor.exists_exit (ho : c.scoping.Grammatical o)
    (hn : n ∈ c.scoping.tree.nodes)
    {first later : List Event} {e : Event} {m : Meeting} {value : Node}
    (hw : m.WaitsFor c value) (hfirst : n.events = first ++ e :: later)
    (hm : (Trail.empty.after first).meeting? c e = some m) :
    value.form.isExpression = true ∧ ∃ between last outer, later = between ++ .exit value :: last ∧
      (Trail.empty.after first).owners = m.owner :: outer ∧
        (Trail.empty.after (first ++ e :: between)).owners = m.owner :: outer := by
  obtain ⟨x, p, outer, references, rfl, hopened, howner, hfollowed, hr, hid, -⟩ :=
    Trail.meeting?_eq_some hm
  have resumable := (Tracker.followed_eq_some hfollowed).1
  have mentions := ho.mentions (Tracker.mem_followed ho.toOutlined hfollowed hr).1
  have entered : x ∈ c.scoping.tree.nodes := by
    refine GrammaticalTree.mem_nodes_of_event (t := ho.tree) hn Stop.shows_entered? ?_
    rw [hfirst, Event.nodes_append, Event.nodes_cons]
    simp [Event.visit?, Stop.entered?]
  obtain rfl : m.reference.identifier = x := Tree.eq_of_id_eq mentions.identifier entered hid
  obtain ⟨context, hname⟩ := mentions.name
  obtain ⟨q, hq, hs⟩ := Tree.stores_of_storedValue? mentions hw.stores
  have owners : (Trail.empty.after first).owners = m.owner :: outer.map (·.owner) := by
    simp [Trail.owners, hopened, howner]
  obtain ⟨between, last, rfl, howners⟩ := GrammaticalTree.exit_after_enter (t := ho.tree)
    hn hq hs hname hfirst owners (Node.isFunctionLike_of_isResumable resumable)
  have expression := Node.isExpression_of_assignedValue? (ho.tree.isGrammatical_of_mem hq) hs.1
  exact ⟨expression, between, last, _, rfl, owners, howners⟩

/-- Who waits for a value has been met before the value is left, in the code that is left then. -/
theorem Meeting.WaitsFor.exit (ho : c.scoping.Grammatical o)
    (hn : n ∈ c.scoping.tree.nodes)
    {first later done rest : List Event} {e : Event} {m : Meeting} {value : Node}
    (hw : m.WaitsFor c value) (hfirst : n.events = first ++ e :: later)
    (hm : (Trail.empty.after first).meeting? c e = some m)
    (hdone : n.events = done ++ .exit value :: rest) :
    (∃ between, done = first ++ e :: between) ∧
      (∃ outer, (Trail.empty.after done).owners = m.owner :: outer) ∧
        (Tracker.followed c m.owner).isSome = true ∧ value.form.isExpression = true := by
  obtain ⟨hexpression, between, last, outer, rfl, -, howners⟩ := hw.exists_exit ho hn hfirst hm
  obtain ⟨-, -, -, references, -, -, -, hfollowed, -⟩ := Trail.meeting?_eq_some hm
  have again : n.events = (first ++ e :: between) ++ .exit value :: last := by
    rw [hfirst]
    simp
  have same := GrammaticalTree.exit_unique (t := ho.tree) hn hdone again
  exact ⟨⟨between, same⟩, ⟨outer, same ▸ howners⟩, by simp [hfollowed], hexpression⟩

open Classical in
/-- When a value is left, all who will ever wait for it have been met. -/
theorem filter_waitsFor (ho : c.scoping.Grammatical o)
    (hn : n ∈ c.scoping.tree.nodes) {done rest : List Event} {value : Node}
    (h : n.events = done ++ .exit value :: rest) :
    (Trail.empty.meetings c n.events).filter (·.WaitsFor c value) =
      (Trail.empty.meetings c done).filter (·.WaitsFor c value) := by
  rw [h, Trail.meetings_append, List.filter_append, List.append_right_eq_self, List.filter_eq_nil_iff]
  intro m hm hw
  obtain ⟨first, e, later, hsplit, hmeet⟩ := Trail.exists_meeting hm
  rw [← Trail.after_append] at hmeet
  have again : n.events = (done ++ first) ++ e :: later := by
    rw [h, hsplit]
    simp
  obtain ⟨⟨between, hdone⟩, -⟩ :=
    Meeting.WaitsFor.exit ho hn (of_decide_eq_true hw) again hmeet h
  have long := congrArg List.length hdone
  simp at long

/-- A meeting finds its variable outdated if the tracker does, in the segment that runs. -/
theorem Session.Follows.isOutdated_iff {s : Session} {done : List Event} {value : Node}
    (hd : Trail.empty.AllowsAll (done ++ [.exit value])) (h : s.Follows c (Trail.empty.after done))
    (exact : s.tracker.states.Exact (Event.segments done) (Trail.empty.marks c done)) {m : Meeting}
    (hm : ∃ outer, (Trail.empty.after done).owners = m.owner :: outer)
    (distinct : (Trail.empty.after done).owners.Nodup) :
    (s.step c (.exit value)).1.tracker.states.isOutdated s.current
        (c.scoping.tracked m.reference) = true ↔ m.OutdatedAfter c (done ++ [.exit value]) := by
  obtain ⟨hd, he⟩ := Trail.allowsAll_concat.1 hd
  have consistent := Trail.consistent_empty.after hd
  have knows := Trail.knows_empty.after Trail.consistent_empty hd
  rw [List.nil_append] at knows
  have next := exact.advance (c := c) consistent knows he
  rw [← h.step_states he, ← Trail.marks_append, ← Event.segments_append] at next
  have stays : Trail.empty.after (done ++ [.exit value]) = Trail.empty.after done :=
    Trail.after_concat _ _ _
  obtain ⟨p, rest, hp, hne⟩ := he
  obtain ⟨seg, earlier, hsegments⟩ := List.exists_cons_of_ne_nil hne
  have runs : (Trail.empty.after done).running? = some seg.id := by
    simp [Trail.running?, hp, hsegments]
  have owner : p.owner = m.owner := by
    obtain ⟨outer, howners⟩ := hm
    simp only [Trail.owners, hp, List.map_cons, List.cons.injEq] at howners
    exact howners.1
  have started : seg.id ∈ (Event.segments (done ++ [.exit value])).map (·.id) := by
    rw [Event.segments_append, List.map_append]
    exact List.mem_append_left _ (knows.number_le_running consistent runs).1
  obtain ⟨st, hst⟩ := Option.isSome_iff_exists.1 ((next.known seg.id).2 started)
  have here : (s.step c (.exit value)).1.tracker.states.isOutdated s.current
      (c.scoping.tracked m.reference) = true ↔ c.scoping.tracked m.reference ∈ st.outdated := by
    simp [SegmentStates.isOutdated, h.current, runs, hst]
  rw [here, next.outdated seg.id st hst]
  constructor
  · intro outdated
    refine ⟨p, by simp [stays, hp], owner, seg, by simp [hsegments], outdated⟩
  · rintro ⟨q, hq, hqowner, seg', hseg', outdated⟩
    rw [stays] at hq
    have same : q = p := List.inj_on_of_nodup_map distinct hq (by simp [hp]) (hqowner.trans owner.symm)
    subst same
    obtain rfl : seg = seg' := by simpa [hsegments] using hseg'
    exact outdated

open Classical in
/-- What the tracker keeps between two events: a value that has not been left is waited for by the
names met so far that store it. -/
structure Session.Attends (c : Subject) (s : Session) (done : List Event) : Prop where
  apart : s.tracker.KeepsApart c
  waiting : ∀ value ∈ c.scoping.tree.nodes, .exit value ∉ done → s.tracker.waiting value.id =
    ((Trail.empty.meetings c done).filter (·.WaitsFor c value)).map (·.reference)

theorem Session.attends_initial : Session.initial.Attends c [] :=
  ⟨fun _ _ hu => by simp [Session.initial, Tracker.initial, Tracker.unboundReferences] at hu,
    fun _ _ _ => rfl⟩

variable {s : Session} {done rest : List Event}

theorem Session.Attends.enter (ho : c.scoping.Outlined o) (h : s.Attends c done)
    (hf : s.Follows c (Trail.empty.after done)) {x : Node}
    (he : (Trail.empty.after done).Allows (.enter x)) :
    (s.step c (.enter x)).1.tracker.violations = s.tracker.violations ∧
      (s.step c (.enter x)).1.Attends c (done ++ [.enter x]) := by
  classical
  obtain ⟨p, outer, hp, -⟩ := he
  have step : (s.step c (.enter x)).1.tracker = s.tracker.enter c s.current x := rfl
  have meeting : (Trail.empty.after done).meeting? c (.enter x) =
      ((Trail.empty.after done).reference? c x).map fun r => ⟨p.owner, r⟩ := by
    simp [Trail.meeting?, hp]
  have left {value : Node} (h : .exit value ∉ done ++ [Event.enter x]) : .exit value ∉ done :=
    fun hmem => h (List.mem_append_left _ hmem)
  rw [step, hf.enter_eq]
  cases hr : (Trail.empty.after done).reference? c x with
  | none =>
    rw [hr, Option.map_none] at meeting
    refine ⟨rfl, ⟨?_, fun value hv hexit => ?_⟩⟩
    · rw [step, hf.enter_eq, hr]
      exact h.apart
    · rw [step, hf.enter_eq, hr, Trail.meetings_concat, meeting, h.waiting value hv (left hexit)]
      simp
  | some r =>
    rw [hr, Option.map_some] at meeting
    obtain ⟨-, -, -, references, -, -, -, hfollowed, hmem, -⟩ := Trail.meeting?_eq_some meeting
    obtain ⟨hreferences, hscope⟩ := Tracker.mem_followed ho hfollowed hmem
    obtain ⟨violations, apart, waits⟩ := Tracker.meet_spec (m := ⟨p.owner, r⟩) ho h.apart hreferences
      hscope s.current
    refine ⟨violations, ⟨?_, fun value hv hexit => ?_⟩⟩
    · rw [step, hf.enter_eq, hr]
      exact apart
    · obtain ⟨yes, no⟩ := waits value hv
      rw [step, hf.enter_eq, hr, Trail.meetings_concat, meeting, List.filter_append, List.map_append,
        ← h.waiting value hv (left hexit)]
      by_cases hw : Meeting.WaitsFor c ⟨p.owner, r⟩ value
      · simpa [hw] using yes hw
      · simpa [hw] using no hw

open Classical in
/-- When a value is left, all who store it wait for it, and it is evaluated if anyone does. -/
theorem Session.Attends.evaluates (ho : c.scoping.Grammatical o)
    (hn : n ∈ c.scoping.tree.nodes)
    (h : s.Attends c done) (hf : s.Follows c (Trail.empty.after done)) {value : Node}
    (hevents : n.events = done ++ .exit value :: rest) :
    s.tracker.waiting value.id =
        ((Trail.empty.meetings c n.events).filter (·.WaitsFor c value)).map (·.reference) ∧
      (s.tracker.waiting value.id = [] ∨
        (s.tracker.references.isSome ∧ Tracker.isEvaluation value)) := by
  have left : Event.exit value ∈ n.events := by
    rw [hevents]
    simp
  have mem := GrammaticalTree.mem_nodes_of_exit (t := ho.tree) hn left
  have waiting := h.waiting value mem (GrammaticalTree.exit_notMem (t := ho.tree) hn hevents)
  rw [← filter_waitsFor ho hn hevents] at waiting
  refine ⟨waiting, ?_⟩
  rw [waiting, List.map_eq_nil_iff]
  refine or_iff_not_imp_left.2 fun hne => ?_
  obtain ⟨m, hm⟩ := List.exists_mem_of_ne_nil _ hne
  obtain ⟨hm, hw⟩ := List.mem_filter.1 hm
  obtain ⟨first, e, later, hsplit, hmeet⟩ := Trail.exists_meeting hm
  obtain ⟨-, ⟨outer, howners⟩, hfollowed, hexpression⟩ :=
    Meeting.WaitsFor.exit ho hn (of_decide_eq_true hw) hsplit hmeet hevents
  refine ⟨?_, by simp [Tracker.isEvaluation, hexpression]⟩
  obtain ⟨p, opened, hp, howner, -⟩ := List.map_eq_cons_iff.1 howners
  simpa [hf.references, Trail.followed, hp, howner] using hfollowed

theorem Session.Attends.exit (ho : c.scoping.Grammatical o)
    (hn : n ∈ c.scoping.tree.nodes)
    (h : s.Attends c done) (hf : s.Follows c (Trail.empty.after done))
    (exact : s.tracker.states.Exact (Event.segments done) (Trail.empty.marks c done))
    {value : Node} (hevents : n.events = done ++ .exit value :: rest) :
    Tracker.Reports s.tracker.violations
        ((s.step c (.exit value)).1.tracker, (s.step c (.exit value)).2)
        ((Finding.atEvent c (Trail.empty.meetings c n.events) done (.exit value)).mapM
          (Finding.violation c)) ∧
      (s.step c (.exit value)).1.Attends c (done ++ [.exit value]) := by
  classical
  have allowed : Trail.empty.AllowsAll (done ++ [.exit value]) := by
    have all := n.events_allowed.1
    rw [hevents, ← List.singleton_append, ← List.append_assoc] at all
    exact (Trail.allowsAll_append.1 all).1
  have left : Event.exit value ∈ n.events := by
    rw [hevents]
    simp
  have mem := GrammaticalTree.mem_nodes_of_exit (t := ho.tree) hn left
  obtain ⟨waiting, evaluates⟩ := h.evaluates ho hn hf hevents
  have step : ((s.step c (.exit value)).1.tracker, (s.step c (.exit value)).2) =
      s.tracker.exit c s.current value := rfl
  have step' : (s.step c (.exit value)).1.tracker = (s.tracker.exit c s.current value).1 := rfl
  refine ⟨?_, ⟨?_, fun other hother hexit => ?_⟩⟩
  · have reports := Tracker.exit_reports (c := c) s.current value evaluates
    rw [step]
    convert reports using 1
    rw [Finding.atEvent, List.mapM_map, waiting, List.filter_map, List.mapM_map, List.filter_filter]
    have found : (Trail.empty.meetings c n.events).filter (fun m =>
          decide (m.WaitsFor c value ∧ m.OutdatedAfter c (done ++ [.exit value]))) =
        (Trail.empty.meetings c n.events).filter (fun m =>
          ((fun r => (s.tracker.exit c s.current value).1.states.isOutdated s.current
            (c.scoping.tracked r)) ∘ (·.reference)) m && decide (m.WaitsFor c value)) := by
      refine List.filter_congr fun m hm => ?_
      by_cases hw : m.WaitsFor c value
      · obtain ⟨first, e, later, hsplit, hmeet⟩ := Trail.exists_meeting hm
        have outdated := hf.isOutdated_iff allowed exact
          (Meeting.WaitsFor.exit ho hn hw hsplit hmeet hevents).2.1
          (GrammaticalTree.nodup_owners (t := ho.tree) hn hevents)
        rw [step'] at outdated
        simp [hw, ← outdated]
      · simp [hw]
    rw [found]
    rfl
  · rw [step']
    refine Tracker.exit_keepsApart s.current value (fun r hr => ?_) h.apart
    rw [waiting] at hr
    obtain ⟨m, hm, rfl⟩ := List.mem_map.1 hr
    obtain ⟨first, e, later, -, hmeet⟩ := Trail.exists_meeting (List.mem_filter.1 hm).1
    obtain ⟨-, -, -, references, -, -, -, hfollowed, hmem, -⟩ := Trail.meeting?_eq_some hmeet
    exact (Tracker.mem_followed ho.toOutlined hfollowed hmem).2
  · rw [List.mem_append, List.mem_singleton, not_or] at hexit
    have apart : other.id ≠ value.id := fun same =>
      hexit.2 (congrArg Event.exit (Tree.eq_of_id_eq hother mem same))
    rw [step', Tracker.exit_waiting s.current value apart, h.waiting other hother hexit.1,
      Trail.meetings_concat]
    simp [Trail.meeting?]

theorem Session.run_concat_error {s₀ : Session} {e : Event} {fault : Fault} :
    s₀.run c (done ++ [e]) = .error fault ↔ s₀.run c done = .error fault ∨
      ∃ before, s₀.run c done = .ok before ∧ (before.step c e).2 = some fault := by
  simp only [run, List.foldlM_append, List.foldlM_cons, List.foldlM_nil, bind_pure]
  cases hrun : List.foldlM (after c) s₀ done with
  | error fault => simp [bind, Except.bind]
  | ok before =>
    simp only [bind, Except.bind, Except.ok.injEq, exists_eq_left', after, reduceCtorEq, false_or]
    rcases before.step c e with ⟨next, _ | fault⟩ <;> simp

/-- One event finds what it should, and the tracker goes on to attend to what comes. -/
theorem Session.Attends.step (ho : c.scoping.Grammatical o)
    (hn : n ∈ c.scoping.tree.nodes)
    (h : s.Attends c done) (hf : s.Follows c (Trail.empty.after done))
    (exact : s.tracker.states.Exact (Event.segments done) (Trail.empty.marks c done)) {e : Event}
    (hevents : n.events = done ++ e :: rest) :
    Tracker.Reports s.tracker.violations ((s.step c e).1.tracker, (s.step c e).2)
        ((Finding.atEvent c (Trail.empty.meetings c n.events) done e).mapM (Finding.violation c)) ∧
      (s.step c e).1.Attends c (done ++ [e]) := by
  have allowed := n.events_allowed.1
  rw [hevents] at allowed
  obtain ⟨hdone, he, -⟩ := Trail.allowsAll_append.1 allowed
  have quiet (hq : ∀ x, e ≠ .enter x ∧ e ≠ .exit x) :
      Tracker.Reports s.tracker.violations ((s.step c e).1.tracker, (s.step c e).2) (.ok []) ∧
        (s.step c e).1.Attends c (done ++ [e]) := by
    obtain ⟨fault, violations, unbound, pending⟩ :=
      hf.step_quiet (Trail.consistent_empty.after hdone) he hq
    refine ⟨⟨fault, by simp [violations]⟩, ⟨Tracker.keepsApart_of_unbound h.apart unbound, ?_⟩⟩
    intro value hv hexit
    have unmet : (Trail.empty.after done).meeting? c e = none := by
      cases e <;> simp_all [Trail.meeting?]
    rw [Tracker.waiting_of_pending pending, Trail.meetings_concat, unmet,
      h.waiting value hv (fun hmem => hexit (List.mem_append_left _ hmem))]
    simp
  cases e with
  | enter x =>
    obtain ⟨violations, attends⟩ := h.enter ho.toOutlined hf he
    exact ⟨⟨rfl, by simp [violations]⟩, attends⟩
  | exit value => exact h.exit ho hn hf exact hevents
  | _ => exact quiet (by simp)

/-- Up to any point of a walk, what has been found is reported, and the first report that fails ends
the analysis. -/
theorem Session.run_reports (ho : c.scoping.Grammatical o)
    (hn : n ∈ c.scoping.tree.nodes)
    (h : n.events = done ++ rest) :
    (∀ s, Session.initial.run c done = .ok s → s.Attends c done ∧
      (Finding.along c (Trail.empty.meetings c n.events) [] done).mapM (Finding.violation c) =
        .ok s.tracker.violations) ∧
    ∀ fault, Session.initial.run c done = .error fault →
      (Finding.along c (Trail.empty.meetings c n.events) [] done).mapM (Finding.violation c) =
        .error fault := by
  induction done using List.reverseRecOn generalizing rest with
  | nil =>
    refine ⟨fun s hs => ?_, fun fault hs => ?_⟩
    · obtain rfl : Session.initial = s := by simpa [run, pure, Except.pure] using hs
      exact ⟨attends_initial, rfl⟩
    · simp [run, pure, Except.pure] at hs
  | append_singleton done e ih =>
    rw [List.append_assoc, List.singleton_append] at h
    obtain ⟨hok, herror⟩ := ih h
    have hdone := (Trail.allowsAll_append.1 (h ▸ n.events_allowed.1)).1
    have step {before : Session} (hbefore : Session.initial.run c done = .ok before) :=
      (hok before hbefore).1.step ho hn (follows_run hdone hbefore).1
        (follows_run hdone hbefore).2 h
    rw [Finding.along_concat, List.mapM_append, List.nil_append]
    refine ⟨fun s hs => ?_, fun fault hs => ?_⟩
    · obtain ⟨before, hbefore, hstep⟩ := run_concat.1 hs
      obtain ⟨reports, attends⟩ := step hbefore
      rw [hstep] at reports attends
      refine ⟨attends, ?_⟩
      rw [(hok before hbefore).2]
      revert reports
      generalize List.mapM (Finding.violation c) _ = found
      cases found with
      | error fault => exact fun reports => absurd reports (by simp [Tracker.Reports])
      | ok found => exact fun reports => congrArg Except.ok reports.2.symm
    · rcases run_concat_error.1 hs with hfault | ⟨before, hbefore, hfault⟩
      · rw [herror fault hfault]
        rfl
      · obtain ⟨reports, -⟩ := step hbefore
        rw [(hok before hbefore).2]
        revert reports
        generalize List.mapM (Finding.violation c) _ = found
        cases found with
        | ok found => exact fun reports => absurd reports.1 (by simp [hfault])
        | error other =>
          intro reports
          obtain rfl : fault = other := Option.some.inj (hfault.symm.trans reports)
          rfl

/-- The analysis from a node reports the findings of its walk. -/
theorem Subject.analyze_reports (ho : c.scoping.Grammatical o)
    (hn : n ∈ c.scoping.tree.nodes) :
    (c.analyze n).map (·.violations) = (c.findings n).mapM (Finding.violation c) := by
  obtain ⟨hok, herror⟩ := Session.run_reports ho hn (List.append_nil n.events).symm
  unfold Subject.analyze Subject.findings
  cases hrun : Session.initial.run c n.events with
  | ok s => exact (hok s hrun).2.symm
  | error fault => exact (herror fault hrun).symm

/-- Every finding belongs to an assignment, of the value of the finding to a target in which its name
stands; only the text of the target may be missing. -/
theorem Subject.violation_of_mem_findings (ho : c.scoping.Outlined o) {f : Finding}
    (hf : f ∈ c.findings n) : ∃ assignment ∈ c.scoping.tree.nodes, assignment.Updates f.value ∧
      ∃ target ∈ assignment.targets, Node.Reaches f.meeting.reference.identifier target ∧
        f.violation c = (Tracker.targetText c target).map fun text =>
          ⟨text, some assignment, (assignment.span.map (·.line)).getD 0,
            (assignment.span.map (·.column)).getD 0⟩ := by
  obtain ⟨hmet, hw⟩ := Finding.exists_along c _ hf
  obtain ⟨first, e, later, -, hmeet⟩ := Trail.exists_meeting hmet
  obtain ⟨-, -, -, references, -, -, -, hfollowed, hmem, -⟩ := Trail.meeting?_eq_some hmeet
  have mentions := ho.mentions (Tracker.mem_followed ho hfollowed hmem).1
  obtain ⟨p, hp, hs⟩ := Tree.stores_of_storedValue? mentions hw.stores
  obtain ⟨q, hq, updates⟩ := hw.updates
  have child := Node.mem_children_of_assignedValue? hs.1
  obtain rfl : q = p := Tree.parent_unique hq hp (Node.mem_children_of_assignedValue? updates.1) child
  obtain ⟨target, htarget, hreach, hin⟩ := Tree.targetIn?_of_stores hp hs
  refine ⟨q, hq, updates, target, htarget, hreach, ?_⟩
  rw [Finding.violation, Finding.report, Tree.parent?_of_mem hp child]
  dsimp only
  rw [hin]

end Walk

/-- The analysis from any node of a program reports its findings, no more and no less and in their
order, unless the text of a target is missing. -/
theorem violations_eq_findings {t : Tree} (hg : t.root.isGrammatical = true) {m : Scoping}
    (hm : Scoping.ofTree t = .ok m) {n : Node} (hn : n ∈ t.nodes) (source : Option String)
    (shared : List String) :
    let c : Subject := ⟨m, source, shared⟩
    (c.analyze n).map (·.violations) = (c.findings n).mapM (Finding.violation c) ∧
    ∀ f ∈ c.findings n, ∃ assignment ∈ t.nodes, assignment.Updates f.value ∧
      ∃ target ∈ assignment.targets, Node.Reaches f.meeting.reference.identifier target ∧
        f.violation c = (Tracker.targetText c target).map fun text =>
          ⟨text, some assignment, (assignment.span.map (·.line)).getD 0,
            (assignment.span.map (·.column)).getD 0⟩ := by
  obtain rfl := Scoping.tree_eq_of_ofTree hm
  obtain ⟨o, ho⟩ := Scoping.exists_grammatical hm hg
  exact ⟨Subject.analyze_reports ho hn, fun f hf => Subject.violation_of_mem_findings ho.toOutlined hf⟩

/-- The coroutine that adds to a global counter makes one finding, of the counter. -/
theorem violations_eq_findings_bump :
    let c : Subject := ⟨Bump.scoping, none, []⟩
    ((c.findings Bump.root).mapM (Finding.violation c)).map (fun found => found.map (·.target)) =
      .ok ["total"] := by
  intro c
  rw [← (violations_eq_findings Bump.isGrammatical Bump.ofTree_tree Bump.root_mem none []).1]
  cbv

end LostUpdate
