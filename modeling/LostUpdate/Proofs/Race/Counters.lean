import LostUpdate.Proofs.Race.Settling
import LostUpdate.Proofs.Race.Totals
import LostUpdate.Proofs.Scope.Correspondence
import LostUpdate.Proofs.Walk.Places
import LostUpdate.Proofs.Walk.Whole

namespace LostUpdate

namespace Subject

/-- Whether `q` suspends: other code may run while it is evaluated, and it is walked in the code path
of a resumable function. -/
def Suspends (c : Subject) (q : Node) : Prop :=
  c.scoping.tree.isSuspension q = true ∧
    ∃ f, f.isResumable = true ∧ c.scoping.tree.EntersIn f q

/-- Whether a name met in the walk from `n` waits for `value`: it is followed in the code of a
resumable function, an assignment stores `value` through it, and other code can reach its variable. -/
def Awaits (c : Subject) (n value : Node) : Prop :=
  ∃ m ∈ Trail.empty.meetings c n.events, m.WaitsFor c value

end Subject

namespace GrammaticalTree

open LostUpdate.Tree

variable {t : GrammaticalTree} {n q : Node}

/-- What may let other code run on its own account is an expression, or an `async with`. -/
theorem isEvaluation_of_isSuspension (hq : q ∈ t.nodes) (h : t.isSuspension q = true) :
    Tracker.isEvaluation q = true := by
  have expression (he : q.form.isExpression = true) : Tracker.isEvaluation q = true := by
    simp [Tracker.isEvaluation, he]
  have below {p c : Node} (hp : t.parent? q.id = some p) (hid : c.id = q.id) {l : List Node}
      (hl : (.expression, l) ∈ p.form.fields) (hc : c ∈ l) (child : c ∈ p.children) :
      Tracker.isEvaluation q = true := by
    obtain ⟨mem, -⟩ := (parent?_eq_some_iff hq).1 hp
    obtain rfl := eq_of_id_eq (mem_nodes_of_mem_children mem child) hq hid
    have fits := Node.isGrammatical.fits (t.isGrammatical_of_mem mem)
    exact expression (Form.isExpression_of_category (Node.category_of_fits fits hl hc))
  unfold isSuspension at h
  split at h
  · next hform => exact expression (by simp [hform, Form.isExpression])
  · next hform => exact expression (by simp [hform, Form.isExpression])
  · next hform => exact expression (by simp [hform, Form.isExpression])
  · next hform => simp [Tracker.isEvaluation, hform]
  · split at h
    · simp at h
    · next p hp =>
      split at h
      · next target iterable body orelse hform =>
        exact below hp (by simpa using h) (l := [target, iterable])
          (by simp [hform, Form.fields]) (by simp) (by simp [Node.children, hform, Form.children])
      · next target iterable conditions hform =>
        rw [Bool.and_eq_true] at h
        exact below hp (by simpa using h.1) (l := target :: iterable :: conditions)
          (by simp [hform, Form.fields]) (by simp) (by simp [Node.children, hform, Form.children])
      · next manager target hform =>
        rw [Bool.and_eq_true] at h
        exact below hp (by simpa using h.1) (l := manager :: target.toList)
          (by simp [hform, Form.fields]) (by simp) (by simp [Node.children, hform, Form.children])
      · simp at h

theorem left_perm (hn : n ∈ t.nodes) (hplain : n.isPlain = true) :
    (Event.nodes Stop.left? n.events).Perm (n.preorder.filter (!·.isSignature)) :=
  nodes_events_perm hn hplain Stop.shows_left? fun q hq hs => by
    obtain ⟨os, -, exit⟩ := Node.exists_enter_of_plain (t.isGrammatical_of_mem hn) hplain hq hs
    exact mem_nodes_of_visit exit rfl

/-- A program enters a node in the code in which it leaves it. -/
theorem enter_of_exit (hn : n ∈ t.nodes) (hplain : n.isPlain = true)
    {done rest : List Event} (h : n.events = done ++ .exit q :: rest) :
    ((Trail.empty.after done).owners, Stop.enter q) ∈ Event.visits [] n.events := by
  have allowed := n.events_allowed.1
  rw [h] at allowed
  have left : ((Trail.empty.after done).owners, Stop.exit q) ∈ Event.visits [] n.events := by
    rw [h]
    have split := Trail.empty.visits_append (Trail.allowsAll_append.1 allowed).1 (.exit q :: rest)
    exact split ▸ List.mem_append_right _ List.mem_cons_self
  have mem := (left_perm hn hplain).subset (mem_nodes_of_visit left rfl)
  rw [List.mem_filter, Bool.not_eq_true'] at mem
  obtain ⟨os, enter, exit⟩ := Node.exists_enter_of_plain (t.isGrammatical_of_mem hn) hplain mem.1 mem.2
  rwa [visit_unique hn Stop.shows_left? rfl left exit]

end GrammaticalTree

/-- Code is followed if and only if it belongs to a resumable function. -/
theorem Scoping.Grammatical.followed_isSome {c : Subject} {o : Outline} (ho : c.scoping.Grammatical o)
    (hr : c.scoping.tree.root.isFunctionLike = false) {f : Node} (hf : f ∈ c.scoping.tree.nodes) :
    (Tracker.followed c f).isSome = f.isResumable := by
  cases resumable : f.isResumable with
  | false =>
    rw [Option.isSome_eq_false_iff, Option.isNone_iff_eq_none, Option.eq_none_iff_forall_ne_some]
    exact fun references h => absurd (Tracker.followed_eq_some h).1 (by simp [resumable])
  | true =>
    have hl := Node.isFunctionLike_of_isResumable resumable
    obtain ⟨s, hopened, kind, -⟩ := ho.exists_code hr hf hl
    simp [Tracker.followed, hopened, kind, resumable]

/-- Where a node is left, it suspends if the tracker takes it so. -/
theorem Subject.suspends_iff {c : Subject} {o : Outline} (ho : c.scoping.Grammatical o)
    (hplain : c.scoping.tree.root.isPlain = true)
    {q : Node} {done rest : List Event}
    (h : c.scoping.tree.root.events = done ++ .exit q :: rest) :
    c.Suspends q ↔ ((Trail.empty.after done).followed c).isSome ∧
      Tracker.isEvaluation q = true ∧ c.scoping.tree.isSuspension q = true := by
  have hn := c.scoping.tree.root.mem_preorder_self
  have here := GrammaticalTree.enter_of_exit (t := ho.tree) hn hplain h
  have left : Event.exit q ∈ c.scoping.tree.root.events := by
    rw [h]
    simp
  have mem := GrammaticalTree.mem_nodes_of_exit (t := ho.tree) hn left
  have allowed := c.scoping.tree.root.events_allowed.1
  rw [h] at allowed
  obtain ⟨-, ⟨p, opened, hopened, -⟩, -⟩ := Trail.allowsAll_append.1 allowed
  have owner_mem : p.owner ∈ c.scoping.tree.nodes := by
    refine GrammaticalTree.mem_nodes_of_event (t := ho.tree) hn Stop.shows_started? ?_
    rw [h, Event.nodes_append]
    refine List.mem_append_left _ (List.mem_reverse.1 ((Trail.owners_sublist done).subset ?_))
    simp [Trail.owners, hopened]
  have followed : ((Trail.empty.after done).followed c).isSome = p.owner.isResumable := by
    rw [← ho.followed_isSome (Node.isFunctionLike_of_isPlain hplain) owner_mem]
    simp [Trail.followed, hopened]
  rw [Trail.owners, hopened, List.map_cons] at here
  rw [followed]
  constructor
  · rintro ⟨suspends, f, resumable, outer, enter⟩
    have same := GrammaticalTree.enter_unique (t := ho.tree) hn enter here
    have evaluation := GrammaticalTree.isEvaluation_of_isSuspension (t := ho.tree) mem suspends
    exact ⟨(List.cons.inj same).1 ▸ resumable, evaluation, suspends⟩
  · rintro ⟨resumable, -, suspends⟩
    exact ⟨suspends, p.owner, resumable, _, here⟩

namespace Tracker

variable {c : Subject} {t : Tracker}

/-- What leaving a node adds to what is counted. -/
theorem exit_counts (current : List SegmentId) (n : Node) (hne : ∀ w ∈ t.pending, w.2 ≠ []) :
    (t.exit c current n).1.stats = { t.stats with
      suspensionPoints := t.stats.suspensionPoints +
        if t.references.isSome ∧ isEvaluation n ∧ c.scoping.tree.isSuspension n then 1 else 0
      checkedAssignments := t.stats.checkedAssignments +
        if t.references.isSome ∧ isEvaluation n ∧ t.waiting n.id ≠ [] then 1 else 0 } := by
  by_cases evaluates : t.references.isSome ∧ isEvaluation n
  · have pending : (t.suspended c current n).pending = t.pending := by
      unfold suspended
      split_ifs <;> rfl
    have suspended_stats : (t.suspended c current n).stats = { t.stats with
        suspensionPoints := t.stats.suspensionPoints +
          if c.scoping.tree.isSuspension n then 1 else 0 } := by
      unfold suspended
      split_ifs <;> rfl
    rw [exit, if_pos evaluates]
    cases hfind : t.pending.find? fun e => e.1.id = n.id with
    | none =>
      have unawaited : t.waiting n.id = [] := by simp [waiting, hfind]
      rw [evaluated_of_none (pending ▸ hfind), suspended_stats]
      simp [evaluates, unawaited]
    | some e =>
      have awaited : t.waiting n.id ≠ [] := by
        simpa [waiting, hfind] using hne e (List.mem_of_find?_eq_some hfind)
      rw [evaluated_of_some (pending ▸ hfind), check_stats, suspended_stats]
      simp [evaluates, awaited, Stats.checkedOne]
  · rw [exit, if_neg evaluates, if_neg fun h => evaluates ⟨h.1, h.2.1⟩,
      if_neg fun h => evaluates ⟨h.1, h.2.1⟩]
    rfl

end Tracker

theorem Event.nodes_singleton (side : Stop → Option Node) (e : Event) :
    nodes side [e] = (e.visit?.bind side).toList := by
  rw [nodes_cons]
  exact List.append_nil _

open Classical in
/-- What the counters show after the events `done` of the walk of a program. -/
noncomputable def Subject.tally (c : Subject) (done : List Event) : Stats where
  codePaths := (Event.nodes Stop.started? done).length
  resumableFunctions :=
    (Event.nodes Stop.started? done).countP fun f => (Tracker.followed c f).isSome
  segments := (Event.segments done).length
  backEdges := (Trail.empty.after done).total (·.loopedEdges.length) (CodePath.ofEvents done)
  unreachableSegments :=
    (Trail.empty.after done).total (·.segments.countP (!·.isReachable)) (CodePath.ofEvents done)
  suspensionPoints := (Event.nodes Stop.left? done).countP (decide <| c.Suspends ·)
  checkedAssignments :=
    (Event.nodes Stop.left? done).countP (decide <| c.Awaits c.scoping.tree.root ·)

namespace Subject

variable {c : Subject} {done : List Event} {e : Event}

open Classical in
/-- As long as no path ends, the nodes that are treated and the segments that are made count. -/
theorem tally_concat (hd : Trail.empty.AllowsAll done) (he : (Trail.empty.after done).Allows e)
    (hend : ∀ id owner returned thrown, e ≠ .pathEnd id owner returned thrown) :
    c.tally (done ++ [e]) = { c.tally done with
      codePaths := (c.tally done).codePaths + (Event.nodes Stop.started? [e]).length
      resumableFunctions := (c.tally done).resumableFunctions +
        (Event.nodes Stop.started? [e]).countP fun f => (Tracker.followed c f).isSome
      segments := (c.tally done).segments + (Event.segments [e]).length
      suspensionPoints := (c.tally done).suspensionPoints +
        (Event.nodes Stop.left? [e]).countP (decide <| c.Suspends ·)
      checkedAssignments := (c.tally done).checkedAssignments +
        (Event.nodes Stop.left? [e]).countP (decide <| c.Awaits c.scoping.tree.root ·) } := by
  have drawn := Trail.drawn_ofEvents hd
  have consistent := Trail.consistent_empty.after hd
  simp only [tally, Event.nodes_append, Event.segments_append, List.length_append,
    List.countP_append, Trail.after_concat, CodePath.ofEvents_concat,
    drawn.total_record consistent he hend]

/-- A path that ends counts with its edges back and its dead segments. -/
theorem tally_pathEnd (hd : Trail.empty.AllowsAll done) {id : PathId} {owner : Node}
    {returned thrown : List Segment}
    (he : (Trail.empty.after done).Allows (.pathEnd id owner returned thrown)) {q : CodePath}
    (hq : q ∈ CodePath.ofEvents (done ++ [.pathEnd id owner returned thrown])) (hid : q.id = id) :
    c.tally (done ++ [.pathEnd id owner returned thrown]) = { c.tally done with
      backEdges := (c.tally done).backEdges + q.loopedEdges.length
      unreachableSegments :=
        (c.tally done).unreachableSegments + q.segments.countP (!·.isReachable) } := by
  have drawn := Trail.drawn_ofEvents hd
  have consistent := Trail.consistent_empty.after hd
  rw [CodePath.ofEvents_concat] at hq
  simp only [tally, Trail.after_concat, CodePath.ofEvents_concat,
    drawn.total_pathEnd consistent he hq hid, Event.nodes_append, Event.segments_append]
  simp [Event.nodes_singleton, Event.segments, Event.visit?]

end Subject

namespace Session

variable {c : Subject} {o : Outline} {s : Session} {done rest : List Event}

/-- A path that ends adds its edges back and its dead segments to the counters. -/
theorem Follows.stats_pathEnd {t : Trail} (h : s.Follows c t) (ht : t.Consistent) {id : PathId}
    {owner : Node} {returned thrown : List Segment}
    (he : t.Allows (.pathEnd id owner returned thrown)) :
    ∃ q ∈ CodePath.record s.paths (.pathEnd id owner returned thrown), q.id = id ∧
      (s.step c (.pathEnd id owner returned thrown)).1.tracker.stats = { s.tracker.stats with
        backEdges := s.tracker.stats.backEdges + q.loopedEdges.length
        unreachableSegments :=
          s.tracker.stats.unreachableSegments + q.segments.countP (!·.isReachable) } := by
  obtain ⟨frame, frames, q, hframes, -, hq, hid, hstep⟩ := h.step_pathEnd ht he
  obtain ⟨l, traverses, perm⟩ := h.traverse_pathEnd ht he hq hid
  refine ⟨q, hq, hid, ?_⟩
  rw [hstep, ← perm.countP_eq]
  simp only [withTracker, Tracker.endPath, hframes, if_true, traverses]

theorem stats_exit (ho : c.scoping.Grammatical o)
    (hplain : c.scoping.tree.root.isPlain = true) {q : Node}
    (hevents : c.scoping.tree.root.events = done ++ .exit q :: rest)
    (hs : initial.run c done = .ok s) [Decidable (c.Suspends q)]
    [Decidable (c.Awaits c.scoping.tree.root q)] :
    (s.step c (.exit q)).1.tracker.stats = { s.tracker.stats with
      suspensionPoints := s.tracker.stats.suspensionPoints + if c.Suspends q then 1 else 0
      checkedAssignments := s.tracker.stats.checkedAssignments +
        if c.Awaits c.scoping.tree.root q then 1 else 0 } := by
  classical
  have hn := c.scoping.tree.root.mem_preorder_self
  have allowed := c.scoping.tree.root.events_allowed.1
  rw [hevents] at allowed
  have follows := (follows_run (Trail.allowsAll_append.1 allowed).1 hs).1
  have attends := ((run_reports ho hn hevents).1 s hs).1
  obtain ⟨waiting, evaluates⟩ := attends.evaluates ho hn follows hevents
  have awaits : c.Awaits c.scoping.tree.root q ↔ s.tracker.waiting q.id ≠ [] := by
    rw [waiting, ne_eq, List.map_eq_nil_iff, List.filter_eq_nil_iff]
    simp [Subject.Awaits]
  have checks : (s.tracker.references.isSome ∧ Tracker.isEvaluation q ∧
      s.tracker.waiting q.id ≠ []) ↔ c.Awaits c.scoping.tree.root q := by
    rw [awaits]
    exact ⟨fun h => h.2.2, fun h =>
      ⟨(evaluates.resolve_left h).1, (evaluates.resolve_left h).2, h⟩⟩
  have counts := Tracker.exit_counts (c := c) s.current q (run_tidy ho hn hevents hs).occupied
  have suspends := Subject.suspends_iff ho hplain hevents
  rw [← follows.references] at suspends
  simp only [checks, ← suspends] at counts
  exact counts

/-- Each event adds to the counters what it adds to the tally. -/
theorem step_tally (ho : c.scoping.Grammatical o)
    (hplain : c.scoping.tree.root.isPlain = true) {e : Event}
    (hevents : c.scoping.tree.root.events = done ++ e :: rest)
    (hs : initial.run c done = .ok s) (h : s.tracker.stats = c.tally done) :
    (s.step c e).1.tracker.stats = c.tally (done ++ [e]) := by
  classical
  have allowed := c.scoping.tree.root.events_allowed.1
  rw [hevents] at allowed
  obtain ⟨hdone, he, -⟩ := Trail.allowsAll_append.1 allowed
  have follows := (follows_run hdone hs).1
  have consistent := Trail.consistent_empty.after hdone
  cases e with
  | pathStart id owner upper =>
    rw [follows.step_pathStart consistent he, Subject.tally_concat hdone he (by simp), ← h]
    simp [Tracker.startPath, Event.nodes_singleton, Event.visit?, Stop.started?, Stop.left?,
      Event.segments, List.countP_cons]
  | segment seg =>
    rw [Subject.tally_concat hdone he (by simp), ← h]
    obtain ⟨p, opened, hp, -⟩ := he
    simp [step, startSegment, withTracker, Tracker.startSegment, follows.frames_isEmpty hp,
      Event.nodes_singleton, Event.visit?, Event.segments]
  | backEdge source target =>
    rw [Subject.tally_concat hdone he (by simp), ← h]
    simp [step, Event.nodes_singleton, Event.visit?, Event.segments]
  | enter x =>
    have same : (s.step c (.enter x)).1.tracker.stats = s.tracker.stats := Tracker.enter_stats x
    rw [Subject.tally_concat hdone he (by simp), ← h, same]
    simp [Event.nodes_singleton, Event.visit?, Stop.started?, Stop.left?, Event.segments]
  | exit q =>
    rw [stats_exit ho hplain hevents hs, Subject.tally_concat hdone he (by simp), ← h]
    simp [Event.nodes_singleton, Event.visit?, Stop.started?, Stop.left?, Event.segments,
      List.countP_cons]
  | pathEnd id owner returned thrown =>
    obtain ⟨q, hq, hid, stats⟩ := follows.stats_pathEnd consistent he
    rw [(run_backEdges hdone hs).1, ← CodePath.ofEvents_concat] at hq
    rw [stats, Subject.tally_pathEnd hdone he hq hid, h]

/-- At every point of the walk of a program the counters show the tally. -/
theorem run_tally (ho : c.scoping.Grammatical o)
    (hplain : c.scoping.tree.root.isPlain = true) (h : c.scoping.tree.root.events = done ++ rest)
    (hs : initial.run c done = .ok s) : s.tracker.stats = c.tally done := by
  induction done using List.reverseRecOn generalizing s rest with
  | nil =>
    obtain rfl : initial = s := by simpa [run, pure, Except.pure] using hs
    rfl
  | append_singleton done e ih =>
    rw [List.append_assoc, List.singleton_append] at h
    obtain ⟨before, hbefore, hstep⟩ := run_concat.1 hs
    have next := step_tally ho hplain h hbefore (ih h hbefore)
    rwa [hstep] at next

end Session

/-- Every segment that a walk makes is in one of its graphs. -/
theorem CodePath.segments_perm {done : List Event} (hd : Trail.empty.AllowsAll done) :
    ((ofEvents done).flatMap (·.segments)).Perm (Event.segments done) := by
  have knows := Trail.knows_empty.after Trail.consistent_empty hd
  have drawn := Trail.drawn_ofEvents hd
  have own {p : CodePath} (hp : p ∈ ofEvents done) : p.segments = Event.created p.id done :=
    (wellDrawn_ofEvents hd p hp).2.segments_eq
  refine (List.perm_ext_iff_of_nodup (nodup_texts hd).of_map knows.nodup.of_map).2 fun s => ?_
  rw [List.mem_flatMap]
  constructor
  · rintro ⟨p, hp, hs⟩
    rw [own hp] at hs
    exact (List.mem_filter.1 hs).1
  · intro hs
    obtain ⟨i, hi, path_eq⟩ := knows.numbered s hs
    have hp := List.getElem_mem (drawn.length ▸ hi : i < (ofEvents done).length)
    refine ⟨_, hp, ?_⟩
    rw [own hp, drawn.ids i _ (List.getElem?_eq_getElem _), ← path_eq]
    exact List.mem_filter.2 ⟨hs, by simp⟩

namespace GrammaticalTree

variable {t : GrammaticalTree} {n : Node}

/-- What holds of evaluations only is met as often when nodes are left as it holds of nodes. -/
theorem countP_left (hn : n ∈ t.nodes) (hplain : n.isPlain = true)
    {P : Node → Bool} (hP : ∀ q ∈ n.preorder, P q = true → Tracker.isEvaluation q = true) :
    (Event.nodes Stop.left? n.events).countP P = n.preorder.countP P := by
  rw [(left_perm hn hplain).countP_eq, List.countP_filter]
  refine List.countP_congr fun q hq => ?_
  have walked (h : Tracker.isEvaluation q = true) : q.isSignature ≠ true := by
    intro signature
    unfold Node.isSignature at signature
    split at signature
    · next hform => simp [Tracker.isEvaluation, hform, Form.isExpression] at h
    · next hform => simp [Tracker.isEvaluation, hform, Form.isExpression] at h
    · cases signature
  rw [Bool.and_eq_true, Bool.not_eq_true', ← Bool.not_eq_true]
  exact ⟨fun h => h.1, fun h => ⟨h, walked (hP q hq h)⟩⟩

end GrammaticalTree

open Classical in
/-- What an analysis has counted is what there is to count in the program and in its graphs, and what
it reports belongs to values that are waited for. -/
structure Subject.Counted (c : Subject) (tracker : Tracker) : Prop where
  codePaths : tracker.stats.codePaths = 1 + c.scoping.tree.nodes.countP (·.isFunctionLike)
  resumableFunctions : tracker.stats.resumableFunctions =
    c.scoping.tree.nodes.countP fun f => f.isFunctionLike && f.isResumable
  segments : tracker.stats.segments =
    ((CodePath.ofEvents c.scoping.tree.root.events).map (·.segments.length)).sum
  unreachableSegments : tracker.stats.unreachableSegments =
    ((CodePath.ofEvents c.scoping.tree.root.events).map
      (·.segments.countP (!·.isReachable))).sum
  suspensionPoints : tracker.stats.suspensionPoints =
    c.scoping.tree.nodes.countP (decide <| c.Suspends ·)
  checkedAssignments : tracker.stats.checkedAssignments =
    c.scoping.tree.nodes.countP (decide <| c.Awaits c.scoping.tree.root ·)
  reports : ∀ v ∈ tracker.violations, ∃ assignment ∈ c.scoping.tree.nodes, ∃ value,
    v.assignment = some assignment ∧ assignment.Updates value ∧
      c.Awaits c.scoping.tree.root value

namespace Subject

variable {c : Subject} {o : Outline} {tracker : Tracker}

/-- What is reported belongs to an assignment of a value that a name waits for. -/
theorem reports_awaited (ho : c.scoping.Grammatical o)
    {n : Node} (hn : n ∈ c.scoping.tree.nodes)
    (h : c.analyze n = .ok tracker) {v : Violation} (hv : v ∈ tracker.violations) :
    ∃ assignment ∈ c.scoping.tree.nodes, ∃ value, v.assignment = some assignment ∧
      assignment.Updates value ∧ c.Awaits n value := by
  have reports := analyze_reports ho hn
  rw [h] at reports
  obtain ⟨f, hf, hviolation⟩ := mem_of_forall₂ (forall₂_of_mapM_ok reports.symm).flip hv
  obtain ⟨assignment, hmem, updates, target, -, -, heq⟩ := violation_of_mem_findings ho.toOutlined hf
  rw [heq] at hviolation
  obtain ⟨text, -, rfl⟩ := exists_ok_of_map hviolation
  obtain ⟨hmet, waits⟩ := Finding.exists_along c _ hf
  exact ⟨assignment, hmem, f.value, rfl, updates, f.meeting, hmet, waits⟩

theorem counted_of_analyze (ho : c.scoping.Grammatical o)
    (hplain : c.scoping.tree.root.isPlain = true)
    (h : c.analyze c.scoping.tree.root = .ok tracker) : c.Counted tracker := by
  classical
  have hn := c.scoping.tree.root.mem_preorder_self
  have hr := Node.isFunctionLike_of_isPlain hplain
  obtain ⟨allowed, ended⟩ := c.scoping.tree.root.events_allowed
  have stats : tracker.stats = c.tally c.scoping.tree.root.events := by
    obtain ⟨s, hs, rfl⟩ := exists_ok_of_map h
    exact Session.run_tally ho hplain (List.append_nil _).symm hs
  have started := GrammaticalTree.owners_perm (t := ho.tree) hn hplain
  rw [CodePath.owners_ofEvents] at started
  refine ⟨?_, ?_, ?_, ?_, ?_, ?_, fun v hv => reports_awaited ho hn h hv⟩
  all_goals rw [stats]
  · change (Event.nodes Stop.started? _).length = _
    rw [started.length_eq, List.length_cons, ← List.countP_eq_length_filter, Nat.add_comm]
    rfl
  · change (Event.nodes Stop.started? _).countP _ = _
    have root : (Tracker.followed c c.scoping.tree.root).isSome = false := by
      rw [ho.followed_isSome hr hn, ← Bool.not_eq_true]
      exact fun resumable => by simp [Node.isFunctionLike_of_isResumable resumable] at hr
    rw [started.countP_eq, List.countP_cons, root, List.countP_filter]
    refine List.countP_congr fun f hf => ?_
    rw [ho.followed_isSome hr hf, Bool.and_comm]
  · change (Event.segments _).length = _
    rw [← (CodePath.segments_perm allowed).length_eq, List.length_flatMap]
  · change (Trail.empty.after _).total _ _ = _
    simp [Trail.total, ended]
  · exact GrammaticalTree.countP_left (t := ho.tree) hn hplain fun q hq suspends =>
      GrammaticalTree.isEvaluation_of_isSuspension (t := ho.tree) hq (of_decide_eq_true suspends).1
  · refine GrammaticalTree.countP_left (t := ho.tree) hn hplain fun q hq awaited => ?_
    obtain ⟨m, -, waits⟩ := of_decide_eq_true awaited
    obtain ⟨p, hp, updates⟩ := waits.updates
    have expression :=
      Node.isExpression_of_assignedValue? (ho.tree.isGrammatical_of_mem hp) updates.1
    simp [Tracker.isEvaluation, expression]

end Subject

/-- The analysis of a program counts exactly. One code path belongs to the program and one to each
function, lambda and generator expression, of which the resumable ones are counted apart. Segments
are those of the graphs; suspensions are the nodes that may let other code run where a resumable
function has them; assignments are the values that names wait for, and every report is about one of
these. Only the text of a target can keep the analysis from its end. -/
theorem Subject.counts_exactly {t : Tree} {body : List Node} (hroot : t.root.form = .module body)
    (hg : t.root.isGrammatical = true) {m : Scoping} (hm : Scoping.ofTree t = .ok m)
    (source : Option String) (shared : List String) :
    let c : Subject := ⟨m, source, shared⟩
    (∀ fault, c.analyze t.root = .error fault → fault.IsTextual) ∧
      ∀ tracker, c.analyze t.root = .ok tracker → c.Counted tracker := by
  obtain rfl := Scoping.tree_eq_of_ofTree hm
  obtain ⟨o, ho⟩ := Scoping.exists_grammatical hm hg
  have plain : m.tree.root.isPlain = true := by
    simp [Node.isPlain, Node.isFunctionLike, hroot, Form.isFunctionLike, Node.isSignature,
      Node.isClause]
  intro c
  refine ⟨fun fault h => ?_, fun tracker h => counted_of_analyze (c := c) ho plain h⟩
  obtain ⟨p, -, target, -, htext⟩ :=
    analyze_error (c := c) ho m.tree.root.mem_preorder_self h
  exact Tracker.isTextual_of_targetText htext

/-- In the coroutine that adds to a global counter, one sum waits and one `await` suspends. -/
theorem Subject.counts_exactly_bump :
    let c : Subject := ⟨Bump.scoping, none, []⟩
    ∃ tracker, c.analyze Bump.root = .ok tracker ∧ c.Counted tracker ∧
      tracker.stats = ⟨2, 1, 2, 0, 0, 1, 1⟩ ∧ tracker.violations.length = 1 := by
  intro c
  have program : Bump.tree.root.form = .module [Bump.function] := rfl
  have runs : (c.analyze Bump.root).map (fun tracker => (tracker.stats, tracker.violations.length)) =
      .ok (⟨2, 1, 2, 0, 0, 1, 1⟩, 1) := by cbv
  obtain ⟨tracker, htracker, heq⟩ := exists_ok_of_map runs
  obtain ⟨stats, reported⟩ := Prod.mk.inj heq
  have counted :=
    (counts_exactly program Bump.isGrammatical Bump.ofTree_tree none []).2 tracker htracker
  exact ⟨tracker, htracker, counted, stats, reported⟩

end LostUpdate
