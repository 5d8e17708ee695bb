import LostUpdate.Proofs.Race.Reporting

namespace LostUpdate

/-- Whether all that is missing is the text of a target. -/
def Fault.IsTextual : Fault → Prop
  | .excerpt _ | .layout _ => True
  | _ => False

theorem exists_of_mapM_error {α β ε : Type} {g : α → Except ε β} {l : List α} {fault : ε}
    (h : l.mapM g = .error fault) : ∃ a ∈ l, g a = .error fault := by
  induction l with
  | nil => simp [pure, Except.pure] at h
  | cons a l ih =>
    rw [List.mapM_cons] at h
    cases ha : g a with
    | error other =>
      obtain rfl : other = fault := by simpa [ha, bind, Except.bind] using h
      exact ⟨a, List.mem_cons_self, ha⟩
    | ok b =>
      cases hl : l.mapM g with
      | error other =>
        obtain rfl : other = fault := by simpa [ha, hl, bind, Except.bind] using h
        obtain ⟨a', hmem, hfault⟩ := ih hl
        exact ⟨a', List.mem_cons_of_mem _ hmem, hfault⟩
      | ok found => simp [ha, hl, bind, Except.bind, pure, Except.pure] at h

theorem forall₂_of_mapM_ok {α β ε : Type} {g : α → Except ε β} {l : List α} {found : List β}
    (h : l.mapM g = .ok found) : List.Forall₂ (fun a b => g a = .ok b) l found := by
  induction l generalizing found with
  | nil =>
    obtain rfl : [] = found := by simpa [pure, Except.pure] using h
    exact .nil
  | cons a l ih =>
    rw [List.mapM_cons] at h
    cases ha : g a with
    | error fault => simp [ha, bind, Except.bind] at h
    | ok first =>
      cases hl : l.mapM g with
      | error fault => simp [ha, hl, bind, Except.bind] at h
      | ok rest =>
        obtain rfl : first :: rest = found := by
          simpa [ha, hl, bind, Except.bind, pure, Except.pure] using h
        exact .cons ha (ih hl)

theorem Tracker.isTextual_of_targetText {c : Subject} {n : Node} {fault : Fault}
    (h : targetText c n = .error fault) : fault.IsTextual := by
  unfold targetText at h
  dsimp only at h
  split at h
  · obtain rfl := Except.error.inj h
    trivial
  · split at h
    · cases h
    · cases htext : n.text with
      | error e =>
        rw [htext] at h
        obtain rfl := Except.error.inj h
        trivial
      | ok text =>
        rw [htext] at h
        cases h

namespace Session

/-- A step after which one more reference waits for the value with the identity `i`. -/
def Registers (before after : Session) (i : NodeId) (r : Reference) : Prop :=
  after.tracker.waiting i = before.tracker.waiting i ++ [r]

/-- The tracker from which those who wait for `value` are checked when it is left: their entry is
taken off the table, and a suspension has had its effect on the states. -/
def taken (c : Subject) (value : Node) (before : Session) : Tracker :=
  let t := before.tracker
  let suspends := c.scoping.tree.isSuspension value
  { t with
    states := if suspends then t.states.suspend before.current else t.states
    pending := t.pending.filter fun w => w.1.id ≠ value.id
    stats := { t.stats with
      suspensionPoints := t.stats.suspensionPoints + if suspends then 1 else 0
      checkedAssignments := t.stats.checkedAssignments + 1 } }

/-- The step in which `value` is left settles all who wait for it: each is checked, in its turn. -/
structure Settles (c : Subject) (value : Node) (before after : Session) : Prop where
  checked : Tracker.check c before.current value (before.tracker.waiting value.id)
    (before.taken c value) = (after.tracker, none)
  frames : after.tracker.frames = before.tracker.frames
  settled : after.tracker.waiting value.id = []

/-- How a reference that waits for `value` from the session `since` on is settled in the steps that
come later: it waits until `value` is left, it is settled then with the same frame on top as when it
started to wait, and no one waits for `value` afterwards. -/
def SettledOnce (c : Subject) (value : Node) (r : Reference) (since : Session)
    (later : List (Event × Session × Session)) : Prop :=
  ∃ between ready done last, later = between ++ (.exit value, ready, done) :: last ∧
    (∀ step ∈ between, step.1 ≠ .exit value ∧ r ∈ step.2.1.tracker.waiting value.id ∧
      r ∈ step.2.2.tracker.waiting value.id) ∧
    r ∈ ready.tracker.waiting value.id ∧
    (∃ top rest, since.tracker.frames = top :: rest ∧ ready.tracker.frames = top :: rest) ∧
    Settles c value ready done ∧
    ∀ step ∈ last, step.1 ≠ .exit value ∧ step.2.2.tracker.waiting value.id = []

end Session

namespace Tracker

variable {c : Subject} {t : Tracker}

/-- If someone waits at every entry of the table, no one waits for a value only if it has no entry. -/
theorem waiting_ne_nil (hne : ∀ w ∈ t.pending, w.2 ≠ []) {w : Node × List Reference}
    (hw : w ∈ t.pending) : t.waiting w.1.id ≠ [] := by
  intro hnone
  unfold waiting at hnone
  cases hfind : t.pending.find? fun w' => w'.1.id = w.1.id with
  | none => simpa using List.find?_eq_none.1 hfind w hw
  | some found =>
    rw [hfind] at hnone
    exact hne found (List.mem_of_find?_eq_some hfind) (by simpa using hnone)

/-- The end of an evaluation takes those who wait for it off the table. -/
theorem exit_pending (current : List SegmentId) (n : Node) (hne : ∀ w ∈ t.pending, w.2 ≠ [])
    (h : t.waiting n.id = [] ∨ (t.references.isSome ∧ isEvaluation n)) :
    (t.exit c current n).1.pending = t.pending.filter fun w => w.1.id ≠ n.id := by
  have none_waits (hw : t.waiting n.id = []) :
      t.pending = t.pending.filter fun w => w.1.id ≠ n.id := by
    refine (List.filter_eq_self.2 fun w hmem => ?_).symm
    simp only [ne_eq, decide_not, Bool.not_eq_true', decide_eq_false_iff_not]
    exact fun hid => waiting_ne_nil hne hmem (hid ▸ hw)
  unfold exit
  split_ifs with evaluates
  · obtain ⟨s, pending, -, -, ⟨hw, heq⟩ | ⟨stats, heq⟩⟩ :=
      evaluated_cases (c := c) (t := t) current n
    · rw [heq, pending]
      exact none_waits hw
    · rw [heq, check_pending, pending]
  · exact none_waits (h.resolve_right evaluates)

/-- Meeting a name lets it wait for the value it stores, or nothing new. -/
theorem meet_pending (current : List SegmentId) (r : Reference) (t : Tracker) :
    (t.meet c current r).pending = t.pending ∨
      ∃ value, ∃ s : Tracker, c.scoping.tree.storedValue? r.toNameUse = some value ∧
        s.pending = t.pending ∧ t.meet c current r = s.await value r := by
  unfold meet
  dsimp only
  generalize hread : (if c.scoping.tree.countsAsRead r.toNameUse
    (c.scoping.tree.storedValue? r.toNameUse) = true then _ else t.remember c r) = read
  have pending : read.pending = t.pending := by
    rw [← hread]
    split_ifs <;> simp
  split
  · next value hstored =>
    split_ifs
    · exact .inr ⟨value, read, hstored, pending, rfl⟩
    · exact .inl pending
  · exact .inl pending

end Tracker

section Walk

variable {c : Subject} {o : Outline} {n : Node} {s : Session} {done rest : List Event}

/-- What the pending table is between two events: someone waits at every entry, and for a value that
has not been left. -/
structure Session.Tidy (c : Subject) (s : Session) (done : List Event) : Prop where
  occupied : ∀ w ∈ s.tracker.pending, w.2 ≠ []
  unleft : ∀ w ∈ s.tracker.pending, ∃ value ∈ c.scoping.tree.nodes, value.id = w.1.id ∧
    .exit value ∉ done

/-- An entered name lets nothing new wait, or it is met and waits for the value that it stores. -/
theorem Session.Attends.enter_pending (ho : c.scoping.Outlined o) (h : s.Attends c done)
    (hf : s.Follows c (Trail.empty.after done)) {x : Node}
    (he : (Trail.empty.after done).Allows (.enter x)) :
    (s.step c (.enter x)).1.tracker.pending = s.tracker.pending ∨
      ∃ (m : Meeting) (value : Node) (t : Tracker),
        (Trail.empty.after done).meeting? c (.enter x) = some m ∧
          value ∈ c.scoping.tree.nodes ∧ m.WaitsFor c value ∧ t.pending = s.tracker.pending ∧
            (s.step c (.enter x)).1.tracker = t.await value m.reference := by
  obtain ⟨p, outer, hp, -⟩ := he
  have step : (s.step c (.enter x)).1.tracker = s.tracker.enter c s.current x := rfl
  rw [step, hf.enter_eq]
  cases hr : (Trail.empty.after done).reference? c x with
  | none => exact .inl rfl
  | some r =>
    have meeting : (Trail.empty.after done).meeting? c (.enter x) = some ⟨p.owner, r⟩ := by
      simp [Trail.meeting?, hp, hr]
    obtain ⟨-, -, -, references, -, -, -, hfollowed, hmem, -⟩ := Trail.meeting?_eq_some meeting
    obtain ⟨hreferences, hscope⟩ := Tracker.mem_followed ho hfollowed hmem
    refine (Tracker.meet_pending s.current r s.tracker).imp_right ?_
    rintro ⟨value, t, hstored, pending, hmeet⟩
    have hvalue := Tracker.mem_nodes_of_stores ho hreferences hstored
    refine ⟨⟨p.owner, r⟩, value, t, meeting, hvalue, ?_, pending, hmeet⟩
    -- Had it no cause to wait, nobody new would.
    by_contra hw
    have unchanged := ((Tracker.meet_spec (m := ⟨p.owner, r⟩) ho h.apart hreferences hscope
      s.current).2.2 value hvalue).2 hw
    rw [hmeet, Tracker.waiting_await, if_pos rfl, Tracker.waiting_of_pending pending] at unchanged
    simp at unchanged

namespace Session.Tidy

theorem initial : Session.initial.Tidy c [] :=
  ⟨fun _ hw => absurd hw List.not_mem_nil, fun _ hw => absurd hw List.not_mem_nil⟩

theorem waiting_eq_nil (h : s.Tidy c done) {value : Node} (hv : value ∈ c.scoping.tree.nodes)
    (hexit : .exit value ∈ done) : s.tracker.waiting value.id = [] := by
  unfold Tracker.waiting
  cases hfind : s.tracker.pending.find? fun w => w.1.id = value.id with
  | none => rfl
  | some w =>
    obtain ⟨other, hother, hid, hnot⟩ := h.unleft w (List.mem_of_find?_eq_some hfind)
    have same : other.id = value.id := hid.trans (by simpa using List.find?_some hfind)
    rw [Tree.eq_of_id_eq hother hv same] at hnot
    exact absurd hexit hnot

/-- A name that is met waits for a value that is yet to be left. -/
theorem enter (ho : c.scoping.Grammatical o)
    (hn : n ∈ c.scoping.tree.nodes) (h : s.Tidy c done)
    (hf : s.Follows c (Trail.empty.after done)) (ha : s.Attends c done) {x : Node}
    (hevents : n.events = done ++ .enter x :: rest) :
    (s.step c (.enter x)).1.Tidy c (done ++ [.enter x]) := by
  have allowed := n.events_allowed.1
  rw [hevents] at allowed
  have he := (Trail.allowsAll_append.1 allowed).2.1
  have stays {w : Node × List Reference} (hw : w ∈ s.tracker.pending) :
      ∃ value ∈ c.scoping.tree.nodes, value.id = w.1.id ∧ .exit value ∉ done ++ [.enter x] := by
    obtain ⟨value, hvalue, hid, hnot⟩ := h.unleft w hw
    exact ⟨value, hvalue, hid, by simpa using hnot⟩
  rcases ha.enter_pending ho.toOutlined hf he with
    pending | ⟨m, value, t, hmeet, hvalue, hw, pending, heq⟩
  · exact ⟨fun w hw => h.occupied w (pending ▸ hw), fun w hw => stays (pending ▸ hw)⟩
  · obtain ⟨-, between, last, -, rfl, -⟩ := hw.exists_exit ho hn hevents hmeet
    have later : n.events = (done ++ .enter x :: between) ++ .exit value :: last := by
      rw [hevents]
      simp
    have unleft : .exit value ∉ done ++ [.enter x] := fun hmem =>
      GrammaticalTree.exit_notMem (t := ho.tree) hn later (by simpa using Or.inl hmem)
    refine ⟨fun w hw => ?_, fun w hw => ?_⟩
    all_goals
      rw [heq] at hw
      rcases Tracker.mem_pending_await hw with hw | ⟨hid, hne⟩
    · exact h.occupied w (pending ▸ hw)
    · exact hne
    · exact stays (pending ▸ hw)
    · exact ⟨value, hvalue, hid.symm, unleft⟩

/-- Whoever waits for a value is off the table when it is left. -/
theorem exit (ho : c.scoping.Grammatical o)
    (hn : n ∈ c.scoping.tree.nodes) (h : s.Tidy c done)
    (hf : s.Follows c (Trail.empty.after done)) (ha : s.Attends c done) {value : Node}
    (hevents : n.events = done ++ .exit value :: rest) :
    (s.step c (.exit value)).1.Tidy c (done ++ [.exit value]) := by
  have pending := Tracker.exit_pending (c := c) s.current value h.occupied
    (ha.evaluates ho hn hf hevents).2
  have step : (s.step c (.exit value)).1.tracker = (s.tracker.exit c s.current value).1 := rfl
  refine ⟨fun w hw => ?_, fun w hw => ?_⟩
  all_goals
    rw [step, pending, List.mem_filter] at hw
    obtain ⟨hw, hid⟩ := hw
  · exact h.occupied w hw
  · obtain ⟨other, hother, hsame, hnot⟩ := h.unleft w hw
    refine ⟨other, hother, hsame, ?_⟩
    rw [List.mem_append, List.mem_singleton, not_or]
    refine ⟨hnot, fun heq => ?_⟩
    obtain rfl : other = value := Event.exit.inj heq
    simp [hsame] at hid

end Session.Tidy

theorem Session.run_tidy (ho : c.scoping.Grammatical o)
    (hn : n ∈ c.scoping.tree.nodes)
    (h : n.events = done ++ rest) (hs : Session.initial.run c done = .ok s) : s.Tidy c done := by
  induction done using List.reverseRecOn generalizing s rest with
  | nil =>
    obtain rfl : Session.initial = s := by simpa [run, pure, Except.pure] using hs
    exact Tidy.initial
  | append_singleton done e ih =>
    rw [List.append_assoc, List.singleton_append] at h
    obtain ⟨before, hbefore, hstep⟩ := run_concat.1 hs
    have allowed := n.events_allowed.1
    rw [h] at allowed
    obtain ⟨hdone, he, -⟩ := Trail.allowsAll_append.1 allowed
    have tidy := ih h hbefore
    have follows := (follows_run hdone hbefore).1
    have attends := ((run_reports ho hn h).1 before hbefore).1
    obtain rfl : (before.step c e).1 = s := by rw [hstep]
    cases e with
    | enter x => exact tidy.enter ho hn follows attends h
    | exit value => exact tidy.exit ho hn follows attends h
    | _ =>
      obtain ⟨-, -, -, pending⟩ :=
        follows.step_quiet (Trail.consistent_empty.after hdone) he (by simp)
      refine ⟨fun w hw => tidy.occupied w (pending ▸ hw), fun w hw => ?_⟩
      obtain ⟨value, hvalue, hid, hnot⟩ := tidy.unleft w (pending ▸ hw)
      exact ⟨value, hvalue, hid, by simpa using hnot⟩

/-- Nothing is left to settle when the walk is over. -/
theorem Session.run_over (ho : c.scoping.Grammatical o)
    (hn : n ∈ c.scoping.tree.nodes)
    (hs : Session.initial.run c n.events = .ok s) :
    s.tracker.frames = [] ∧ s.tracker.pending = [] := by
  classical
  obtain ⟨allowed, closed⟩ := n.events_allowed
  have frames := (follows_run allowed hs).1.frames
  have attends := ((run_reports ho hn (List.append_nil _).symm).1 s hs).1
  have tidy := run_tidy ho hn (List.append_nil _).symm hs
  refine ⟨?_, List.eq_nil_iff_forall_not_mem.2 fun w hw => ?_⟩
  · rw [closed] at frames
    exact List.forall₂_nil_right_iff.1 frames
  · obtain ⟨value, hvalue, hid, hnot⟩ := tidy.unleft w hw
    have waits := Tracker.waiting_ne_nil tidy.occupied hw
    rw [← hid, attends.waiting value hvalue hnot] at waits
    rw [ne_eq, List.map_eq_nil_iff] at waits
    obtain ⟨m, hm⟩ := List.exists_mem_of_ne_nil _ waits
    obtain ⟨hm, hw⟩ := List.mem_filter.1 hm
    obtain ⟨first, e, later, hsplit, hmeet⟩ := Trail.exists_meeting hm
    obtain ⟨-, between, last, -, rfl, -⟩ :=
      Meeting.WaitsFor.exists_exit ho hn (of_decide_eq_true hw) hsplit hmeet
    exact hnot (by rw [hsplit]; simp)

/-- Whoever waits after a step and did not before has been met in it. -/
theorem Session.Registers.exists_meeting (ho : c.scoping.Grammatical o)
    (hn : n ∈ c.scoping.tree.nodes) {e : Event}
    (hevents : n.events = done ++ e :: rest) (hs : Session.initial.run c done = .ok s) {i : NodeId}
    {r : Reference} (h : s.Registers (s.step c e).1 i r) :
    ∃ (m : Meeting) (value : Node), (Trail.empty.after done).meeting? c e = some m ∧
      m.reference = r ∧ value ∈ c.scoping.tree.nodes ∧ value.id = i ∧ m.WaitsFor c value := by
  have allowed := n.events_allowed.1
  rw [hevents] at allowed
  obtain ⟨hdone, he, -⟩ := Trail.allowsAll_append.1 allowed
  have follows := (follows_run hdone hs).1
  have attends := ((run_reports ho hn hevents).1 s hs).1
  have tidy := run_tidy ho hn hevents hs
  unfold Registers at h
  have unchanged (hp : (s.step c e).1.tracker.waiting i = s.tracker.waiting i) : False := by
    rw [hp] at h
    simp at h
  cases e with
  | enter x =>
    rcases attends.enter_pending ho.toOutlined follows he with
      pending | ⟨m, value, t, hmeet, hvalue, hw, pending, heq⟩
    · exact (unchanged (Tracker.waiting_of_pending pending i)).elim
    · rw [heq, Tracker.waiting_await, Tracker.waiting_of_pending pending] at h
      split_ifs at h with hid
      · exact ⟨m, value, hmeet, by simpa using h, hvalue, hid, hw⟩
      · simp at h
  | exit x =>
    have pending := Tracker.exit_pending (c := c) s.current x tidy.occupied
      (attends.evaluates ho hn follows hevents).2
    have step : (s.step c (.exit x)).1.tracker = (s.tracker.exit c s.current x).1 := rfl
    by_cases hid : i = x.id
    · rw [step, hid, Tracker.waiting_filter_self s.tracker pending] at h
      simp at h
    · exact (unchanged (Tracker.exit_waiting s.current x hid)).elim
  | _ =>
    obtain ⟨-, -, -, pending⟩ :=
      follows.step_quiet (Trail.consistent_empty.after hdone) he (by simp)
    exact (unchanged (Tracker.waiting_of_pending pending i)).elim

variable {value : Node} {m : Meeting}

open Classical in
/-- A reference that has been met waits for its value until the value is left, and no longer. -/
theorem Session.waiting_in_history (ho : c.scoping.Grammatical o)
    (hn : n ∈ c.scoping.tree.nodes)
    {early late : List (Event × Session × Session)} {step : Event × Session × Session}
    (h : Session.initial.history c n.events = .ok (early ++ step :: late))
    (hm : m ∈ Trail.empty.meetings c (early.map (·.1))) (hw : m.WaitsFor c value)
    (hvalue : value ∈ c.scoping.tree.nodes) :
    (.exit value ∉ early.map (·.1) → m.reference ∈ step.2.1.tracker.waiting value.id ∧
      (step.1 ≠ .exit value → m.reference ∈ step.2.2.tracker.waiting value.id)) ∧
    (.exit value ∈ early.map (·.1) → step.1 ≠ .exit value ∧
      step.2.2.tracker.waiting value.id = []) := by
  obtain ⟨e, before, after⟩ := step
  obtain ⟨hrun, hstep, hevents⟩ := run_of_history h
  have hnext := run_concat.2 ⟨_, hrun, hstep⟩
  have hsofar : n.events = (early.map (·.1) ++ [e]) ++ late.map (·.1) := by
    rw [hevents]
    simp
  have mem {done rest : List Event} {s : Session} (hs : initial.run c done = .ok s)
      (hevents : n.events = done ++ rest) (hm : m ∈ Trail.empty.meetings c done)
      (hexit : .exit value ∉ done) : m.reference ∈ s.tracker.waiting value.id := by
    rw [((run_reports ho hn hevents).1 s hs).1.waiting value hvalue hexit]
    exact List.mem_map_of_mem (List.mem_filter.2 ⟨hm, by simpa using hw⟩)
  refine ⟨fun hexit => ⟨mem hrun hevents hm hexit, fun hne => ?_⟩, fun hexit => ⟨?_, ?_⟩⟩
  · refine mem hnext hsofar ?_ (by simpa [hexit] using hne.symm)
    rw [Trail.meetings_concat]
    exact List.mem_append_left _ hm
  · rintro rfl
    exact GrammaticalTree.exit_notMem (t := ho.tree) hn hevents hexit
  · exact (run_tidy ho hn hsofar hnext).waiting_eq_nil hvalue (List.mem_append_left _ hexit)

end Walk

/-- Every open path has been started with its owner. -/
theorem Trail.pathStart_mem {done : List Event} {p : OpenPath}
    (hp : p ∈ (Trail.empty.after done).opened) : ∃ upper, .pathStart p.id p.owner upper ∈ done := by
  induction done using List.reverseRecOn generalizing p with
  | nil => simp [Trail.empty] at hp
  | append_singleton done e ih =>
    have earlier {q : OpenPath} (hq : q ∈ (Trail.empty.after done).opened) :
        ∃ upper, .pathStart q.id q.owner upper ∈ done ++ [e] := by
      obtain ⟨upper, hmem⟩ := ih hq
      exact ⟨upper, List.mem_append_left _ hmem⟩
    rw [Trail.after_concat] at hp
    cases e with
    | pathStart id owner upper =>
      rcases List.mem_cons.1 hp with rfl | hp
      · exact ⟨upper, by simp⟩
      · exact earlier hp
    | segment s =>
      cases hopened : (Trail.empty.after done).opened with
      | nil => simp [Trail.record, hopened] at hp
      | cons q rest =>
        simp only [Trail.record, hopened] at hp
        rcases List.mem_cons.1 hp with rfl | hp
        · exact earlier (q := q) (by simp [hopened])
        · exact earlier (by simp [hopened, hp])
    | pathEnd id owner returned thrown => exact earlier (List.mem_of_mem_tail hp)
    | _ => exact earlier hp

section Frames

variable {c : Subject} {n : Node} {s : Session} {done rest : List Event}

theorem Frame.eq_of_standsFor {fs gs : List Frame} {ps qs : List OpenPath}
    (hf : List.Forall₂ (Frame.StandsFor c) fs ps) (hg : List.Forall₂ (Frame.StandsFor c) gs qs)
    (h : List.Forall₂ (fun p q => p.id = q.id ∧ p.owner = q.owner) ps qs) : fs = gs := by
  induction h generalizing fs gs with
  | nil => rw [List.forall₂_nil_right_iff.1 hf, List.forall₂_nil_right_iff.1 hg]
  | cons same _ ih =>
    obtain ⟨f, fs, hfp, hfs, rfl⟩ := List.forall₂_cons_right_iff.1 hf
    obtain ⟨g, gs, hgq, hgs, rfl⟩ := List.forall₂_cons_right_iff.1 hg
    obtain ⟨path, references⟩ := f
    obtain ⟨path', references'⟩ := g
    obtain rfl : path = path' := by
      simpa using hfp.id.symm.trans (same.1.trans hgq.id)
    obtain rfl : references = references' := by
      rw [show references = _ from hfp.references, show references' = _ from hgq.references, same.2]
    rw [ih hfs hgs]

/-- A node starts one code path only, so its paths are told by their owners. -/
theorem GrammaticalTree.opened_eq_of_owners {t : GrammaticalTree} (hn : n ∈ t.nodes)
    {done' rest' : List Event} (h : n.events = done ++ rest) (h' : n.events = done' ++ rest')
    (howners : (Trail.empty.after done).owners = (Trail.empty.after done').owners) :
    List.Forall₂ (fun p q => p.id = q.id ∧ p.owner = q.owner) (Trail.empty.after done).opened
      (Trail.empty.after done').opened := by
  have distinct := nodup_events hn Stop.shows_started?
  have same {p q : OpenPath} (hp : p ∈ (Trail.empty.after done).opened)
      (hq : q ∈ (Trail.empty.after done').opened) (howner : p.owner = q.owner) : p.id = q.id := by
    obtain ⟨upper, hmem⟩ := Trail.pathStart_mem hp
    obtain ⟨upper', hmem'⟩ := Trail.pathStart_mem hq
    obtain ⟨before, after, hsplit⟩ := List.append_of_mem
      (show .pathStart p.id p.owner upper ∈ n.events by rw [h]; exact List.mem_append_left _ hmem)
    obtain ⟨before', after', hsplit'⟩ := List.append_of_mem
      (show .pathStart q.id q.owner upper' ∈ n.events by
        rw [h']; exact List.mem_append_left _ hmem')
    rw [hsplit] at distinct
    obtain ⟨-, heq, -⟩ := split_unique distinct (hsplit.symm.trans hsplit') (y := p.owner) rfl
      (by rw [howner]; rfl)
    exact (Event.pathStart.inj heq).1
  have within {ps qs : List OpenPath} (hps : ps ⊆ (Trail.empty.after done).opened)
      (hqs : qs ⊆ (Trail.empty.after done').opened) (h : ps.map (·.owner) = qs.map (·.owner)) :
      List.Forall₂ (fun p q => p.id = q.id ∧ p.owner = q.owner) ps qs := by
    induction ps generalizing qs with
    | nil =>
      obtain rfl : qs = [] := by simpa using h.symm
      exact .nil
    | cons p ps ih =>
      cases qs with
      | nil => simp at h
      | cons q qs =>
        obtain ⟨howner, h⟩ := List.cons.inj h
        exact .cons ⟨same (hps List.mem_cons_self) (hqs List.mem_cons_self) howner, howner⟩
          (ih (List.subset_of_cons_subset hps) (List.subset_of_cons_subset hqs) h)
  exact within (List.Subset.refl _) (List.Subset.refl _) howners

variable {o : Outline}

theorem Session.evaluated_eq {value : Node} (hwaits : s.tracker.waiting value.id ≠ []) :
    s.tracker.evaluated c s.current value =
      Tracker.check c s.current value (s.tracker.waiting value.id) (s.taken c value) := by
  unfold Tracker.evaluated taken
  unfold Tracker.waiting at hwaits ⊢
  cases hfind : s.tracker.pending.find? fun w => w.1.id = value.id with
  | none => simp [hfind] at hwaits
  | some w => cases c.scoping.tree.isSuspension value <;> simp [hfind]

/-- When a value is left for which someone waits, all who do are checked. -/
theorem Session.settles (ho : c.scoping.Grammatical o)
    (hn : n ∈ c.scoping.tree.nodes) {value : Node} (hevents : n.events = done ++ .exit value :: rest)
    (hs : Session.initial.run c done = .ok s) {after : Session}
    (hstep : s.step c (.exit value) = (after, none))
    (hwaits : s.tracker.waiting value.id ≠ []) : s.Settles c value after := by
  have allowed := n.events_allowed.1
  rw [hevents] at allowed
  obtain ⟨hdone, he, -⟩ := Trail.allowsAll_append.1 allowed
  have follows := (follows_run hdone hs).1
  have attends := ((run_reports ho hn hevents).1 s hs).1
  have tidy := run_tidy ho hn hevents hs
  have evaluates := (attends.evaluates ho hn follows hevents).2
  have exit : s.tracker.exit c s.current value = (after.tracker, none) := by
    have step : ((s.step c (.exit value)).1.tracker, (s.step c (.exit value)).2) =
        s.tracker.exit c s.current value := rfl
    rw [← step, hstep]
  have frames : after.tracker.frames = s.tracker.frames := by
    have next := follows.step (Trail.consistent_empty.after hdone) he
    rw [hstep] at next
    exact Frame.eq_of_standsFor next.frames follows.frames
      (List.forall₂_same.2 fun p _ => ⟨rfl, rfl⟩)
  have pending := Tracker.exit_pending (c := c) s.current value tidy.occupied evaluates
  rw [exit] at pending
  refine ⟨?_, frames, Tracker.waiting_filter_self s.tracker pending⟩
  rwa [Tracker.exit, if_pos (evaluates.resolve_left hwaits), evaluated_eq hwaits] at exit

/-- Whoever starts to wait for a value is settled, once. -/
theorem Session.Registers.settled (ho : c.scoping.Grammatical o)
    (hn : n ∈ c.scoping.tree.nodes)
    {first later : List (Event × Session × Session)} {e : Event} {before after : Session}
    (hsteps : Session.initial.history c n.events = .ok (first ++ (e, before, after) :: later))
    {i : NodeId} {r : Reference} (h : before.Registers after i r) :
    ∃ value ∈ c.scoping.tree.nodes, value.id = i ∧ SettledOnce c value r after later := by
  obtain ⟨hbefore, hstep, hevents⟩ := run_of_history hsteps
  obtain ⟨m, value, hmeet, rfl, hvalue, hid, hw⟩ :=
    Registers.exists_meeting ho hn hevents hbefore (by rw [hstep]; exact h)
  obtain ⟨-, between', last', outer, hlater, howners, hagain⟩ :=
    hw.exists_exit ho hn hevents hmeet
  obtain ⟨between, tail, rfl, rfl, htail⟩ := List.map_eq_append_iff.1 hlater
  obtain ⟨⟨_, ready, done⟩, last, rfl, rfl, rfl⟩ := List.map_eq_cons_iff.1 htail
  obtain ⟨x, -, -, -, rfl, -⟩ := Trail.meeting?_eq_some hmeet
  have met (l : List (Event × Session × Session)) : m ∈ Trail.empty.meetings c
      ((first ++ (.enter x, before, after) :: l).map (·.1)) := by
    rw [List.map_append, Trail.meetings_append, List.map_cons, Trail.meetings, hmeet]
    simp
  have hsplit : initial.history c n.events = .ok ((first ++ (.enter x, before, after) :: between) ++
      (.exit value, ready, done) :: last) := by
    rw [hsteps]
    simp
  obtain ⟨hready, hdone, hexit⟩ := run_of_history hsplit
  have unleft := GrammaticalTree.exit_notMem (t := ho.tree) hn hexit
  have ready_waits := ((waiting_in_history ho hn hsplit (met between) hw hvalue).1 unleft).1
  refine ⟨value, hvalue, hid, between, ready, done, last, rfl, fun step hmem => ?_, ready_waits, ?_,
    settles ho hn hexit hready hdone (List.ne_nil_of_mem ready_waits), fun step hmem => ?_⟩
  · obtain ⟨early, late, rfl⟩ := List.append_of_mem hmem
    simp only [List.map_append, List.map_cons, List.mem_append, List.mem_cons, not_or] at unleft
    have split : initial.history c n.events = .ok ((first ++ (.enter x, before, after) :: early) ++
        step :: (late ++ (.exit value, ready, done) :: last)) := by
      rw [hsteps]
      simp
    have here := (waiting_in_history ho hn split (met early) hw hvalue).1 (by
      rw [List.map_append, List.map_cons, List.mem_append, List.mem_cons, not_or, not_or]
      exact ⟨unleft.1, by simp, unleft.2.2.1⟩)
    have other : step.1 ≠ .exit value := fun heq => unleft.2.2.2.1 heq.symm
    exact ⟨other, here.1, here.2 other⟩
  · have hafter := run_concat.2 ⟨_, hbefore, hstep⟩
    have hsofar : n.events = (first.map (·.1) ++ [.enter x]) ++
        (between.map (·.1) ++ .exit value :: last.map (·.1)) := by
      rw [hexit]
      simp
    have same := GrammaticalTree.opened_eq_of_owners (t := ho.tree) hn hexit hsofar
      (by rw [Trail.after_concat, List.map_append, List.map_cons, hagain, ← howners]; rfl)
    have allowed := n.events_allowed.1
    rw [hexit, Trail.allowsAll_append] at allowed
    have hfirst := allowed.1
    rw [List.map_append, List.map_cons, ← List.singleton_append, ← List.append_assoc,
      Trail.allowsAll_append] at hfirst
    have frames := (follows_run allowed.1 hready).1.frames
    obtain ⟨p, opened, hopened, -⟩ := List.map_eq_cons_iff.1 hagain
    obtain ⟨top, rest, -, -, htop⟩ := List.forall₂_cons_right_iff.1
      (by rwa [List.map_append, List.map_cons, hopened] at frames)
    exact ⟨top, rest, (Frame.eq_of_standsFor (follows_run hfirst.1 hafter).1.frames frames
      (same.flip.imp fun _ _ h => ⟨h.1.symm, h.2.symm⟩)).trans htop, htop⟩
  · obtain ⟨early, late, rfl⟩ := List.append_of_mem hmem
    have split : initial.history c n.events = .ok ((first ++ (.enter x, before, after) ::
        (between ++ (.exit value, ready, done) :: early)) ++ step :: late) := by
      rw [hsteps]
      simp
    exact (waiting_in_history ho hn split (met _) hw hvalue).2 (by simp)

/-- Where the analysis fails, the text of the target of an assignment is missing. -/
theorem Subject.analyze_error (ho : c.scoping.Grammatical o)
    (hn : n ∈ c.scoping.tree.nodes) {fault : Fault}
    (h : c.analyze n = .error fault) : ∃ p ∈ c.scoping.tree.nodes, ∃ target ∈ p.targets,
      Tracker.targetText c target = .error fault := by
  have reports := analyze_reports ho hn
  rw [h] at reports
  obtain ⟨f, hf, hfault⟩ := exists_of_mapM_error reports.symm
  obtain ⟨p, hp, -, target, htarget, -, hviolation⟩ := violation_of_mem_findings ho.toOutlined hf
  refine ⟨p, hp, target, htarget, ?_⟩
  rw [hviolation] at hfault
  cases htext : Tracker.targetText c target with
  | ok text => simp [htext, Except.map] at hfault
  | error other => simpa [htext, Except.map] using hfault

end Frames

/-- The analysis from any node of a program is clean. It fails for want of the text of a target only,
and where all have one it ends with no code path open and no value waited for. Whoever starts to wait
for a value on the way is settled once: when the value is left, with the same code paths open. -/
theorem Subject.analyze_clean {t : Tree} (hg : t.root.isGrammatical = true) {m : Scoping}
    (hm : Scoping.ofTree t = .ok m) {n : Node} (hn : n ∈ t.nodes) (source : Option String)
    (shared : List String) :
    let c : Subject := ⟨m, source, shared⟩
    (∀ fault, c.analyze n = .error fault → fault.IsTextual) ∧
    ((∀ p ∈ t.nodes, ∀ target ∈ p.targets, ∃ text, Tracker.targetText c target = .ok text) →
      ∃ steps last, Session.initial.history c n.events = .ok steps ∧
        Session.initial.run c n.events = .ok last ∧ last.tracker.frames = [] ∧
          last.tracker.pending = [] ∧
            ∀ first e before after later, steps = first ++ (e, before, after) :: later →
              ∀ i r, before.Registers after i r →
                ∃ value ∈ t.nodes, value.id = i ∧ Session.SettledOnce c value r after later) := by
  obtain rfl := Scoping.tree_eq_of_ofTree hm
  obtain ⟨o, ho⟩ := Scoping.exists_grammatical hm hg
  intro c
  refine ⟨fun fault h => ?_, fun texts => ?_⟩
  · obtain ⟨p, -, target, -, htext⟩ := analyze_error (c := c) ho hn h
    exact Tracker.isTextual_of_targetText htext
  · have runs : ∃ last, Session.initial.run c n.events = .ok last := by
      cases hrun : Session.initial.run c n.events with
      | ok last => exact ⟨last, rfl⟩
      | error fault =>
        have failed : c.analyze n = .error fault := by
          rw [analyze, hrun]
          rfl
        obtain ⟨p, hp, target, htarget, hfault⟩ := analyze_error (c := c) ho hn failed
        obtain ⟨text, htext⟩ := texts p hp target htarget
        cases hfault.symm.trans htext
    obtain ⟨last, hlast⟩ := runs
    obtain ⟨steps, hsteps⟩ := Session.exists_history hlast
    obtain ⟨frames, pending⟩ := Session.run_over ho hn hlast
    refine ⟨steps, last, hsteps, hlast, frames, pending, ?_⟩
    rintro first e before after later rfl i r hr
    exact hr.settled ho hn hsteps

/-- In the coroutine that adds to a global counter, the counter waits for the sum. -/
theorem Subject.analyze_clean_bump :
    let c : Subject := ⟨Bump.scoping, none, []⟩
    ∃ last since r later, Session.initial.run c Bump.root.events = .ok last ∧
      last.tracker.frames = [] ∧ last.tracker.pending = [] ∧
        since.tracker.waiting Bump.sum.id = [r] ∧
          Session.SettledOnce c Bump.sum r since later := by
  intro c
  have texts : ∀ p ∈ Bump.tree.nodes, ∀ target ∈ p.targets,
      ∃ text, Tracker.targetText c target = .ok text := by
    have all : ((Bump.tree.nodes.flatMap (·.targets)).all fun target =>
        (Tracker.targetText c target).toOption.isSome) = true := by cbv
    intro p hp target htarget
    have known := List.all_eq_true.1 all target (List.mem_flatMap.2 ⟨p, hp, htarget⟩)
    cases htext : Tracker.targetText c target with
    | ok text => exact ⟨text, rfl⟩
    | error fault => simp [htext, Except.toOption] at known
  obtain ⟨steps, last, hsteps, hlast, frames, pending, settled⟩ :=
    (analyze_clean Bump.isGrammatical Bump.ofTree_tree Bump.root_mem none []).2 texts
  have starts : ((Session.initial.history c Bump.root.events).toOption.getD []).any (fun step =>
      (step.2.1.tracker.waiting Bump.sum.id).isEmpty &&
        (step.2.2.tracker.waiting Bump.sum.id).length == 1) = true := by cbv
  rw [hsteps] at starts
  obtain ⟨⟨e, before, after⟩, hmem, hwaits⟩ := List.any_eq_true.1 starts
  simp only [Bool.and_eq_true, List.isEmpty_iff, beq_iff_eq, List.length_eq_one_iff] at hwaits
  obtain ⟨hnone, r, hr⟩ := hwaits
  obtain ⟨first, later, hsplit⟩ := List.append_of_mem hmem
  obtain ⟨value, hvalue, hid, once⟩ := settled first e before after later hsplit Bump.sum.id r
    (by rw [Session.Registers, hnone, hr]; rfl)
  have sum_mem : Bump.sum ∈ Bump.tree.nodes := by
    have function_mem : Bump.function ∈ Bump.tree.nodes :=
      Bump.tree.mem_nodes_of_mem_children Bump.root_mem List.mem_cons_self
    let assignment : Node := .mk 4 none (.assign [.mk 5 none (.name "total" .store)] Bump.sum)
    have assignment_mem : assignment ∈ Bump.tree.nodes :=
      Bump.tree.mem_nodes_of_mem_children function_mem
        (List.mem_cons_of_mem _ (List.mem_append_left _ (List.mem_cons_of_mem _ List.mem_cons_self)))
    exact Bump.tree.mem_nodes_of_mem_children assignment_mem
      (List.mem_append_right [_] List.mem_cons_self)
  rw [Tree.eq_of_id_eq hvalue sum_mem hid] at once
  exact ⟨last, after, r, later, hlast, frames, pending, hr, once⟩

end LostUpdate
