import LostUpdate.Proofs.Race.Mark
import LostUpdate.Proofs.Walk.Graph
import LostUpdate.Race.Session

namespace LostUpdate

theorem exists_ok_of_map {α β ε : Type} {g : α → β} {e : Except ε α} {b : β}
    (h : e.map g = .ok b) : ∃ a, e = .ok a ∧ g a = b := by
  cases e with
  | error fault => simp [Except.map] at h
  | ok a => exact ⟨a, rfl, Except.ok.inj h⟩

/-- A frame stands for an open path: it knows its place and what to follow in it. -/
structure Frame.StandsFor (c : Subject) (f : Frame) (p : OpenPath) : Prop where
  id : p.id = .ordinal (f.path + 1)
  references : f.references = Tracker.followed c p.owner

structure Session.Follows (c : Subject) (s : Session) (t : Trail) : Prop where
  drawn : t.Drawn s.paths
  frames : List.Forall₂ (Frame.StandsFor c) s.tracker.frames t.opened

/-- What a mark does to the states. -/
def SegmentStates.mark (m : SegmentStates SegmentId Tracked) :
    SegmentId × Mark → SegmentStates SegmentId Tracked
  | (k, .read v) => m.read [k] v
  | (k, .suspend) => m.suspend [k]

/-- What an event does to the states: a segment that starts joins what is before it, and otherwise
the mark of the event counts. -/
def Trail.advance (c : Subject) (t : Trail) (m : SegmentStates SegmentId Tracked) :
    Event → SegmentStates SegmentId Tracked
  | .segment s => m.start s.id s.previous
  | e => (t.marked c e).foldl SegmentStates.mark m

namespace Tracker

variable (c : Subject)

@[simp] theorem remember_frames (r : Reference) (t : Tracker) :
    (t.remember c r).frames = t.frames := by
  unfold remember
  split
  · rfl
  · dsimp only
    split_ifs <;> rfl

@[simp] theorem remember_states (r : Reference) (t : Tracker) :
    (t.remember c r).states = t.states := by
  unfold remember
  split
  · rfl
  · dsimp only
    split_ifs <;> rfl

@[simp] theorem await_frames (value : Node) (r : Reference) (t : Tracker) :
    (t.await value r).frames = t.frames := by
  unfold await
  split_ifs <;> rfl

@[simp] theorem await_states (value : Node) (r : Reference) (t : Tracker) :
    (t.await value r).states = t.states := by
  unfold await
  split_ifs <;> rfl

theorem endPath_states (path : Nat) (graph : CodePath) (t : Tracker) :
    (t.endPath path graph).1.states = t.states := by
  unfold endPath
  split
  · rfl
  · split_ifs
    · dsimp only
      split <;> rfl
    · rfl

theorem report_frames_states (r : Reference) (value : Node) (t : Tracker) :
    (t.report c r value).1.frames = t.frames ∧ (t.report c r value).1.states = t.states := by
  unfold report
  split
  · exact ⟨rfl, rfl⟩
  · split
    · exact ⟨rfl, rfl⟩
    · split <;> exact ⟨rfl, rfl⟩

theorem check_frames_states (current : List SegmentId) (value : Node) (waiting : List Reference)
    (t : Tracker) : (check c current value waiting t).1.frames = t.frames ∧
      (check c current value waiting t).1.states = t.states := by
  induction waiting generalizing t with
  | nil => exact ⟨rfl, rfl⟩
  | cons r waiting ih =>
    have reported := report_frames_states c r value (t.remember c r)
    simp only [remember_frames, remember_states] at reported
    simp only [check]
    split_ifs
    · split
      · next next h =>
        have later := ih next
        simp only [h] at reported
        exact ⟨later.1.trans reported.1, later.2.trans reported.2⟩
      · next next fault h =>
        simpa only [h] using reported
    · simpa using ih (t.remember c r)

theorem meet_frames (current : List SegmentId) (r : Reference) (t : Tracker) :
    (t.meet c current r).frames = t.frames := by
  unfold meet
  dsimp only
  split
  · split_ifs <;> simp
  · split_ifs <;> simp

theorem meet_states (current : List SegmentId) (r : Reference) (t : Tracker) :
    (t.meet c current r).states =
      if c.scoping.tree.countsAsRead r.toNameUse (c.scoping.tree.storedValue? r.toNameUse) then
        t.states.read current (c.scoping.tracked r)
      else t.states := by
  unfold meet
  dsimp only
  split
  · split_ifs <;> simp
  · split_ifs <;> simp

end Tracker

namespace Session.Follows

variable {c : Subject} {s : Session} {t : Trail}

theorem initial : Session.initial.Follows c .empty := ⟨Trail.Drawn.drawn_empty, .nil⟩

theorem references (h : s.Follows c t) : s.tracker.references = t.followed c := by
  have hf := h.frames
  unfold Tracker.references Trail.followed
  generalize s.tracker.frames = frames at hf ⊢
  generalize t.opened = opened at hf ⊢
  cases hf with
  | nil => rfl
  | cons hf rest => exact hf.references

theorem enter_eq (h : s.Follows c t) (current : List SegmentId) (n : Node) :
    s.tracker.enter c current n = match t.reference? c n with
      | some r => s.tracker.meet c current r
      | none => s.tracker := by
  unfold Tracker.enter Trail.reference?
  rw [h.references]
  cases n.form <;> rfl

theorem frames_isEmpty (h : s.Follows c t) {p : OpenPath} {rest : List OpenPath}
    (hp : t.opened = p :: rest) : s.tracker.frames.isEmpty = false := by
  obtain ⟨f, frames, -, -, hframes⟩ := List.forall₂_cons_right_iff.1 (hp ▸ h.frames)
  simp [hframes]

theorem innermost (h : s.Follows c t) {p : OpenPath} {rest : List OpenPath}
    (hp : t.opened = p :: rest) : ∃ q, s.innermost? = some q ∧ p.DrawnAs q := by
  have hf := h.frames
  rw [hp] at hf
  obtain ⟨f, frames, hfp, -, hframes⟩ := List.forall₂_cons_right_iff.1 hf
  obtain ⟨q, hq, hpq⟩ := h.drawn.getElem?_opened (p := p) (by simp [hp]) hfp.id
  exact ⟨q, by simp [innermost?, hframes, hq], hpq⟩

theorem current (h : s.Follows c t) : s.current = t.running?.toList := by
  cases hp : t.opened with
  | nil =>
    have hf := h.frames
    rw [hp] at hf
    cases hframes : s.tracker.frames with
    | nil => simp [Session.current, innermost?, Trail.running?, hframes, hp]
    | cons f frames =>
      rw [hframes] at hf
      cases hf
  | cons p rest =>
    obtain ⟨q, hq, hpq⟩ := h.innermost hp
    rw [Session.current, hq]
    simp only [hpq.current, Trail.running?, hp, List.head?_cons, Option.bind_some]
    cases p.segments <;> rfl

/-- Where a path ends, its graph is the one at the place that the innermost frame knows. -/
theorem step_pathEnd (h : s.Follows c t) (ht : t.Consistent) {id : PathId} {owner : Node}
    {returned thrown : List Segment} (he : t.Allows (.pathEnd id owner returned thrown)) :
    ∃ frame frames q, s.tracker.frames = frame :: frames ∧
      List.Forall₂ (Frame.StandsFor c) frames t.opened.tail ∧
      q ∈ CodePath.record s.paths (.pathEnd id owner returned thrown) ∧ q.id = id ∧
        s.step c (.pathEnd id owner returned thrown) =
          ({ s with paths := CodePath.record s.paths (.pathEnd id owner returned thrown) } :
            Session).withTracker (s.tracker.endPath frame.path q) := by
  have drawn := h.drawn.record ht he
  obtain ⟨p, rest, hp, rfl, -, -⟩ := he
  have hf := h.frames
  rw [hp] at hf
  obtain ⟨f, frames, hfp, hrest, hframes⟩ := List.forall₂_cons_right_iff.1 hf
  obtain ⟨i, hi, hid⟩ := ht.numbered p (by simp [hp])
  obtain rfl : f.path = i := by
    have same := hfp.id.symm.trans hid
    injection same with same
    omega
  have place := drawn.findIdx_ordinal hi
  have bound : f.path < (CodePath.record s.paths (.pathEnd p.id owner returned thrown)).length :=
    drawn.length ▸ hi
  have hq := List.getElem?_eq_getElem bound
  have number := drawn.ids f.path _ hq
  refine ⟨f, frames, _, hframes, by rwa [hp], List.getElem_mem bound, number.trans hid.symm, ?_⟩
  simp only [Session.step, Session.place, Session.endPath, hid] at place hq ⊢
  rw [place, hq]

/-- A path that starts is known by its place, the next one among the paths. -/
theorem step_pathStart (h : s.Follows c t) (ht : t.Consistent) {id : PathId} {owner : Node}
    {upper : Option PathId} (he : t.Allows (.pathStart id owner upper)) :
    s.step c (.pathStart id owner upper) =
      (⟨CodePath.record s.paths (.pathStart id owner upper),
        s.tracker.startPath c t.started owner⟩, none) := by
  have drawn := h.drawn.record ht he
  obtain ⟨rfl, -⟩ := he
  let path := CodePath.start (.ordinal (t.started + 1)) owner upper
  have place : (s.paths ++ [path]).findIdx (·.id = .ordinal (t.started + 1)) = t.started :=
    drawn.findIdx_ordinal (Nat.lt_succ_self _)
  have hq : (s.paths ++ [path])[t.started]? = some path := by
    rw [← h.drawn.length]
    simp
  simp only [Session.step, Session.place, Session.startPath, CodePath.record]
  rw [place, hq]
  rfl

/-- An allowed event is followed, also if it shows a fault. -/
theorem step (h : s.Follows c t) (ht : t.Consistent) {e : Event} (he : t.Allows e) :
    (s.step c e).1.Follows c (t.record e) := by
  have drawn := h.drawn.record ht he
  cases e with
  | pathStart id owner upper =>
    rw [h.step_pathStart ht he]
    obtain ⟨rfl, -⟩ := he
    exact ⟨drawn, .cons ⟨rfl, rfl⟩ h.frames⟩
  | segment seg =>
    obtain ⟨p, rest, hp, -⟩ := he
    refine ⟨?_, ?_⟩
    · simpa [Session.step, Session.startSegment, Session.withTracker] using drawn
    · simp only [Session.step, Session.startSegment, Session.withTracker, Tracker.startSegment,
        h.frames_isEmpty hp, Bool.false_eq_true, if_false, Trail.record, hp]
      have hf := h.frames
      rw [hp] at hf
      obtain ⟨f, frames, hfp, hrest, hframes⟩ := List.forall₂_cons_right_iff.1 hf
      rw [hframes]
      exact .cons ⟨hfp.id, hfp.references⟩ hrest
  | backEdge source target => exact ⟨drawn, h.frames⟩
  | enter n =>
    refine ⟨drawn, ?_⟩
    have same : (s.step c (.enter n)).1.tracker.frames = s.tracker.frames := by
      simp only [Session.step, Session.enter, Tracker.enter]
      split
      · split
        · exact Tracker.meet_frames c _ _ _
        · rfl
      · rfl
    rw [same]
    exact h.frames
  | exit n =>
    refine ⟨drawn, ?_⟩
    have same : (s.step c (.exit n)).1.tracker.frames = s.tracker.frames := by
      simp only [Session.step, Session.exit, Session.withTracker, Tracker.exit]
      split_ifs
      · unfold Tracker.evaluated
        dsimp only
        split
        · split_ifs <;> rfl
        · rw [(Tracker.check_frames_states c _ _ _ _).1]
          dsimp only
          split_ifs <;> rfl
      · rfl
    rw [same]
    exact h.frames
  | pathEnd id owner returned thrown =>
    obtain ⟨frame, frames, q, hframes, standing, -, -, hstep⟩ := h.step_pathEnd ht he
    rw [hstep]
    refine ⟨drawn, ?_⟩
    simp only [Session.withTracker, Tracker.endPath, hframes, if_true]
    split <;> exact standing

theorem step_states (h : s.Follows c t) {e : Event} (he : t.Allows e) :
    (s.step c e).1.tracker.states = t.advance c s.tracker.states e := by
  have runs {p : OpenPath} {rest : List OpenPath} (hp : t.opened = p :: rest)
      (hne : p.segments ≠ []) : ∃ k, t.running? = some k := by
    obtain ⟨seg, earlier, hsegments⟩ := List.exists_cons_of_ne_nil hne
    exact ⟨seg.id, by simp [Trail.running?, hp, hsegments]⟩
  cases e with
  | pathStart id owner upper =>
    simp only [Session.step, Session.startPath, Trail.advance]
    rw [Trail.marked_of_mark?_eq_none rfl]
    split <;> rfl
  | segment seg =>
    obtain ⟨p, rest, hp, -⟩ := he
    simp [Session.step, Session.startSegment, Session.withTracker, Tracker.startSegment,
      h.frames_isEmpty hp, Trail.advance]
  | backEdge source target =>
    simp only [Trail.advance]
    rw [Trail.marked_of_mark?_eq_none rfl]
    rfl
  | enter n =>
    obtain ⟨p, rest, hp, hne⟩ := he
    obtain ⟨k, hk⟩ := runs hp hne
    have hcurrent : s.current = [k] := by rw [h.current, hk]; rfl
    change (s.tracker.enter c s.current n).states = (t.marked c (.enter n)).foldl _ _
    rw [h.enter_eq, hcurrent, Trail.marked_of_running? hk, Trail.mark?]
    cases hr : t.reference? c n with
    | none => rfl
    | some r =>
      simp only [Tracker.meet_states, Option.bind_some]
      split_ifs <;> rfl
  | exit n =>
    obtain ⟨p, rest, hp, hne⟩ := he
    obtain ⟨k, hk⟩ := runs hp hne
    have hr := h.references
    have hcurrent : s.current = [k] := by rw [h.current, hk]; rfl
    simp only [Session.step, Session.exit, Session.withTracker, Tracker.exit, Trail.advance,
      Trail.marked_of_running? hk, Trail.mark?, hr, CodePath.record, hcurrent]
    by_cases active : (t.followed c).isSome = true ∧ Tracker.isEvaluation n = true
    · simp only [active, Tracker.evaluated, true_and, and_self, if_true]
      by_cases suspends : c.scoping.tree.isSuspension n = true
      · simp only [suspends, if_true]
        split
        · rfl
        · rw [(Tracker.check_frames_states c _ _ _ _).2]
          rfl
      · simp only [suspends]
        split
        · rfl
        · rw [(Tracker.check_frames_states c _ _ _ _).2]
          rfl
    · rw [if_neg active, if_neg (fun hall => active ⟨hall.1, hall.2.1⟩)]
      rfl
  | pathEnd id owner returned thrown =>
    simp only [Session.step, Session.endPath, Trail.advance]
    rw [Trail.marked_of_mark?_eq_none rfl]
    split
    · exact Tracker.endPath_states _ _ _
    · rfl

end Session.Follows

namespace Session

variable {c : Subject}

/-- Where a run goes through, it has a history. -/
theorem exists_history {s last : Session} {events : List Event}
    (h : s.run c events = .ok last) : ∃ steps, s.history c events = .ok steps := by
  induction events generalizing s with
  | nil => exact ⟨[], rfl⟩
  | cons e events ih =>
    rw [run, List.foldlM_cons] at h
    cases hnext : s.after c e with
    | error fault =>
      rw [hnext] at h
      cases h
    | ok next =>
      rw [hnext] at h
      obtain ⟨steps, hsteps⟩ := ih h
      refine ⟨(e, s, next) :: steps, ?_⟩
      rw [history, hnext]
      simp [bind, Except.bind, hsteps, pure, Except.pure]

theorem history_cons {s : Session} {e : Event} {events : List Event}
    {steps : List (Event × Session × Session)} :
    s.history c (e :: events) = .ok steps ↔ ∃ next later, s.step c e = (next, none) ∧
      next.history c events = .ok later ∧ steps = (e, s, next) :: later := by
  rw [history, after]
  rcases s.step c e with ⟨next, _ | fault⟩
  · cases h : next.history c events with
    | error fault => simp [bind, Except.bind, h]
    | ok later => simp [bind, Except.bind, pure, Except.pure, h, eq_comm]
  · simp [bind, Except.bind]

theorem history_map_fst {s : Session} {events : List Event}
    {steps : List (Event × Session × Session)} (h : s.history c events = .ok steps) :
    steps.map (·.1) = events := by
  induction events generalizing s steps with
  | nil =>
    obtain rfl : [] = steps := by simpa [history, pure, Except.pure] using h
    rfl
  | cons e events ih =>
    obtain ⟨next, later, -, hlater, rfl⟩ := history_cons.1 h
    rw [List.map_cons, ih hlater]

/-- A step of a history is a step of the run, after what comes before it in the history. -/
theorem run_of_history {s : Session} {events : List Event}
    {first later : List (Event × Session × Session)} {e : Event} {before after : Session}
    (h : s.history c events = .ok (first ++ (e, before, after) :: later)) :
    s.run c (first.map (·.1)) = .ok before ∧ before.step c e = (after, none) ∧
      events = first.map (·.1) ++ e :: later.map (·.1) := by
  suffices hrun : s.run c (first.map (·.1)) = .ok before ∧ before.step c e = (after, none) from
    ⟨hrun.1, hrun.2, by simpa using (history_map_fst h).symm⟩
  induction first generalizing s events with
  | nil =>
    cases events with
    | nil => simp [history] at h
    | cons e' events =>
      obtain ⟨next, rest, hstep, -, heq⟩ := history_cons.1 h
      obtain ⟨⟨rfl, rfl, rfl⟩, -⟩ : (e = e' ∧ before = s ∧ after = next) ∧ later = rest := by
        simpa using heq
      exact ⟨rfl, hstep⟩
  | cons step first ih =>
    cases events with
    | nil => simp [history] at h
    | cons e' events =>
      obtain ⟨next, rest, hstep, hlater, heq⟩ := history_cons.1 h
      obtain ⟨rfl, rfl⟩ : step = (e', s, next) ∧ first ++ (e, before, after) :: later = rest := by
        simpa using heq
      obtain ⟨hrun, hlast⟩ := ih hlater
      refine ⟨?_, hlast⟩
      rw [List.map_cons, run, List.foldlM_cons, Session.after, hstep]
      exact hrun

end Session

end LostUpdate
