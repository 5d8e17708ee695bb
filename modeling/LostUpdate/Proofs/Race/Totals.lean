import LostUpdate.Proofs.Race.Sharing
import LostUpdate.Proofs.Walk.LoopedEdges

namespace LostUpdate

/-- The sum of a measure over the paths that are no longer open. -/
def Trail.total (t : Trail) (measure : CodePath → ℕ) (paths : List CodePath) : ℕ :=
  (paths.map fun p => if p.id ∈ t.opened.map (·.id) then 0 else measure p).sum

namespace Trail

open CodePath

variable {t : Trail} {paths : List CodePath} {e : Event} {measure : CodePath → ℕ}

/-- An event that may come next changes none but open paths. -/
theorem keep_of_notMem {p : CodePath} (he : t.Allows e) (ht : t.Consistent)
    (hp : p.id ∉ t.opened.map (·.id)) : p.keep e = p := by
  have other {q : OpenPath} {rest : List OpenPath} (hq : t.opened = q :: rest) : p.id ≠ q.id := by
    rintro same
    rw [hq, same] at hp
    exact hp List.mem_cons_self
  cases e with
  | segment s =>
    obtain ⟨q, rest, hq, continues⟩ := he
    exact if_neg (by simpa [continues.id] using other hq)
  | backEdge source target =>
    obtain ⟨q, rest, earlier, hq, hsegments, -⟩ := he
    have path := (ht.successive q (hq ▸ List.mem_cons_self)).path_eq source (by simp [hsegments])
    exact if_neg (by simpa [path] using other hq)
  | pathEnd id owner returned thrown =>
    obtain ⟨q, rest, hq, rfl, -⟩ := he
    exact if_neg (other hq)
  | pathStart | enter | exit => rfl

/-- An event that may come next leaves the sum over those that are not open now. -/
theorem total_keep (he : t.Allows e) (ht : t.Consistent) (opened : List PathId)
    (hopened : ∀ p ∈ paths, p.id ∈ opened ↔ p.id ∈ t.opened.map (·.id)) :
    ((paths.map (·.keep e)).map fun p => if p.id ∈ opened then 0 else measure p).sum =
      t.total measure paths := by
  rw [total, List.map_map]
  refine congrArg List.sum (List.map_congr_left fun p hp => ?_)
  simp only [Function.comp_apply, id_keep, hopened p hp]
  split_ifs with hmem
  · rfl
  · rw [keep_of_notMem he ht hmem]

theorem Drawn.total_record (h : t.Drawn paths) (ht : t.Consistent) (he : t.Allows e)
    (hend : ∀ id owner returned thrown, e ≠ .pathEnd id owner returned thrown) :
    (t.record e).total measure (CodePath.record paths e) = t.total measure paths := by
  rw [total, record_eq]
  cases e with
  | pathEnd id owner returned thrown => exact absurd rfl (hend id owner returned thrown)
  | pathStart id owner upper =>
    obtain rfl : id = .ordinal (t.started + 1) := he.1
    rw [List.map_append, List.sum_append, total_keep he ht]
    · simp [Trail.record, CodePath.start]
    · intro p hp
      obtain ⟨i, hi⟩ := List.mem_iff_getElem?.1 hp
      have bound : i < t.started := h.length ▸ (List.getElem?_eq_some_iff.1 hi).1
      have other : p.id ≠ .ordinal (t.started + 1) := by
        rw [h.ids i p hi]
        intro same
        injection same with same
        omega
      simp [Trail.record, other]
  | segment s =>
    have opened := he
    obtain ⟨q, rest, hq, -⟩ := opened
    rw [List.append_nil]
    exact total_keep he ht _ fun p _ => by simp [Trail.record, hq]
  | backEdge | enter | exit =>
    rw [List.append_nil]
    exact total_keep he ht _ fun p _ => Iff.rfl

theorem Drawn.total_pathEnd (h : t.Drawn paths) (ht : t.Consistent) {id : PathId} {owner : Node}
    {returned thrown : List Segment} (he : t.Allows (.pathEnd id owner returned thrown)) {q : CodePath}
    (hq : q ∈ CodePath.record paths (.pathEnd id owner returned thrown)) (hid : q.id = id) :
    (t.record (.pathEnd id owner returned thrown)).total measure
        (CodePath.record paths (.pathEnd id owner returned thrown)) =
      t.total measure paths + measure q := by
  have drawn := h.record ht he
  have same : t.total measure paths = ((CodePath.record paths (.pathEnd id owner returned thrown)).map
      fun p => if p.id ∈ t.opened.map (·.id) then 0 else measure p).sum := by
    rw [record_eq, List.append_nil, total_keep he ht _ fun p _ => Iff.rfl]
  obtain ⟨p, rest, hopened, rfl, -⟩ := he
  have distinct := ht.distinct
  rw [hopened, List.pairwise_cons] at distinct
  have notMem : p.id ∉ rest.map (·.id) := fun hmem => by
    obtain ⟨r, hr, hrid⟩ := List.mem_map.1 hmem
    exact distinct.1 r hr hrid.symm
  rw [same]
  obtain ⟨first, later, hsplit⟩ := List.append_of_mem hq
  have ids := drawn.nodup_ids
  rw [hsplit, List.map_append, List.map_cons, hid, List.nodup_append, List.nodup_cons] at ids
  obtain ⟨-, ⟨inLater, -⟩, inFirst⟩ := ids
  have others (l : List CodePath) (hl : ∀ r ∈ l, r.id ≠ p.id) :
      l.map (fun r => if r.id ∈ rest.map (·.id) then 0 else measure r) =
        l.map fun r => if r.id ∈ t.opened.map (·.id) then 0 else measure r :=
    List.map_congr_left fun r hr => by simp [hopened, hl r hr]
  have rest_eq : (t.record (.pathEnd p.id owner returned thrown)).opened = rest := by
    simp [Trail.record, hopened]
  rw [total, rest_eq, hsplit, List.map_append, List.map_append, List.map_cons, List.map_cons,
    List.sum_append, List.sum_append, List.sum_cons, List.sum_cons, others first, others later, hid,
    if_neg notMem, if_pos (by simp [hopened])]
  · omega
  · exact fun r hr same => inLater (same ▸ List.mem_map_of_mem hr)
  · exact fun r hr => inFirst r.id (List.mem_map_of_mem hr) p.id List.mem_cons_self

end Trail

namespace Tracker

variable {c : Subject} {t : Tracker} {current : List SegmentId}

theorem meet_stats (r : Reference) : (t.meet c current r).stats = t.stats := by
  unfold meet
  dsimp only
  split
  · split_ifs <;> simp [await_stats, remember_stats]
  · split_ifs <;> simp [remember_stats]

theorem report_stats (r : Reference) (value : Node) : (t.report c r value).1.stats = t.stats := by
  unfold report
  split
  · rfl
  · split
    · rfl
    · split <;> rfl

theorem check_stats (value : Node) (waiting : List Reference) :
    (check c current value waiting t).1.stats = t.stats := by
  induction waiting generalizing t with
  | nil => rfl
  | cons r waiting ih =>
    have reported := report_stats (c := c) (t := t.remember c r) r value
    rw [remember_stats] at reported
    simp only [check]
    split_ifs
    · split
      · next next h =>
        rw [h] at reported
        exact ih.trans reported
      · next next fault h => simpa only [h] using reported
    · exact ih.trans (remember_stats r)

theorem enter_stats (n : Node) : (t.enter c current n).stats = t.stats := by
  unfold enter
  split
  · split
    · exact meet_stats _
    · rfl
  · rfl

theorem exit_stats (n : Node) : (t.exit c current n).1.stats = { t.stats with
    suspensionPoints := (t.exit c current n).1.stats.suspensionPoints
    checkedAssignments := (t.exit c current n).1.stats.checkedAssignments } := by
  unfold exit evaluated
  dsimp only
  split_ifs
  · split
    · rfl
    · rw [check_stats]
  · split
    · rfl
    · rw [check_stats]
  · rfl

end Tracker

namespace Session.Follows

variable {c : Subject} {s : Session} {t : Trail}

/-- The edges back of a path are counted when it ends. -/
theorem step_backEdges (h : s.Follows c t) (ht : t.Consistent) {e : Event} (he : t.Allows e)
    (counted : s.tracker.stats.backEdges = t.total (·.loopedEdges.length) s.paths) :
    (s.step c e).1.tracker.stats.backEdges =
      (t.record e).total (·.loopedEdges.length) (CodePath.record s.paths e) := by
  have same (hend : ∀ id owner returned thrown, e ≠ .pathEnd id owner returned thrown)
      (hs : (s.step c e).1.tracker.stats.backEdges = s.tracker.stats.backEdges) :
      (s.step c e).1.tracker.stats.backEdges =
        (t.record e).total (·.loopedEdges.length) (CodePath.record s.paths e) := by
    rw [h.drawn.total_record ht he hend, hs, counted]
  cases e with
  | pathEnd id owner returned thrown =>
    obtain ⟨frame, frames, q, hframes, -, hq, hid, hstep⟩ := h.step_pathEnd ht he
    rw [h.drawn.total_pathEnd ht he hq hid, hstep, ← counted]
    simp only [Session.withTracker, Tracker.endPath, hframes, if_true]
    split <;> rfl
  | pathStart id owner upper =>
    refine same (by simp) ?_
    simp only [Session.step, Session.startPath]
    split <;> rfl
  | segment seg =>
    refine same (by simp) ?_
    simp only [Session.step, Session.startSegment, Session.withTracker, Tracker.startSegment]
    split_ifs <;> rfl
  | backEdge => exact same (by simp) rfl
  | enter n => exact same (by simp) (congrArg Stats.backEdges (Tracker.enter_stats n))
  | exit n =>
    have counts : (s.tracker.exit c s.current n).1.stats.backEdges = s.tracker.stats.backEdges :=
      (congrArg Stats.backEdges (Tracker.exit_stats n)).trans rfl
    exact same (by simp) counts

end Session.Follows

namespace Session

variable {c : Subject}

theorem step_paths (s : Session) (e : Event) :
    (s.step c e).1.paths = CodePath.record s.paths e := by
  cases e with
  | pathStart | pathEnd =>
    simp only [step, startPath, endPath]
    split <;> rfl
  | segment | backEdge | enter | exit => rfl

theorem run_backEdges {done : List Event} (hd : Trail.empty.AllowsAll done) {s : Session}
    (hs : Session.initial.run c done = .ok s) : s.paths = CodePath.ofEvents done ∧
      s.tracker.stats.backEdges =
        (Trail.empty.after done).total (·.loopedEdges.length) (CodePath.ofEvents done) := by
  induction done using List.reverseRecOn generalizing s with
  | nil =>
    obtain rfl : Session.initial = s := by simpa [run, pure, Except.pure] using hs
    exact ⟨rfl, rfl⟩
  | append_singleton done e ih =>
    obtain ⟨before, hbefore, hstep⟩ := run_concat.1 hs
    obtain ⟨hd, he⟩ := Trail.allowsAll_concat.1 hd
    obtain ⟨paths, counted⟩ := ih hd hbefore
    have next := (follows_run hd hbefore).1.step_backEdges (Trail.consistent_empty.after hd) he
      (paths ▸ counted)
    have recorded := before.step_paths (c := c) e
    rw [hstep] at next recorded
    rw [Trail.after_concat, CodePath.ofEvents_concat, ← paths]
    exact ⟨recorded, next⟩

end Session

/-- The edges back that an analysis counts are those of the code paths of its walk. -/
theorem Subject.backEdges_analyze {c : Subject} {n : Node} {tracker : Tracker}
    (h : c.analyze n = .ok tracker) : tracker.stats.backEdges =
      ((CodePath.ofEvents n.events).map (·.loopedEdges.length)).sum := by
  obtain ⟨s, hs, rfl⟩ := exists_ok_of_map h
  obtain ⟨allowed, ended⟩ := n.events_allowed
  rw [(Session.run_backEdges allowed hs).2, Trail.total, ended]
  simp

end LostUpdate
