import LostUpdate.Proofs.Race.Dataflow
import LostUpdate.Proofs.Race.Operations
import LostUpdate.Proofs.Race.Waiting

namespace LostUpdate

namespace Enriched

variable {α β : Type} {P : α → Prop} {few more : List α}

theorem refl (l : List α) : Enriched P l l := by
  induction l with
  | nil => exact .nil
  | cons a l ih => exact ih.keep a

theorem append {few' more' : List α} (h : Enriched P few more) (h' : Enriched P few' more') :
    Enriched P (few ++ few') (more ++ more') := by
  induction h with
  | nil => exact h'
  | keep a _ ih => exact ih.keep a
  | add ha _ ih => exact ih.add ha

theorem concat_add (h : Enriched P few more) {a : α} (ha : P a) : Enriched P few (more ++ [a]) := by
  have added := h.append (Enriched.nil.add ha)
  rwa [List.append_nil] at added

theorem sublist (h : Enriched P few more) : few.Sublist more := by
  induction h with
  | nil => exact .slnil
  | keep a _ ih => exact ih.cons_cons a
  | add _ _ ih => exact ih.cons _

end Enriched

/-- The same program with other names that count as shared. -/
def Subject.sharing (c : Subject) (names : List String) : Subject := { c with shared := names }

namespace Subject

variable (c : Subject)

/-- `v` is what is reported of a reference, for the value that it stores. -/
def Reported (r : Reference) (v : Violation) : Prop :=
  ∃ value, c.scoping.tree.storedValue? r.toNameUse = some value ∧ Finding.report c value r = .ok v

/-- The variable of a reference counts as shared by its name only once `names` do. -/
def SharedBy (names : List String) (r : Reference) : Prop :=
  (c.scoping.tracked r).name ∈ names ∧ (c.scoping.tracked r).name ∉ c.shared

end Subject

/-- One more value has been checked. -/
def Stats.checkedOne (s : Stats) : Stats :=
  { s with checkedAssignments := s.checkedAssignments + 1 }

namespace Tracker

variable {c : Subject} {t u : Tracker} {names : List String}

/-- What is reported of a value is told by its place alone. -/
theorem report_congr {v w : Node} (h : v.id = w.id) (r : Reference) :
    Finding.report c v r = Finding.report c w r := by
  rw [Finding.report, Finding.report, h]

/-- A reference to a name without binding has been met, perhaps by another one at its place. -/
def Remembers (c : Subject) (t : Tracker) (r : Reference) : Prop :=
  ∀ name, c.scoping.tracked r = .unbound name →
    ∃ q ∈ t.unboundReferences name, q.identifier.id = r.identifier.id

theorem remembers_remember (r : Reference) : (t.remember c r).Remembers c r :=
  fun _ h => exists_remembered h

theorem Remembers.remember {r : Reference} (h : t.Remembers c r) (q : Reference) :
    (t.remember c q).Remembers c r := by
  intro name hname
  obtain ⟨known, hknown, same⟩ := h name hname
  refine ⟨known, ?_, same⟩
  unfold Tracker.remember
  split
  · exact hknown
  · dsimp only
    split_ifs
    · exact hknown
    · rw [unboundReferences_eq]
      split_ifs with here
      · exact List.mem_append_left _ (here ▸ hknown)
      · exact hknown

/-- A reference that has been met is nothing new. -/
theorem Remembers.remember_eq {r : Reference} (h : t.Remembers c r) : t.remember c r = t := by
  unfold Tracker.remember
  split
  · rfl
  · next name hname =>
    obtain ⟨known, hknown, same⟩ := h name hname
    have met : (t.unboundReferences name).any fun q => q.identifier.id = r.identifier.id :=
      List.any_eq_true.2 ⟨known, hknown, decide_eq_true same⟩
    dsimp only
    rw [if_pos met]

theorem remember_stats (r : Reference) : (t.remember c r).stats = t.stats := by
  unfold remember
  split
  · rfl
  · dsimp only
    split_ifs <;> rfl

theorem remember_unbound (h : u.unbound = t.unbound) (r : Reference) :
    (u.remember c r).unbound = (t.remember c r).unbound := by
  unfold remember
  split
  · exact h
  · next name _ =>
    have known : u.unboundReferences name = t.unboundReferences name := by
      rw [unboundReferences, h, unboundReferences]
    dsimp only
    rw [known, h]
    split_ifs
    · exact h
    · rfl

theorem await_stats (value : Node) (r : Reference) : (t.await value r).stats = t.stats := by
  unfold await
  split_ifs <;> rfl

theorem await_unbound (value : Node) (r : Reference) : (t.await value r).unbound = t.unbound := by
  unfold await
  split_ifs <;> rfl

theorem await_violations (value : Node) (r : Reference) :
    (t.await value r).violations = t.violations := by
  unfold await
  split_ifs <;> rfl

/-- What is known once a reference has been met and may count as read, before it waits. -/
def noted (c : Subject) (current : List SegmentId) (r : Reference) (t : Tracker) : Tracker :=
  if c.scoping.tree.countsAsRead r.toNameUse (c.scoping.tree.storedValue? r.toNameUse) then
    { t.remember c r with
      states := (t.remember c r).states.read current (c.scoping.tracked r) }
  else t.remember c r

/-- What is known once `n` may have suspended, before what waits for it is checked. -/
def suspended (c : Subject) (current : List SegmentId) (n : Node) (t : Tracker) : Tracker :=
  if c.scoping.tree.isSuspension n then
    { t with
      states := t.states.suspend current
      stats := { t.stats with suspensionPoints := t.stats.suspensionPoints + 1 } }
  else t

theorem remembers_noted (current : List SegmentId) (r : Reference) :
    (t.noted c current r).Remembers c r := by
  unfold noted
  split_ifs
  · exact remembers_remember r
  · exact remembers_remember r

section Cases

variable {current : List SegmentId} {r : Reference} {value n : Node}

theorem meet_of_none (h : c.scoping.tree.storedValue? r.toNameUse = none) :
    t.meet c current r = t.noted c current r := by
  simp only [meet, noted, h]

theorem meet_of_some (h : c.scoping.tree.storedValue? r.toNameUse = some value) :
    t.meet c current r =
      if c.scoping.tree.isAssignmentValue (some value) ∧
          !c.scoping.isConfined c.shared (c.scoping.tracked r)
            ((t.noted c current r).knownReferences c (c.scoping.tracked r))
            (c.scoping.tree.path r.toNameUse) then
        (t.noted c current r).await value r
      else t.noted c current r := by
  simp only [meet, noted, h]

theorem evaluated_of_none
    (h : ((t.suspended c current n).pending.find? fun e => e.1.id = n.id) = none) :
    t.evaluated c current n = (t.suspended c current n, none) := by
  unfold suspended at h
  simp only [evaluated, suspended, h]

theorem evaluated_of_some {e : Node × List Reference}
    (h : ((t.suspended c current n).pending.find? fun e => e.1.id = n.id) = some e) :
    t.evaluated c current n = check c current n e.2
      { t.suspended c current n with
        pending := (t.suspended c current n).pending.filter fun (v, _) => v.id ≠ n.id
        stats := (t.suspended c current n).stats.checkedOne } := by
  unfold suspended at h
  simp only [evaluated, suspended, Stats.checkedOne, h]

end Cases

/-- How the tracker of a run stands to that of a run which shares `names`, when both have taken in the
same events. More references may wait there, and more may have been reported, but only such whose
variables these names share. -/
structure Widens (c : Subject) (names : List String) (t u : Tracker) : Prop where
  states : u.states = t.states
  frames : u.frames = t.frames
  unbound : u.unbound = t.unbound
  stats : u.stats = { t.stats with checkedAssignments := u.stats.checkedAssignments }
  checked : t.stats.checkedAssignments ≤ u.stats.checkedAssignments
  waiting : ∀ i, Enriched (c.SharedBy names) (t.waiting i) (u.waiting i)
  stores : ∀ i, ∀ r ∈ u.waiting i,
    ∃ value, c.scoping.tree.storedValue? r.toNameUse = some value ∧ value.id = i
  remembered : ∀ i, ∀ r ∈ u.waiting i, u.Remembers c r
  pending : ∀ e ∈ t.pending, e.2 ≠ []
  reports : ∃ few more : List (Reference × Violation), t.violations = few.map (·.2) ∧
    u.violations = more.map (·.2) ∧ Enriched (fun e => c.SharedBy names e.1) few more ∧
      ∀ e ∈ more, c.Reported e.1 e.2

section Sharing

theorem scoping_sharing : (c.sharing names).scoping = c.scoping := rfl

theorem remember_sharing (r : Reference) : t.remember (c.sharing names) r = t.remember c r := rfl

theorem report_sharing (value : Node) (r : Reference) :
    Finding.report (c.sharing names) value r = Finding.report c value r := rfl

end Sharing

namespace Widens

theorem initial : Widens c names .initial .initial := by
  refine ⟨rfl, rfl, rfl, rfl, Nat.le_refl _, fun _ => .nil, ?_, ?_, ?_, [], [], rfl, rfl, .nil, ?_⟩
  all_goals simp [Tracker.initial, Tracker.waiting]

variable {r : Reference} (h : Widens c names t u)

include h

theorem moved {states states' : SegmentStates SegmentId Tracked} (hs : states' = states)
    {frames frames' : List Frame} (hf : frames' = frames) {a b : Stats}
    (stats : b = { a with checkedAssignments := b.checkedAssignments })
    (checked : a.checkedAssignments ≤ b.checkedAssignments) :
    Widens c names { t with states := states, frames := frames, stats := a }
      { u with states := states', frames := frames', stats := b } :=
  ⟨hs, hf, h.unbound, stats, checked, h.waiting, h.stores, h.remembered, h.pending, h.reports⟩

theorem remember (r : Reference) : Widens c names (t.remember c r) (u.remember c r) := by
  have waits (t : Tracker) (i : NodeId) : (t.remember c r).waiting i = t.waiting i :=
    waiting_of_pending (remember_pending c r t) i
  refine ⟨?_, ?_, remember_unbound h.unbound r, ?_, ?_, ?_, ?_, ?_, ?_, ?_⟩
  · rw [remember_states, remember_states, h.states]
  · rw [remember_frames, remember_frames, h.frames]
  · rw [remember_stats, remember_stats]
    exact h.stats
  · rw [remember_stats, remember_stats]
    exact h.checked
  · intro i
    rw [waits, waits]
    exact h.waiting i
  · intro i q hq
    rw [waits] at hq
    exact h.stores i q hq
  · intro i q hq
    rw [waits] at hq
    exact (h.remembered i q hq).remember r
  · rw [remember_pending]
    exact h.pending
  · rw [remember_violations, remember_violations]
    exact h.reports

theorem read (current : List SegmentId) (v : Tracked) :
    Widens c names { t with states := t.states.read current v }
      { u with states := u.states.read current v } :=
  h.moved (congrArg (·.read current v) h.states) h.frames h.stats h.checked

theorem unboundReferences (name : String) :
    u.unboundReferences name = t.unboundReferences name := by
  rw [Tracker.unboundReferences, h.unbound, Tracker.unboundReferences]

theorem remembers (hr : u.Remembers c r) : t.Remembers c r := by
  intro name hname
  rw [← h.unboundReferences]
  exact hr name hname

/-- A reference waits in the wider run, and in the other one too unless `names` alone share its
variable. -/
theorem await {value : Node} (hs : c.scoping.tree.storedValue? r.toNameUse = some value)
    (hr : u.Remembers c r) {after : Tracker}
    (ha : after = t.await value r ∨ (after = t ∧ c.SharedBy names r)) :
    Widens c names after (u.await value r) := by
  have remembers : ∀ q, u.Remembers c q → (u.await value r).Remembers c q := by
    intro q hq name hname
    rw [Tracker.unboundReferences, await_unbound]
    exact hq name hname
  have wait {i : NodeId} {q : Reference} (hq : q ∈ (u.await value r).waiting i) :
      q ∈ u.waiting i ∨ (q = r ∧ value.id = i) := by
    rw [waiting_await, List.mem_append] at hq
    split_ifs at hq with here
    · exact hq.imp_right fun hq => ⟨List.mem_singleton.1 hq, here⟩
    · exact .inl (hq.resolve_right List.not_mem_nil)
  have kept : after.states = t.states ∧ after.frames = t.frames ∧ after.unbound = t.unbound ∧
      after.stats = t.stats ∧ after.violations = t.violations := by
    rcases ha with rfl | ⟨rfl, -⟩
    · exact ⟨await_states .., await_frames .., await_unbound .., await_stats .., await_violations ..⟩
    · exact ⟨rfl, rfl, rfl, rfl, rfl⟩
  obtain ⟨states, frames, unbound, stats, violations⟩ := kept
  refine ⟨?_, ?_, ?_, ?_, ?_, fun i => ?_, fun i q hq => ?_, fun i q hq => ?_, ?_, ?_⟩
  · rw [await_states, states, h.states]
  · rw [await_frames, frames, h.frames]
  · rw [await_unbound, unbound, h.unbound]
  · rw [await_stats, stats]
    exact h.stats
  · rw [await_stats, stats]
    exact h.checked
  · rw [waiting_await]
    rcases ha with rfl | ⟨rfl, shared⟩
    · rw [waiting_await]
      exact (h.waiting i).append (.refl _)
    · split_ifs
      · exact (h.waiting i).concat_add shared
      · rw [List.append_nil]
        exact h.waiting i
  · rcases wait hq with hq | ⟨rfl, here⟩
    · exact h.stores i q hq
    · exact ⟨value, hs, here⟩
  · rcases wait hq with hq | ⟨rfl, -⟩
    · exact remembers q (h.remembered i q hq)
    · exact remembers q hr
  · rcases ha with rfl | ⟨rfl, -⟩
    · exact fun e he => (mem_pending_await he).elim (h.pending e) (·.2)
    · exact h.pending
  · rw [await_violations, violations]
    exact h.reports

theorem noted (current : List SegmentId) (r : Reference) :
    Widens c names (t.noted c current r) (u.noted c current r) := by
  unfold Tracker.noted
  split_ifs
  · exact (h.remember r).read current (c.scoping.tracked r)
  · exact h.remember r

/-- Meeting a name keeps what the runs have in common: it is confined to fewer of them. -/
theorem meet (hsub : c.shared ⊆ names) (current : List SegmentId) (r : Reference) :
    Widens c names (t.meet c current r) (u.meet (c.sharing names) current r) := by
  let v := c.scoping.tracked r
  let path := c.scoping.tree.path r.toNameUse
  have noted := h.noted current r
  have known : (u.noted c current r).knownReferences c v =
      (t.noted c current r).knownReferences c v := by
    cases v with
    | bound => rfl
    | unbound name => rw [knownReferences, knownReferences, noted.unboundReferences]
  cases hstored : c.scoping.tree.storedValue? r.toNameUse with
  | none =>
    rw [meet_of_none hstored, meet_of_none (c := c.sharing names) hstored]
    exact noted
  | some value =>
    rw [meet_of_some hstored, meet_of_some (c := c.sharing names) hstored]
    change Widens c names
      (if c.scoping.tree.isAssignmentValue (some value) ∧ !c.scoping.isConfined c.shared v
        ((t.noted c current r).knownReferences c v) path then (t.noted c current r).await value r
      else t.noted c current r)
      (if c.scoping.tree.isAssignmentValue (some value) ∧ !c.scoping.isConfined names v
        ((u.noted c current r).knownReferences c v) path then (u.noted c current r).await value r
      else u.noted c current r)
    rw [known]
    generalize (t.noted c current r).knownReferences c v = references
    have confined : c.scoping.isConfined names v references path = true →
        c.scoping.isConfined c.shared v references path = true := by
      intro h
      rw [Scoping.isConfined, Bool.and_eq_true, decide_eq_true_eq] at h ⊢
      exact ⟨fun hv => h.1 (hsub hv), h.2⟩
    have shared : c.scoping.isConfined names v references path = false →
        c.scoping.isConfined c.shared v references path = true → c.SharedBy names r := by
      intro hn hc
      rw [Scoping.isConfined, Bool.and_eq_true, decide_eq_true_eq] at hc
      rw [Scoping.isConfined, hc.2, Bool.and_true, decide_eq_false_iff_not, not_not] at hn
      exact ⟨hn, hc.1⟩
    have met : (u.noted c current r).Remembers c r := remembers_noted current r
    by_cases assigned : c.scoping.tree.isAssignmentValue (some value) = true
    · cases hn : c.scoping.isConfined names v references path with
      | true => simpa [confined hn] using noted
      | false =>
        cases hc : c.scoping.isConfined c.shared v references path with
        | true => simpa [assigned] using noted.await hstored met (.inr ⟨rfl, shared hn hc⟩)
        | false => simpa [assigned] using noted.await hstored met (.inl rfl)
    · simpa [assigned] using noted

/-- What the wider run reports is reported in the other one too, unless `names` alone share the
variable. -/
theorem reported {v : Violation} (hv : c.Reported r v) {after : Tracker}
    (ha : after = { t with violations := t.violations ++ [v] } ∨ (after = t ∧ c.SharedBy names r)) :
    Widens c names after { u with violations := u.violations ++ [v] } := by
  obtain ⟨few, more, hfew, hmore, enriched, each⟩ := h.reports
  have reports : ∃ few more : List (Reference × Violation), after.violations = few.map (·.2) ∧
      u.violations ++ [v] = more.map (·.2) ∧ Enriched (fun e => c.SharedBy names e.1) few more ∧
        ∀ e ∈ more, c.Reported e.1 e.2 := by
    have all : ∀ e ∈ more ++ [(r, v)], c.Reported e.1 e.2 := by
      intro e he
      rcases List.mem_append.1 he with he | he
      · exact each e he
      · obtain rfl := List.mem_singleton.1 he
        exact hv
    rcases ha with rfl | ⟨rfl, shared⟩
    · exact ⟨few ++ [(r, v)], more ++ [(r, v)], by simp [hfew], by simp [hmore],
        enriched.append (.refl _), all⟩
    · exact ⟨few, more ++ [(r, v)], hfew, by simp [hmore], enriched.concat_add shared, all⟩
  rcases ha with rfl | ⟨rfl, -⟩
  · exact ⟨h.states, h.frames, h.unbound, h.stats, h.checked, h.waiting, h.stores, h.remembered,
      h.pending, reports⟩
  · exact ⟨h.states, h.frames, h.unbound, h.stats, h.checked, h.waiting, h.stores, h.remembered,
      h.pending, reports⟩

/-- Checking a value for which more references wait reports what it reports for the fewer, and
further updates of variables that `names` share. -/
theorem check (current : List SegmentId) (value : Node) {few more : List Reference}
    (hw : Enriched (c.SharedBy names) few more)
    (hs : ∀ r ∈ more, ∃ w, c.scoping.tree.storedValue? r.toNameUse = some w ∧ w.id = value.id)
    (hr : ∀ r ∈ more, u.Remembers c r)
    (hok : (check (c.sharing names) current value more u).2 = none) :
    (Tracker.check c current value few t).2 = none ∧
      Widens c names (Tracker.check c current value few t).1
        (Tracker.check (c.sharing names) current value more u).1 := by
  induction hw generalizing t u with
  | nil => exact ⟨rfl, h⟩
  | @keep r few more _ ih =>
    have wide : u.remember c r = u := (hr r List.mem_cons_self).remember_eq
    have narrow : t.remember c r = t := (h.remembers (hr r List.mem_cons_self)).remember_eq
    obtain ⟨w, hstored, place⟩ := hs r List.mem_cons_self
    have later := fun q hq => hs q (List.mem_cons_of_mem r hq)
    have known := fun q hq => hr q (List.mem_cons_of_mem r hq)
    simp only [Tracker.check, narrow, remember_sharing, wide, scoping_sharing, report_eq,
      report_sharing] at hok ⊢
    by_cases outdated : u.states.isOutdated current (c.scoping.tracked r) = true
    · have same : t.states.isOutdated current (c.scoping.tracked r) = true := h.states ▸ outdated
      rw [if_pos outdated] at hok
      rw [if_pos outdated, if_pos same]
      cases found : Finding.report c value r with
      | error fault => simp [found] at hok
      | ok v =>
        have reported : c.Reported r v := ⟨w, hstored, (report_congr place r).trans found⟩
        simp only [found] at hok ⊢
        exact ih (h.reported reported (.inl rfl)) later known hok
    · have same : ¬ t.states.isOutdated current (c.scoping.tracked r) = true := h.states ▸ outdated
      rw [if_neg outdated] at hok
      rw [if_neg outdated, if_neg same]
      exact ih h later known hok
  | @add r shared few more _ ih =>
    have wide : u.remember c r = u := (hr r List.mem_cons_self).remember_eq
    obtain ⟨w, hstored, place⟩ := hs r List.mem_cons_self
    have later := fun q hq => hs q (List.mem_cons_of_mem r hq)
    have known := fun q hq => hr q (List.mem_cons_of_mem r hq)
    rw [Tracker.check] at hok
    rw [Tracker.check]
    simp only [remember_sharing, wide, scoping_sharing, report_eq, report_sharing] at hok ⊢
    by_cases outdated : u.states.isOutdated current (c.scoping.tracked r) = true
    · rw [if_pos outdated] at hok
      rw [if_pos outdated]
      cases found : Finding.report c value r with
      | error fault => simp [found] at hok
      | ok v =>
        have reported : c.Reported r v := ⟨w, hstored, (report_congr place r).trans found⟩
        simp only [found] at hok ⊢
        exact ih (h.reported reported (.inr ⟨rfl, shared⟩)) later known hok
    · rw [if_neg outdated] at hok
      rw [if_neg outdated]
      exact ih h later known hok

theorem suspended (current : List SegmentId) (n : Node) :
    Widens c names (t.suspended c current n) (u.suspended c current n) := by
  unfold Tracker.suspended
  split_ifs
  · refine h.moved ?_ h.frames ?_ h.checked
    · rw [h.states]
    · rw [h.stats]
  · exact h

theorem taken (i : NodeId) {a b : Stats}
    (stats : b = { a with checkedAssignments := b.checkedAssignments })
    (checked : a.checkedAssignments ≤ b.checkedAssignments) : Widens c names
      { t with pending := t.pending.filter fun (v, _) => v.id ≠ i, stats := a }
      { u with pending := u.pending.filter fun (v, _) => v.id ≠ i, stats := b } := by
  have kept {j : NodeId} {q : Reference} (hq : q ∈ Tracker.waiting
      { u with pending := u.pending.filter fun (v, _) => v.id ≠ i, stats := b } j) :
      q ∈ u.waiting j := by
    by_cases hj : j = i
    · subst hj
      rw [waiting_filter_self u rfl] at hq
      exact absurd hq List.not_mem_nil
    · rwa [waiting_filter u b hj] at hq
  refine ⟨h.states, h.frames, h.unbound, stats, checked, fun j => ?_, fun j q hq => ?_,
    fun j q hq => ?_, fun e he => ?_, h.reports⟩
  · by_cases hj : j = i
    · subst hj
      rw [waiting_filter_self t rfl, waiting_filter_self u rfl]
      exact .nil
    · rw [waiting_filter t a hj, waiting_filter u b hj]
      exact h.waiting j
  · exact h.stores j q (kept hq)
  · exact h.remembered j q (kept hq)
  · exact h.pending e (List.mem_filter.1 he).1

/-- The end of an evaluation. A value for which references wait in the wider run alone is checked
there alone. -/
theorem evaluated (current : List SegmentId) (n : Node)
    (hok : (u.evaluated (c.sharing names) current n).2 = none) :
    (t.evaluated c current n).2 = none ∧
      Widens c names (t.evaluated c current n).1 (u.evaluated (c.sharing names) current n).1 := by
  have both := h.suspended current n
  have waits (t : Tracker) : t.waiting n.id =
      ((t.pending.find? fun e => e.1.id = n.id).map (·.2)).getD [] := rfl
  have enriched := both.waiting n.id
  cases hu : (u.suspended c current n).pending.find? fun e => e.1.id = n.id with
  | none =>
    rw [evaluated_of_none (c := c.sharing names) hu]
    cases ht : (t.suspended c current n).pending.find? fun e => e.1.id = n.id with
    | none =>
      rw [evaluated_of_none ht]
      exact ⟨rfl, both⟩
    | some e =>
      rw [waits, ht, waits, hu] at enriched
      have none_waits := List.sublist_nil.1 enriched.sublist
      exact absurd none_waits (both.pending e (List.mem_of_find?_eq_some ht))
  | some e =>
    have all : (u.suspended c current n).waiting n.id = e.2 := by rw [waits, hu]; rfl
    have stores := both.stores n.id
    have remembered := both.remembered n.id
    rw [all] at enriched stores remembered
    rw [evaluated_of_some (c := c.sharing names) hu] at hok ⊢
    cases ht : (t.suspended c current n).pending.find? fun e => e.1.id = n.id with
    | none =>
      have untouched : (t.suspended c current n).pending.filter (fun (v, _) => v.id ≠ n.id) =
          (t.suspended c current n).pending := by
        rw [List.filter_eq_self]
        intro e he
        simpa using List.find?_eq_none.1 ht e he
      rw [waits, ht] at enriched
      rw [evaluated_of_none ht]
      have taken := both.taken n.id (a := (t.suspended c current n).stats)
        (b := (u.suspended c current n).stats.checkedOne) (by rw [both.stats]; rfl)
        (Nat.le_succ_of_le both.checked)
      rw [untouched] at taken
      exact taken.check current n enriched stores remembered hok
    | some e =>
      rw [waits, ht] at enriched
      rw [evaluated_of_some ht]
      have taken := both.taken n.id (a := (t.suspended c current n).stats.checkedOne)
        (b := (u.suspended c current n).stats.checkedOne) (by rw [both.stats]; rfl)
        (Nat.succ_le_succ both.checked)
      exact taken.check current n enriched stores remembered hok

omit h in
theorem exit (h : Widens c names t u) (current : List SegmentId) (n : Node)
    (hok : (u.exit (c.sharing names) current n).2 = none) : (t.exit c current n).2 = none ∧
      Widens c names (t.exit c current n).1 (u.exit (c.sharing names) current n).1 := by
  have references : u.references = t.references := by
    rw [references, h.frames, references]
  unfold Tracker.exit at hok ⊢
  rw [references] at hok ⊢
  split_ifs at hok ⊢
  · exact h.evaluated current n hok
  · exact ⟨rfl, h⟩

omit h in
theorem enter (h : Widens c names t u) (hsub : c.shared ⊆ names) (current : List SegmentId)
    (n : Node) :
    Widens c names (t.enter c current n) (u.enter (c.sharing names) current n) := by
  have references : u.references = t.references := by
    rw [references, h.frames, references]
  unfold Tracker.enter
  rw [references]
  split
  · split
    · exact h.meet hsub current _
    · exact h
  · exact h

theorem startPath (path : Nat) (owner : Node) :
    Widens c names (t.startPath c path owner) (u.startPath (c.sharing names) path owner) := by
  refine h.moved h.states ?_ ?_ h.checked
  · rw [h.frames]
    rfl
  · rw [h.stats]
    rfl

omit h in
theorem startSegment (h : Widens c names t u) (s : Segment) (hok : (u.startSegment s).2 = none) :
    (t.startSegment s).2 = none ∧ Widens c names (t.startSegment s).1 (u.startSegment s).1 := by
  unfold Tracker.startSegment at hok ⊢
  rw [h.frames] at hok ⊢
  split_ifs at hok ⊢
  refine ⟨rfl, h.moved ?_ rfl ?_ h.checked⟩
  · rw [h.states]
  · rw [h.stats]

omit h in
theorem endPath (h : Widens c names t u) (path : Nat) (graph : CodePath)
    (hok : (u.endPath path graph).2 = none) : (t.endPath path graph).2 = none ∧
      Widens c names (t.endPath path graph).1 (u.endPath path graph).1 := by
  unfold Tracker.endPath at hok ⊢
  rw [h.frames] at hok ⊢
  cases hframes : t.frames with
  | nil => simp [hframes] at hok
  | cons frame rest =>
    simp only [hframes] at hok ⊢
    split_ifs at hok ⊢
    cases htraverse : graph.traverse with
    | error fault => simp [htraverse] at hok
    | ok segments =>
      refine ⟨rfl, h.moved h.states rfl ?_ ?_⟩
      · rw [h.stats]
      · exact h.checked

end Widens

end Tracker

namespace Session

variable {c : Subject} {names : List String} {s w : Session}

/-- Two runs that have taken in the same events, the second with `names` shared. -/
structure Widens (c : Subject) (names : List String) (s w : Session) : Prop where
  paths : w.paths = s.paths
  tracker : s.tracker.Widens c names w.tracker

namespace Widens

theorem initial : Session.initial.Widens c names .initial := ⟨rfl, .initial⟩

theorem current (h : s.Widens c names w) : w.current = s.current := by
  rw [Session.current, Session.current, innermost?, innermost?, h.paths, h.tracker.frames]

/-- One event keeps the runs together, as long as the wider one shows no fault. -/
theorem step (h : s.Widens c names w) (hsub : c.shared ⊆ names) (e : Event)
    (hok : (w.step (c.sharing names) e).2 = none) :
    (s.step c e).2 = none ∧ (s.step c e).1.Widens c names (w.step (c.sharing names) e).1 := by
  have paths : CodePath.record w.paths e = CodePath.record s.paths e := by rw [h.paths]
  let s' : Session := { s with paths := CodePath.record s.paths e }
  let w' : Session := { w with paths := CodePath.record w.paths e }
  have after : s'.Widens c names w' := ⟨paths, h.tracker⟩
  cases e with
  | pathStart id owner upper =>
    have place : w'.place id = s'.place id := by rw [Session.place, Session.place, after.paths]
    change none = none ∧ (s'.startPath c (s'.place id)).Widens c names
      (w'.startPath (c.sharing names) (w'.place id))
    rw [place, Session.startPath, Session.startPath, after.paths]
    cases s'.paths[s'.place id]? with
    | none => exact ⟨rfl, after⟩
    | some p => exact ⟨rfl, rfl, h.tracker.startPath _ p.owner⟩
  | segment seg =>
    have started := h.tracker.startSegment seg hok
    exact ⟨started.1, after.paths, started.2⟩
  | backEdge source target => exact ⟨rfl, after⟩
  | enter n =>
    change none = none ∧ (s'.enter c n).Widens c names (w'.enter (c.sharing names) n)
    rw [Session.enter, Session.enter, after.current]
    exact ⟨rfl, after.paths, h.tracker.enter hsub s'.current n⟩
  | exit n =>
    change (w'.exit (c.sharing names) n).2 = none at hok
    change (s'.exit c n).2 = none ∧ (s'.exit c n).1.Widens c names (w'.exit (c.sharing names) n).1
    rw [Session.exit, after.current] at hok
    rw [Session.exit, Session.exit, after.current]
    have left := h.tracker.exit s'.current n hok
    exact ⟨left.1, after.paths, left.2⟩
  | pathEnd id owner returned thrown =>
    have place : w'.place id = s'.place id := by rw [Session.place, Session.place, after.paths]
    change (w'.endPath (w'.place id)).2 = none at hok
    change (s'.endPath (s'.place id)).2 = none ∧
      (s'.endPath (s'.place id)).1.Widens c names (w'.endPath (w'.place id)).1
    rw [place, Session.endPath, after.paths] at hok
    rw [place, Session.endPath, Session.endPath, after.paths]
    cases hp : s'.paths[s'.place id]? with
    | none => exact ⟨rfl, after⟩
    | some p =>
      simp only [hp, withTracker] at hok ⊢
      have ended := h.tracker.endPath (s'.place id) p hok
      exact ⟨ended.1, after.paths, ended.2⟩

/-- A run without a fault that shares more names has one beside it that shares fewer. -/
theorem run (h : s.Widens c names w) (hsub : c.shared ⊆ names) {events : List Event} {last : Session}
    (hrun : w.run (c.sharing names) events = .ok last) :
    ∃ first, s.run c events = .ok first ∧ first.Widens c names last := by
  induction events using List.reverseRecOn generalizing last with
  | nil =>
    obtain rfl : w = last := Except.ok.inj hrun
    exact ⟨s, rfl, h⟩
  | append_singleton events e ih =>
    obtain ⟨wide, hwide, hstep⟩ := Session.run_concat.1 hrun
    obtain ⟨narrow, hnarrow, both⟩ := ih hwide
    obtain ⟨quiet, next⟩ := both.step hsub e (by rw [hstep])
    rw [hstep] at next
    exact ⟨_, Session.run_concat.2 ⟨narrow, hnarrow, Prod.ext rfl quiet⟩, next⟩

end Widens

end Session

/-- Sharing more names only adds reports. Where the analysis that shares `names` comes to an end, that
which shares fewer of them does too. Both count the same, but that fewer values may have been checked.
What is reported is reported with `names` too, in this order; whatever has been added there is
reported of a reference whose variable has one of these names and none of those shared before. -/
theorem Subject.analyze_sharing {c : Subject} {names : List String} (hsub : c.shared ⊆ names)
    {n : Node} {wide : Tracker} (h : (c.sharing names).analyze n = .ok wide) :
    ∃ narrow, c.analyze n = .ok narrow ∧
      narrow.violations.Sublist wide.violations ∧
      (∃ few more : List (Reference × Violation), narrow.violations = few.map (·.2) ∧
        wide.violations = more.map (·.2) ∧
          Enriched (fun e => (c.scoping.tracked e.1).name ∈ names ∧
            (c.scoping.tracked e.1).name ∉ c.shared) few more ∧
          ∀ e ∈ more, c.Reported e.1 e.2) ∧
      narrow.stats.checkedAssignments ≤ wide.stats.checkedAssignments ∧
      wide.stats = { narrow.stats with checkedAssignments := wide.stats.checkedAssignments } := by
  obtain ⟨last, hrun, rfl⟩ := exists_ok_of_map h
  obtain ⟨first, hfirst, -, both⟩ := Session.Widens.initial.run hsub hrun
  obtain ⟨few, more, hfew, hmore, enriched, reported⟩ := both.reports
  have sublist : first.tracker.violations.Sublist last.tracker.violations := by
    rw [hfew, hmore]
    exact enriched.sublist.map _
  refine ⟨first.tracker, ?_, sublist, ⟨few, more, hfew, hmore, enriched, reported⟩, both.checked,
    both.stats⟩
  rw [analyze, hfirst]
  rfl

namespace Tally

def sum : Node :=
  .mk 7 none (.binary
    (.mk 8 none (.binary (.mk 9 none (.name "total" .load)) .add (.mk 10 none (.name "own" .load))))
    .add (.mk 11 none (.await (.mk 12 none (.name "step" .load)))))

def function : Node :=
  .mk 1 none (.function true "tally" (.mk 2 none (.parameterList ⟨[], [], none, [], [], none, []⟩))
    [.mk 3 none (.globalDecl ["total"]),
      .mk 4 none (.assign [.mk 5 none (.name "own" .store), .mk 6 none (.name "total" .store)] sum)]
    [] none)

/-- A coroutine that stores what it awaits in a variable of its own, and in a global counter:

    async def tally():
        global total
        own = total = total + own + await step
-/
def root : Node := .mk 0 none (.module [function])

def tree : Tree := ⟨root, root.edges, rfl, pairwise_of_strictlyAscending (by cbv)⟩

def subject : Subject := ⟨((Scoping.ofTree tree).toOption).getD ⟨tree, []⟩, none, []⟩

end Tally

/-- Once the name of the variable is shared, its update is reported before that of the counter, for
the one value that both store. -/
theorem Subject.analyze_sharing_tally : Tally.subject.shared ⊆ ["own"] ∧ ∃ narrow wide,
    Tally.subject.analyze Tally.root = .ok narrow ∧
      (Tally.subject.sharing ["own"]).analyze Tally.root = .ok wide ∧
        narrow.violations.map (·.target) = ["total"] ∧
          wide.violations.map (·.target) = ["own", "total"] ∧
            narrow.violations.Sublist wide.violations ∧
              wide.stats = { narrow.stats with
                checkedAssignments := wide.stats.checkedAssignments } := by
  have hsub : Tally.subject.shared ⊆ ["own"] := List.nil_subset _
  have more : ((Tally.subject.sharing ["own"]).analyze Tally.root).map
      (fun t => t.violations.map (·.target)) = .ok ["own", "total"] := by cbv
  have few : (Tally.subject.analyze Tally.root).map
      (fun t => t.violations.map (·.target)) = .ok ["total"] := by cbv
  obtain ⟨wide, hwide, targets⟩ := exists_ok_of_map more
  obtain ⟨narrow, hnarrow, sublist, -, -, stats⟩ := Subject.analyze_sharing hsub hwide
  obtain ⟨same, hsame, target⟩ := exists_ok_of_map few
  obtain rfl : narrow = same := Except.ok.inj (hnarrow.symm.trans hsame)
  exact ⟨hsub, narrow, wide, hnarrow, hwide, target, targets, sublist, stats⟩

end LostUpdate
