import LostUpdate.Proofs.Race.Finding
import LostUpdate.Proofs.Race.Following
import LostUpdate.Proofs.Scope.Nesting

namespace LostUpdate

/-- What counts in the code of a function belongs to a resumable function, and is followed there by
the references of the function's scope. -/
theorem Tracker.followed_eq_some {c : Subject} {owner : Node} {references : List Reference}
    (h : followed c owner = some references) :
    owner.isResumable = true ∧ ∃ s, c.scoping.opened? owner.id = some s ∧
      c.scoping.kind? s = some .function ∧ references = c.scoping.codeReferences s := by
  unfold followed at h
  split at h
  · next s hs =>
    split_ifs at h with hk
    exact ⟨hk.2, s, hs, hk.1, (Option.some.inj h).symm⟩
  · simp at h

theorem Node.isFunctionLike_of_isResumable {n : Node} (h : n.isResumable = true) :
    n.isFunctionLike = true := by
  cases hform : n.form
  case comprehension collector elements clauses =>
    cases collector <;> simp_all [isResumable, isFunctionLike, Form.isFunctionLike]
  all_goals simp_all [isResumable, isFunctionLike, Form.isFunctionLike]

/-- A reference that is followed stands in the code of a function. -/
theorem Tracker.mem_followed {c : Subject} {o : Outline} (ho : c.scoping.Outlined o) {owner : Node}
    {references : List Reference} (h : followed c owner = some references) {r : Reference}
    (hr : r ∈ references) : r ∈ c.scoping.references ∧ c.scoping.variableScope r.scope ≠ 0 := by
  obtain ⟨-, s, -, hk, rfl⟩ := followed_eq_some h
  obtain ⟨hr, hs⟩ := (ho.mem_codeReferences hk).1 hr
  refine ⟨hr, fun hzero => ?_⟩
  rw [← hs, hzero, ho.kind?_zero] at hk
  simp at hk

namespace Tracker

/-- The references that wait for the value with the identity `i`. -/
def waiting (t : Tracker) (i : NodeId) : List Reference :=
  ((t.pending.find? fun (v, _) => v.id = i).map (·.2)).getD []

/-- The references to names without binding are to these names, and stand in functions. -/
def KeepsApart (c : Subject) (t : Tracker) : Prop :=
  ∀ name, ∀ u ∈ t.unboundReferences name, u.name = name ∧ c.scoping.variableScope u.scope ≠ 0

theorem keepsApart_of_unbound {c : Subject} {t u : Tracker} (h : t.KeepsApart c)
    (hu : u.unbound = t.unbound) : u.KeepsApart c := by
  intro name r hr
  refine h name r ?_
  rwa [unboundReferences, hu] at hr

theorem unboundReferences_eq (t : Tracker) (name : String) (references : List Reference)
    (other : String) :
    unboundReferences { t with unbound := (name, references) :: t.unbound.filter (·.1 ≠ name) }
      other = if other = name then references else t.unboundReferences other := by
  by_cases h : other = name
  · simp [unboundReferences, h]
  · have h' : ¬ name = other := fun e => h e.symm
    simp only [unboundReferences, List.find?_cons, h', decide_false, if_neg h, List.find?_filter]
    congr 3
    funext e
    by_cases he : e.1 = other
    · simp [he, h]
    · simp [he]

section Remember

variable (c : Subject) (r : Reference) (t : Tracker)

@[simp] theorem remember_pending : (t.remember c r).pending = t.pending := by
  unfold remember
  split
  · rfl
  · dsimp only
    split_ifs <;> rfl

@[simp] theorem remember_violations : (t.remember c r).violations = t.violations := by
  unfold remember
  split
  · rfl
  · dsimp only
    split_ifs <;> rfl

end Remember

theorem tracked_eq_unbound {m : Scoping} {r : Reference} {name : String}
    (h : m.tracked r = .unbound name) : m.resolve r = none ∧ r.name = name := by
  unfold Scoping.tracked at h
  split at h
  · simp at h
  · next hresolve => exact ⟨hresolve, by simpa using h⟩

theorem tracked_eq_bound {m : Scoping} {r : Reference} {s : ScopeId} {name : String}
    (h : m.tracked r = .bound s name) : m.resolve r = some s ∧ r.name = name := by
  unfold Scoping.tracked at h
  split at h
  · next s' hresolve =>
    obtain ⟨rfl, rfl⟩ := by simpa using h
    exact ⟨hresolve, rfl⟩
  · simp at h

theorem KeepsApart.remember {c : Subject} {t : Tracker} (h : t.KeepsApart c) {r : Reference}
    (hr : c.scoping.variableScope r.scope ≠ 0) : (t.remember c r).KeepsApart c := by
  unfold Tracker.remember
  split
  · exact h
  · next name hv =>
    dsimp only
    split_ifs
    · exact h
    · intro other u hu
      rw [unboundReferences_eq] at hu
      split_ifs at hu with same
      · subst same
        rcases List.mem_append.1 hu with hu | hu
        · exact h other u hu
        · obtain rfl := List.mem_singleton.1 hu
          exact ⟨(tracked_eq_unbound hv).2, hr⟩
      · exact h other u hu

/-- A reference that is remembered is known to its variable, perhaps by another one at its place. -/
theorem exists_remembered {c : Subject} {t : Tracker} {r : Reference} {name : String}
    (h : c.scoping.tracked r = .unbound name) :
    ∃ u ∈ (t.remember c r).unboundReferences name, u.identifier.id = r.identifier.id := by
  unfold Tracker.remember
  rw [h]
  dsimp only
  split_ifs with known
  · simpa using known
  · refine ⟨r, ?_, rfl⟩
    rw [unboundReferences_eq, if_pos rfl]
    simp

/-- A variable counts as confined when no other code can reach it. -/
theorem isConfined_eq_false_iff {c : Subject} {t : Tracker} (h : t.KeepsApart c) {r : Reference}
    (hr : c.scoping.variableScope r.scope ≠ 0) {o : Outline} (ho : c.scoping.Outlined o) :
    c.scoping.isConfined c.shared (c.scoping.tracked r)
      ((t.remember c r).knownReferences c (c.scoping.tracked r))
      (c.scoping.tree.path r.toNameUse) = false ↔ c.Escapes r := by
  cases hv : c.scoping.tracked r with
  | bound s name =>
    obtain ⟨hresolve, rfl⟩ := tracked_eq_bound hv
    change (decide (r.name ∉ c.shared) && (c.scoping.referencesTo s r.name).all fun u =>
      decide (c.scoping.tree.path u.toNameUse ≠ c.scoping.tree.path r.toNameUse) ||
        decide (c.scoping.variableScope u.scope = c.scoping.variableScope s)) = false ↔ _
    rw [Bool.and_eq_false_iff, Subject.Escapes, hresolve]
    simp [List.all_eq_false]
  | unbound name =>
    obtain ⟨hresolve, rfl⟩ := tracked_eq_unbound hv
    have apart := h.remember hr
    obtain ⟨u, hu, hid⟩ := exists_remembered (t := t) hv
    obtain ⟨hname, hscope⟩ := apart r.name u hu
    have path : c.scoping.tree.path u.toNameUse = c.scoping.tree.path r.toNameUse := by
      rw [Tree.path, Tree.path, hname, hid]
    refine iff_of_true ?_ (.inl hresolve)
    rw [Scoping.isConfined, Bool.and_eq_false_iff]
    right
    rw [List.all_eq_false]
    refine ⟨u, hu, ?_⟩
    simp [path, Tracked.owner, ho.variableScope_zero, hscope]

theorem waiting_of_pending {t u : Tracker} (h : u.pending = t.pending) (i : NodeId) :
    u.waiting i = t.waiting i := by
  rw [waiting, h, waiting]

theorem waiting_await (value : Node) (r : Reference) (t : Tracker) (i : NodeId) :
    (t.await value r).waiting i = t.waiting i ++ if value.id = i then [r] else [] := by
  let add : Node × List Reference → Node × List Reference := fun (v, waiting) =>
    if v.id = value.id then (v, waiting ++ [r]) else (v, waiting)
  have keys : (fun e : Node × List Reference => decide (e.1.id = i)) ∘ add =
      fun e => decide (e.1.id = i) := by
    funext e
    simp only [Function.comp, add]
    split_ifs <;> rfl
  unfold await
  split_ifs with known here here
  · have found : (t.pending.find? fun e => e.1.id = i).isSome := by
      rw [List.find?_isSome]
      simpa [here] using known
    obtain ⟨⟨v, l⟩, hfind⟩ := Option.isSome_iff_exists.1 found
    have hv : v.id = i := by simpa using List.find?_some hfind
    change ((((t.pending.map add).find? fun e => e.1.id = i).map (·.2)).getD []) = _
    rw [List.find?_map, keys, waiting, hfind]
    simp [add, hv, here]
  · change ((((t.pending.map add).find? fun e => e.1.id = i).map (·.2)).getD []) = _
    rw [List.find?_map, keys, waiting]
    cases hfind : t.pending.find? fun e => e.1.id = i with
    | none => simp
    | some e =>
      have hv : e.1.id = i := by simpa using List.find?_some hfind
      have other : ¬ e.1.id = value.id := fun same => here (same ▸ hv)
      simp [add, other]
  · have missing : (t.pending.find? fun e => e.1.id = i) = none := by
      rw [List.find?_eq_none]
      simpa [here] using known
    simp [waiting, List.find?_append, missing, here]
  · simp [waiting, List.find?_append, here]

/-- Who waits in the table after one more does waited there before, but for that one. -/
theorem mem_pending_await {t : Tracker} {value : Node} {r : Reference}
    {w : Node × List Reference} (h : w ∈ (t.await value r).pending) :
    w ∈ t.pending ∨ w.1.id = value.id ∧ w.2 ≠ [] := by
  unfold await at h
  split_ifs at h with known
  · obtain ⟨w', hw', rfl⟩ := List.mem_map.1 h
    dsimp only
    split_ifs with hid
    · exact .inr ⟨hid, by simp⟩
    · exact .inl hw'
  · rcases List.mem_append.1 h with h | h
    · exact .inl h
    · obtain rfl := List.mem_singleton.1 h
      exact .inr ⟨rfl, by simp⟩

end Tracker

/-- Climbing from a value finds whether it is the value of an update. -/
theorem Tree.isAssignmentValue_iff {t : Tree} {v : Node} (hv : v ∈ t.nodes) :
    t.isAssignmentValue (some v) = true ↔ ∃ p ∈ t.nodes, p.Updates v := by
  constructor
  · intro h
    unfold isAssignmentValue at h
    cases hp : t.parent? v.id with
    | none => simp [hp] at h
    | some p =>
      obtain ⟨hmem, hchild⟩ := (parent?_eq_some_iff hv).1 hp
      have here {w : Node} (hw : p.assignedValue? = some w) (hid : w.id = v.id) :
          p.assignedValue? = some v := by
        have mem := mem_nodes_of_mem_children hmem (Node.mem_children_of_assignedValue? hw)
        rwa [eq_of_id_eq mem hv hid] at hw
      refine ⟨p, hmem, ?_⟩
      cases hform : p.form <;> simp only [hp, hform, Option.map_some, Bool.false_eq_true] at h
      case assign targets w =>
        exact ⟨here (w := w) (by simp [Node.assignedValue?, hform]) (by simpa using h), by simp [hform]⟩
      case augmented target op w =>
        exact ⟨here (w := w) (by simp [Node.assignedValue?, hform]) (by simpa using h), by simp [hform]⟩
      case walrus target w =>
        exact ⟨here (w := w) (by simp [Node.assignedValue?, hform]) (by simpa using h), by simp [hform]⟩
      case annotated target hint value simple =>
        cases value with
        | none => simp at h
        | some w =>
          simp only [Bool.and_eq_true, decide_eq_true_eq] at h
          refine ⟨here (w := w) (by simp [Node.assignedValue?, hform]) h.1, ?_⟩
          intro target' hint' value' simple' heq name context hname
          obtain ⟨rfl, -⟩ := by simpa [hform] using heq
          simp [hname] at h
  · rintro ⟨p, hmem, hvalue, hbare⟩
    have hp := parent?_of_mem hmem (Node.mem_children_of_assignedValue? hvalue)
    simp only [isAssignmentValue, hp, Option.map_some]
    cases hform : p.form <;> simp_all [Node.assignedValue?]

namespace Tracker

variable {c : Subject} {o : Outline} {t : Tracker}

/-- The value that a reference stores is a node of the program. -/
theorem mem_nodes_of_stores (ho : c.scoping.Outlined o) {r : Reference}
    (hr : r ∈ c.scoping.references) {value : Node}
    (h : c.scoping.tree.storedValue? r.toNameUse = some value) : value ∈ c.scoping.tree.nodes := by
  obtain ⟨p, hp, hs⟩ := Tree.stores_of_storedValue? (ho.mentions hr) h
  exact Tree.mem_nodes_of_mem_children hp (Node.mem_children_of_assignedValue? hs.1)

/-- A name that is met waits for the value it stores, if other code can reach its variable. -/
theorem meet_spec (ho : c.scoping.Outlined o) (h : t.KeepsApart c) {m : Meeting}
    (hr : m.reference ∈ c.scoping.references)
    (hscope : c.scoping.variableScope m.reference.scope ≠ 0) (current : List SegmentId) :
    (t.meet c current m.reference).violations = t.violations ∧
    (t.meet c current m.reference).KeepsApart c ∧
    ∀ value ∈ c.scoping.tree.nodes,
      (m.WaitsFor c value → (t.meet c current m.reference).waiting value.id =
        t.waiting value.id ++ [m.reference]) ∧
      (¬ m.WaitsFor c value → (t.meet c current m.reference).waiting value.id =
        t.waiting value.id) := by
  have confined := isConfined_eq_false_iff h hscope ho
  have apart := h.remember hscope
  unfold meet
  dsimp only
  generalize hread : (if c.scoping.tree.countsAsRead m.reference.toNameUse
    (c.scoping.tree.storedValue? m.reference.toNameUse) = true then _ else
      t.remember c m.reference) = read
  have unbound : read.unbound = (t.remember c m.reference).unbound := by
    rw [← hread]
    split_ifs <;> rfl
  have pending : read.pending = t.pending := by
    rw [← hread]
    split_ifs <;> simp
  have violations : read.violations = t.violations := by
    rw [← hread]
    split_ifs <;> simp
  have known : read.knownReferences c (c.scoping.tracked m.reference) =
      (t.remember c m.reference).knownReferences c (c.scoping.tracked m.reference) := by
    cases c.scoping.tracked m.reference <;> simp [knownReferences, unboundReferences, unbound]
  rw [known]
  have unchanged : read.violations = t.violations ∧ read.KeepsApart c ∧
      ∀ i, read.waiting i = t.waiting i :=
    ⟨violations, keepsApart_of_unbound apart unbound, waiting_of_pending pending⟩
  cases hstored : c.scoping.tree.storedValue? m.reference.toNameUse with
  | none =>
    refine ⟨unchanged.1, unchanged.2.1, fun value _ => ⟨fun hw => ?_, fun _ => unchanged.2.2 _⟩⟩
    simp [hw.stores] at hstored
  | some stored =>
    have hmem := mem_nodes_of_stores ho hr hstored
    dsimp only
    split_ifs with waits
    · rw [Tree.isAssignmentValue_iff hmem, Bool.not_eq_true', confined] at waits
      refine ⟨?_, ?_, fun value hvalue => ⟨fun hw => ?_, fun hw => ?_⟩⟩
      · rw [← violations]
        unfold await
        split_ifs <;> rfl
      · refine keepsApart_of_unbound unchanged.2.1 ?_
        unfold await
        split_ifs <;> rfl
      · obtain rfl : stored = value := Option.some.inj (hstored.symm.trans hw.stores)
        rw [waiting_await, if_pos rfl, unchanged.2.2]
      · have other : stored.id ≠ value.id := fun same => by
          obtain rfl := Tree.eq_of_id_eq hmem hvalue same
          exact hw ⟨hstored, waits.1, waits.2⟩
        rw [waiting_await, if_neg other, List.append_nil, unchanged.2.2]
    · refine ⟨unchanged.1, unchanged.2.1, fun value _ => ⟨fun hw => ?_, fun _ => unchanged.2.2 _⟩⟩
      obtain rfl : stored = value := Option.some.inj (hstored.symm.trans hw.stores)
      refine absurd ⟨?_, ?_⟩ waits
      · exact (Tree.isAssignmentValue_iff hmem).2 hw.updates
      · simpa using confined.2 hw.escapes

/-- What is found is reported behind `before`, and what fails is the fault. -/
def Reports (before : List Violation) (outcome : Tracker × Option Fault) :
    Except Fault (List Violation) → Prop
  | .ok found => outcome.2 = none ∧ outcome.1.violations = before ++ found
  | .error fault => outcome.2 = some fault

theorem report_eq (r : Reference) (value : Node) (t : Tracker) : t.report c r value =
    match Finding.report c value r with
    | .ok v => ({ t with violations := t.violations ++ [v] }, none)
    | .error fault => (t, some fault) := by
  unfold report Finding.report
  cases c.scoping.tree.parent? value.id with
  | none => rfl
  | some assignment =>
    dsimp only
    cases c.scoping.tree.targetIn? r.toNameUse assignment.id with
    | none => rfl
    | some target =>
      dsimp only
      cases targetText c target with
      | error fault => rfl
      | ok text => cases assignment.span <;> rfl

section Check

variable (current : List SegmentId) (value : Node) {waiting : List Reference}

theorem check_pending : (check c current value waiting t).1.pending = t.pending := by
  induction waiting generalizing t with
  | nil => rfl
  | cons r waiting ih =>
    simp only [check, report_eq]
    cases Finding.report c value r <;> dsimp only <;> split_ifs <;> simp [ih]

theorem check_keepsApart (hw : ∀ r ∈ waiting, c.scoping.variableScope r.scope ≠ 0)
    (h : t.KeepsApart c) : (check c current value waiting t).1.KeepsApart c := by
  induction waiting generalizing t with
  | nil => exact h
  | cons r waiting ih =>
    have apart := h.remember (hw r List.mem_cons_self)
    have later := fun s hs => hw s (List.mem_cons_of_mem _ hs)
    simp only [check, report_eq]
    split_ifs
    · cases Finding.report c value r with
      | error fault => exact apart
      | ok v => exact ih later (keepsApart_of_unbound apart rfl)
    · exact ih later apart

/-- Checking a value reports the references that are outdated, up to the first without a text. -/
theorem check_reports : Reports t.violations (check c current value waiting t)
    ((waiting.filter fun r => t.states.isOutdated current (c.scoping.tracked r)).mapM
      (Finding.report c value)) := by
  induction waiting generalizing t with
  | nil => exact ⟨rfl, (List.append_nil _).symm⟩
  | cons r waiting ih =>
    simp only [check, remember_states, List.filter_cons, report_eq]
    split_ifs
    · rw [List.mapM_cons]
      cases Finding.report c value r with
      | error fault => rfl
      | ok v =>
        have rest := ih (t := { t.remember c r with violations := t.violations ++ [v] })
        simp only [remember_states] at rest
        simp only [remember_violations]
        revert rest
        generalize List.mapM (Finding.report c value) _ = later
        cases later with
        | error fault => exact id
        | ok found => exact fun rest => ⟨rest.1, by simpa using rest.2⟩
    · simpa using ih (t := t.remember c r)

end Check

theorem waiting_filter (t : Tracker) (stats : Stats) {i j : NodeId} (h : i ≠ j) :
    waiting { t with pending := t.pending.filter fun (v, _) => v.id ≠ j, stats := stats } i =
      t.waiting i := by
  simp only [waiting, List.find?_filter]
  congr 3
  funext e
  by_cases he : e.1.id = i
  · simp [he, h]
  · simp [he]

theorem waiting_filter_self (t : Tracker) {u : Tracker} {i : NodeId}
    (h : u.pending = t.pending.filter fun w => w.1.id ≠ i) : u.waiting i = [] := by
  have missing : ((t.pending.filter fun w => w.1.id ≠ i).find? fun w => w.1.id = i) = none :=
    List.find?_eq_none.2 fun w hw => by simpa using (List.mem_filter.1 hw).2
  simp only [waiting, h, missing, Option.map_none, Option.getD_none]

/-- The end of an evaluation checks all that wait for it. -/
theorem evaluated_cases (current : List SegmentId) (n : Node) : ∃ s : Tracker,
    s.pending = t.pending ∧ s.violations = t.violations ∧ s.unbound = t.unbound ∧
      (t.waiting n.id = [] ∧ t.evaluated c current n = (s, none) ∨
        ∃ stats, t.evaluated c current n = check c current n (t.waiting n.id)
          { s with pending := s.pending.filter fun (v, _) => v.id ≠ n.id, stats := stats }) := by
  unfold evaluated
  dsimp only
  generalize hs : (if c.scoping.tree.isSuspension n = true then _ else t) = s
  have kept : s.pending = t.pending ∧ s.violations = t.violations ∧ s.unbound = t.unbound := by
    rw [← hs]
    split_ifs <;> exact ⟨rfl, rfl, rfl⟩
  refine ⟨s, kept.1, kept.2.1, kept.2.2, ?_⟩
  rw [← waiting_of_pending kept.1]
  cases hfind : s.pending.find? fun e => e.1.id = n.id with
  | none => exact .inl ⟨by simp [waiting, hfind], rfl⟩
  | some e => exact .inr ⟨_, by simp only [waiting, hfind, Option.map_some, Option.getD_some]; rfl⟩

/-- Leaving a node reports those that wait for it and are outdated then, if there are any. -/
theorem exit_reports (current : List SegmentId) (n : Node)
    (h : t.waiting n.id = [] ∨ (t.references.isSome ∧ isEvaluation n)) :
    Reports t.violations (t.exit c current n) (((t.waiting n.id).filter fun r =>
      (t.exit c current n).1.states.isOutdated current (c.scoping.tracked r)).mapM
        (Finding.report c n)) := by
  unfold exit
  split_ifs with evaluates
  · obtain ⟨s, -, violations, -, ⟨none_waits, heq⟩ | ⟨stats, heq⟩⟩ :=
      evaluated_cases (c := c) (t := t) current n
    · rw [heq, none_waits, ← violations]
      exact ⟨rfl, (List.append_nil _).symm⟩
    · rw [heq, (check_frames_states c _ _ _ _).2, ← violations]
      exact check_reports current n
  · rw [h.resolve_right evaluates]
    exact ⟨rfl, (List.append_nil _).symm⟩

theorem exit_keepsApart (current : List SegmentId) (n : Node)
    (hw : ∀ r ∈ t.waiting n.id, c.scoping.variableScope r.scope ≠ 0) (h : t.KeepsApart c) :
    (t.exit c current n).1.KeepsApart c := by
  unfold exit
  split_ifs
  · obtain ⟨s, -, -, unbound, ⟨-, heq⟩ | ⟨stats, heq⟩⟩ :=
      evaluated_cases (c := c) (t := t) current n
    · rw [heq]
      exact keepsApart_of_unbound h unbound
    · rw [heq]
      exact check_keepsApart current n hw (keepsApart_of_unbound h unbound)
  · exact h

theorem exit_waiting (current : List SegmentId) (n : Node) {i : NodeId} (h : i ≠ n.id) :
    (t.exit c current n).1.waiting i = t.waiting i := by
  unfold exit
  split_ifs
  · obtain ⟨s, pending, -, -, ⟨-, heq⟩ | ⟨stats, heq⟩⟩ :=
      evaluated_cases (c := c) (t := t) current n
    · rw [heq, waiting_of_pending pending]
    · rw [heq, waiting_of_pending (check_pending current n), waiting_filter s _ h,
        waiting_of_pending pending]
  · rfl

end Tracker

end LostUpdate
