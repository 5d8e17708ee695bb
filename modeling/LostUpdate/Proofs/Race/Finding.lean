import LostUpdate.Proofs.Race.Mark

namespace LostUpdate

/-- A name that is entered as a reference to follow, in the code of `owner`. -/
structure Meeting where
  owner : Node
  reference : Reference

/-- A name met earlier and the value that it stores, which has just been evaluated. -/
structure Finding where
  value : Node
  meeting : Meeting

namespace Trail

variable (c : Subject)

def meeting? (t : Trail) : Event → Option Meeting
  | .enter n => t.opened.head?.bind fun p => (t.reference? c n).map fun r => ⟨p.owner, r⟩
  | _ => none

/-- The names met at events, in the order in which they are entered. -/
def meetings (t : Trail) : List Event → List Meeting
  | [] => []
  | e :: events => (t.meeting? c e).toList ++ meetings (t.record e) events

theorem meetings_append (t : Trail) (first second : List Event) :
    t.meetings c (first ++ second) = t.meetings c first ++ (t.after first).meetings c second := by
  induction first generalizing t with
  | nil => rfl
  | cons e first ih => simp [meetings, ih]

theorem meetings_concat (t : Trail) (events : List Event) (e : Event) :
    t.meetings c (events ++ [e]) =
      t.meetings c events ++ ((t.after events).meeting? c e).toList := by
  rw [meetings_append]
  simp [meetings]

theorem exists_meeting {c : Subject} {t : Trail} {events : List Event} {m : Meeting}
    (h : m ∈ t.meetings c events) : ∃ first e later, events = first ++ e :: later ∧
      (t.after first).meeting? c e = some m := by
  induction events generalizing t with
  | nil => simp [meetings] at h
  | cons e events ih =>
    rcases List.mem_append.1 h with h | h
    · exact ⟨[], e, events, rfl, Option.mem_toList.1 h⟩
    · obtain ⟨first, e', later, rfl, hm⟩ := ih h
      exact ⟨e :: first, e', later, rfl, hm⟩

end Trail

/-- Whether `n` is an assignment of `value`. An annotated declaration of a bare name is none. -/
def Node.Updates (n value : Node) : Prop :=
  n.assignedValue? = some value ∧ ∀ target hint v simple, n.form = .annotated target hint v simple →
    ∀ name context, target.form ≠ .name name context

/-- Whether other code can reach the variable of a reference: it has no binding, its name counts as
shared, or its owner shares it with code that uses it by the same path. -/
def Subject.Escapes (c : Subject) (r : Reference) : Prop :=
  c.scoping.resolve r = none ∨ r.name ∈ c.shared ∨
    ∃ s, c.scoping.resolve r = some s ∧ ∃ u ∈ c.scoping.referencesTo s r.name,
      c.scoping.tree.path u.toNameUse = c.scoping.tree.path r.toNameUse ∧
        c.scoping.variableScope u.scope ≠ c.scoping.variableScope s

namespace Meeting

variable (c : Subject)

structure WaitsFor (m : Meeting) (value : Node) : Prop where
  stores : c.scoping.tree.storedValue? m.reference.toNameUse = some value
  updates : ∃ p ∈ c.scoping.tree.nodes, p.Updates value
  escapes : c.Escapes m.reference

/-- Whether the variable of a meeting is outdated in the segment that runs in its code. -/
def OutdatedAfter (m : Meeting) (done : List Event) : Prop :=
  ∃ p ∈ (Trail.empty.after done).opened, p.owner = m.owner ∧
    ∃ s, p.segments.head? = some s ∧ Mark.OutdatedAt (Event.segments done)
      (Trail.empty.marks c done) s.id (c.scoping.tracked m.reference)

end Meeting

namespace Finding

variable (c : Subject) (met : List Meeting)

open Classical in
/-- What is found at an event that comes after `done`, of the names that are met. -/
noncomputable def atEvent (done : List Event) : Event → List Finding
  | .exit value => (met.filter fun m =>
      m.WaitsFor c value ∧ m.OutdatedAfter c (done ++ [.exit value])).map (⟨value, ·⟩)
  | _ => []

noncomputable def along (done : List Event) : List Event → List Finding
  | [] => []
  | e :: events => atEvent c met done e ++ along (done ++ [e]) events

theorem along_append (done first second : List Event) :
    along c met done (first ++ second) =
      along c met done first ++ along c met (done ++ first) second := by
  induction first generalizing done with
  | nil => simp [along]
  | cons e first ih => simp [along, ih]

theorem along_concat (done events : List Event) (e : Event) :
    along c met done (events ++ [e]) =
      along c met done events ++ atEvent c met (done ++ events) e := by
  rw [along_append]
  simp [along]

theorem exists_along {done events : List Event} {f : Finding}
    (h : f ∈ along c met done events) : f.meeting ∈ met ∧ f.meeting.WaitsFor c f.value := by
  induction events generalizing done with
  | nil => simp [along] at h
  | cons e events ih =>
    rcases List.mem_append.1 h with h | h
    · cases e <;> simp only [atEvent, List.mem_map, List.mem_filter, List.not_mem_nil] at h
      obtain ⟨m, ⟨hm, hwaits⟩, rfl⟩ := h
      simp only [decide_eq_true_eq] at hwaits
      exact ⟨hm, hwaits.1⟩
    · exact ih h

/-- What is reported of a value that a reference may store although it is outdated. -/
def report (value : Node) (r : Reference) : Except Fault Violation :=
  match c.scoping.tree.parent? value.id with
  | none => .error (.valueWithoutAssignment r.toNameUse)
  | some assignment =>
    match c.scoping.tree.targetIn? r.toNameUse assignment.id with
    | none => .error (.referenceOutsideAssignment r.toNameUse)
    | some target => (Tracker.targetText c target).map fun text =>
      ⟨text, some assignment, (assignment.span.map (·.line)).getD 0,
        (assignment.span.map (·.column)).getD 0⟩

def violation (f : Finding) : Except Fault Violation := report c f.value f.meeting.reference

end Finding

/-- The findings of the walk from `n`, in the order in which their values are left, and for one value
in the order in which the names have been met. -/
noncomputable def Subject.findings (c : Subject) (n : Node) : List Finding :=
  Finding.along c (Trail.empty.meetings c n.events) [] n.events

end LostUpdate
