import LostUpdate.Proofs.Race.Climbs
import LostUpdate.Proofs.Race.Counters
import LostUpdate.Proofs.Race.Part
import LostUpdate.Proofs.Race.Resumability
import LostUpdate.Proofs.Walk.StraightLine

namespace LostUpdate

/-- What comes before an element of a list comes before the rest of the list if the element does. -/
theorem sublist_of_concat_sublist {α : Type} {k l m : List α} {x : α}
    (h : (k ++ [x]).Sublist (l ++ m)) (hx : x ∉ m) : k.Sublist l := by
  obtain ⟨first, second, hsplit, hl, hm⟩ := List.sublist_append_iff.1 h
  rcases List.eq_nil_or_concat second with rfl | ⟨second, y, rfl⟩
  · rw [List.append_nil] at hsplit
    exact (List.sublist_append_left k [x]).trans (hsplit ▸ hl)
  · rw [List.concat_eq_append, ← List.append_assoc] at hsplit
    obtain rfl : x = y := by simpa using (List.append_inj' hsplit rfl).2
    exact absurd (hm.subset (by simp)) hx

namespace Mark

theorem leavesOutdated_of_sublist {v : Tracked} {l : List Mark} (h : [read v, suspend].Sublist l) :
    LeavesOutdated v l := by
  obtain ⟨first, last, rfl, hread, hsuspend⟩ := List.cons_sublist_iff.1 h
  obtain ⟨before, between, rfl⟩ := List.append_of_mem hread
  obtain ⟨rest, after, rfl⟩ := List.append_of_mem (List.singleton_sublist.1 hsuspend)
  exact ⟨before, between ++ rest, after, by simp⟩

end Mark

namespace Trail

variable {c : Subject} {t : Trail} {l : List Event}

/-- Events that open, start and close nothing leave all as it is. -/
theorem after_of_still (h : ∀ e ∈ l, t.record e = t) : t.after l = t := by
  induction l with
  | nil => rfl
  | cons e l ih =>
    rw [after_cons, h e List.mem_cons_self]
    exact ih fun d hd => h d (List.mem_cons_of_mem e hd)

/-- Such events leave all their marks in the segment that runs. -/
theorem along_marks_of_still {k : SegmentId} (hk : t.running? = some k)
    (h : ∀ e ∈ l, t.record e = t) :
    Mark.along (t.marks c l) [k] = l.filterMap (t.mark? c) := by
  simp only [Mark.along, List.flatMap_cons, List.flatMap_nil, List.append_nil]
  induction l with
  | nil => rfl
  | cons e l ih =>
    rw [marks, h e List.mem_cons_self, List.filter_append, List.map_append,
      ih fun d hd => h d (List.mem_cons_of_mem e hd), marked_of_running? hk]
    cases hmark : t.mark? c e <;> simp [hmark]

theorem mem_meetings_of_still (h : ∀ e ∈ l, t.record e = t) {e : Event} (he : e ∈ l) {m : Meeting}
    (hm : t.meeting? c e = some m) : m ∈ t.meetings c l := by
  obtain ⟨first, last, rfl⟩ := List.append_of_mem he
  have before : t.after first = t := after_of_still fun d hd => h d (List.mem_append_left _ hd)
  rw [meetings_append, before, meetings, hm]
  simp

end Trail

namespace Node

open LostUpdate.Flow Walk

variable {f n x : Node} {body : List Node}

theorem record_straightEvents {t : Trail} {e : Event} (h : e ∈ n.straightEvents) :
    t.record e = t := by
  induction n using straightEvents.induct with
  | case1 n ih =>
    rw [straightEvents_eq] at h
    simp only [List.cons_append, List.mem_cons, List.mem_append, List.mem_flatMap,
      List.not_mem_nil, or_false] at h
    rcases h with rfl | ⟨c, hc, h⟩ | rfl
    · rfl
    · exact ih c hc h
    · rfl

theorem still_straightEvents (t : Trail) (body : List Node) :
    ∀ e ∈ body.flatMap straightEvents, t.record e = t := by
  intro e he
  obtain ⟨n, -, he⟩ := List.mem_flatMap.1 he
  exact record_straightEvents he

/-- A function that can be left and resumed, whose code runs from first to last. -/
structure RunsStraight (f : Node) (body : List Node) : Prop where
  resumable : f.isResumable = true
  form : ∃ isAsync name parameters decorators returns,
    f.form = .function isAsync name parameters body decorators returns
  straight : ∀ n ∈ body, n.isStraight = true

/-- What is open while the code of `f` runs in its first segment. -/
def underway (f : Node) : Trail := ⟨[⟨.ordinal 1, f, [(entry 0).current]⟩], 1⟩

def opening (f : Node) : List Event :=
  [.pathStart (.ordinal 1) f none, .segment (entry 0).current]

namespace RunsStraight

variable (h : f.RunsStraight body)

include h

theorem isFunctionLike : f.isFunctionLike = true := by
  obtain ⟨_, _, _, _, _, hform⟩ := h.form
  simp [Node.isFunctionLike, hform, Form.isFunctionLike]

theorem ownCode : f.ownCode = body := by
  obtain ⟨_, _, _, _, _, hform⟩ := h.form
  simp [Node.ownCode, hform]

theorem mem_children {n : Node} (hn : n ∈ body) : n ∈ f.children := by
  obtain ⟨_, _, _, _, _, hform⟩ := h.form
  simp [children, hform, Form.children, hn]

theorem nodup {t : Tree} (hf : f ∈ t.nodes) : (body.flatMap preorder).Nodup := by
  obtain ⟨_, _, _, _, _, hform⟩ := h.form
  have distinct := t.nodup_preorder hf
  have parts : body.Sublist f.children := by
    simp only [children, hform, Form.children, List.append_assoc]
    exact (List.sublist_append_left body _).cons _
  rw [preorder_eq] at distinct
  exact (List.nodup_cons.1 distinct).2.sublist (parts.flatMap preorder)

theorem events : ∃ last, f.events = f.opening ++ (body.flatMap straightEvents ++ [last]) := by
  obtain ⟨isAsync, name, parameters, decorators, returns, hform⟩ := h.form
  refine ⟨.pathEnd (.ordinal 1) f [] [], ?_⟩
  have walked : (sequence (body.map flow)).walk (alone 0) (entry 0) =
      (body.flatMap straightEvents, entry 0) :=
    walk_straight_sequence fun n hn => walk_straight (h.straight n hn) _ _
  rw [Node.events, ownPath_eq, ownEvents, Node.walked, programFlow, if_pos h.isFunctionLike,
    bodyFlow_function hform, walked]
  simp [opening, entry]

end RunsStraight

theorem exposes_of_isStraight (h : n.isStraight = true) (hx : x ∈ n.preorder) : n.Exposes x := by
  rcases exposes_or_hidden hx with hexposes | ⟨d, hexposes, hd, -⟩
  · exact hexposes
  · have runs := proceeds_of_isStraight (isStraight_of_mem h (mem_preorder_of_exposes hexposes))
    cases hform : d.form <;> simp_all [proceeds, isDefinition]

theorem enter_of_heads {q : Node} (h : x.Heads q) : .enter x ∈ q.straightEvents := by
  induction h with
  | self => exact x.enter_mem_straightEvents
  | @link c q key _ hc hkey ih =>
    have steps : q.steps = q.children := by
      cases hform : q.form <;> simp_all [chainKey?, Node.steps]
    exact straightEvents_of_mem_steps (steps ▸ hc) ih

theorem isPlace_of_element {target : Node} (h : target.isPlace = true) (hx : target.Element x) :
    x.isPlace = true := by
  induction hx with
  | self => exact h
  | @step q x _ hu hx ih =>
    refine isPlace_of_children ih ?_ x hx
    cases hform : q.form <;> simp_all [unpacks]

end Node

namespace Tree

variable {t : Tree}

/-- A name that is read counts as read, unless it stands at the head of a target other than that of an
augmented assignment. -/
theorem Classifies.countsAsRead {t : ParsedTree} {o : NameUse} (h : t.Classifies o)
    (ho : o.identifier ∈ t.nodes) (hread : o.isRead = true)
    (heads : ∀ p ∈ t.nodes, ∀ q ∈ p.targets, o.identifier.Heads q →
      ∃ op v, p.form = .augmented q op v) :
    t.countsAsRead o (t.storedValue? o) = true := by
  have counts {p q e v : Node} {op : BinaryOp} (hp : p ∈ t.nodes) (hform : p.form = .augmented q op v)
      (he : p.assignedValue? = some e) : t.countsAsRead o (some e) = true := by
    have child := Node.mem_children_of_assignedValue? he
    simp [Tree.countsAsRead, hread, parent?_of_mem hp child, hform]
  cases hstored : t.storedValue? o with
  | none => simp [Tree.countsAsRead, hread]
  | some e =>
    cases hvalue : o.value with
    | none =>
      have hchain : t.chainValue? o = some e := by simpa [storedValue?, hvalue] using hstored
      obtain ⟨p, hp, he, -, htarget, hheads⟩ := exists_of_chainValue? ho hchain
      obtain ⟨op, v, hform⟩ := heads p hp _ htarget hheads
      exact counts hp hform he
    | some v =>
      obtain rfl : v = e := by simpa [storedValue?, hvalue] using hstored
      obtain ⟨p, hp, he, target, htarget, helement⟩ := (h.value v).1 hvalue
      cases helement with
      | self =>
        obtain ⟨op, w, hform⟩ := heads p hp _ htarget .self
        exact counts hp hform he
      | @step q _ hq hu hx =>
        -- An element of a target is stored to and nothing else.
        have inside := mem_nodes_trans (mem_nodes_of_mem_children hp
          (Node.mem_children_of_mem_targets htarget)) (Node.mem_preorder_of_element hq)
        rcases h.isRead.1 hread with hload | ⟨p', hp', haugments⟩
        · have place := Node.isPlace_of_element (Node.isPlace_of_mem_places
            (Node.isMarked_of_mem t.isMarked hp) (Node.mem_places_of_mem_targets htarget)) (.step hq hu hx)
          simp [Node.isPlace, hload] at place
        · have child := Node.mem_children_of_mem_targets (Node.mem_targets_of_augments haugments)
          obtain rfl := parent_unique inside hp' hx child
          obtain ⟨op, w, hform⟩ := haugments
          simp [Node.unpacks, hform] at hu

end Tree

/-- The assignment `a` stores `e` into its target `q`, and has done so when it is done with `w`. -/
inductive Node.StoresAt (a q e : Node) : Node → Prop
  | plain {targets : List Node} (hform : a.form = .assign targets e) (hq : q ∈ targets) :
    StoresAt a q e q
  | augmented {op : BinaryOp} (hform : a.form = .augmented q op e) : StoresAt a q e a

namespace Node.StoresAt

variable {a q e w : Node} (h : a.StoresAt q e w)

include h

theorem target : q ∈ a.targets := by
  cases h with
  | plain hform hq => simpa [targets, hform] using hq
  | augmented hform => simp [targets, hform]

theorem assigns : a.assigns q.id = true := by
  cases h with
  | plain hform hq =>
    simp only [Node.assigns, hform, List.any_eq_true, decide_eq_true_eq]
    exact ⟨_, hq, rfl⟩
  | augmented hform => simp [Node.assigns, hform]

theorem updates : a.Updates e := by
  cases h with
  | plain hform hq => simp [Updates, assignedValue?, hform]
  | augmented hform => simp [Updates, assignedValue?, hform]

theorem steps : a.steps = a.targets ++ [e] := by
  cases h with
  | plain hform hq => simp [Node.steps, targets, children, hform, Form.children]
  | augmented hform => simp [Node.steps, targets, children, hform, Form.children]

theorem isEvaluation : Tracker.isEvaluation a = false := by
  cases h with
  | plain hform hq => simp [Tracker.isEvaluation, hform, Form.isExpression]
  | augmented hform => simp [Tracker.isEvaluation, hform, Form.isExpression]

theorem mem_evaluated : w ∈ a.evaluated := by
  rw [evaluated_eq]
  cases h with
  | plain hform hq =>
    have operand : q ∈ a.operands := by simp [operands, precedingValue?, targets, hform, hq]
    refine List.mem_append_left _ (List.mem_flatMap.2 ⟨q, operand, ?_⟩)
    rw [evaluated_eq]
    simp
  | augmented => simp

end Node.StoresAt

/-- What comes before the store in the order of evaluation is walked before the value is left. -/
theorem Node.RunsStraight.exists_exit {t : Tree} {f a q e s w x : Node} {body : List Node}
    (h : f.RunsStraight body) (hf : f ∈ t.nodes) (ha : a ∈ body) (hw : a.StoresAt q e w)
    (hne : s ≠ a) (hd : ∀ p ∈ body.flatMap evaluated, ¬ p.Defers x s)
    (order : [x, s, w].Sublist (body.flatMap evaluated)) :
    ∃ before after, body.flatMap straightEvents = before ++ .exit e :: after ∧
      [.enter x, .exit s].Sublist (before ++ [.exit e]) := by
  obtain ⟨first, last, hbody⟩ := List.append_of_mem ha
  have split : body = (first ++ [a]) ++ last := by simp [hbody]
  have here : ∀ {n}, n ∈ first ++ [a] → n ∈ body := fun hn => split ▸ List.mem_append_left _ hn
  have apart : w ∉ last.flatMap evaluated := fun hmem => by
    obtain ⟨b, hb, hwb⟩ := List.mem_flatMap.1 hmem
    have straight {n : Node} (hn : n ∈ body) (hwn : w ∈ n.evaluated) : w ∈ n.preorder :=
      mem_preorder_of_evaluated (h.straight n hn) hwn
    have distinct := h.nodup hf
    rw [split, List.flatMap_append, List.nodup_append] at distinct
    refine distinct.2.2 w (List.mem_flatMap.2 ⟨a, by simp, straight ha hw.mem_evaluated⟩) w ?_ rfl
    exact List.mem_flatMap.2 ⟨b, hb, straight (split ▸ List.mem_append_right _ hb) hwb⟩
  have evaluatedBefore : [x, s].Sublist ((first ++ [a]).flatMap evaluated) := by
    rw [split, List.flatMap_append] at order
    exact sublist_of_concat_sublist (k := [x, s]) order apart
  have walkedBefore : [.enter x, .exit s].Sublist ((first ++ [a]).flatMap straightEvents) :=
    pair_sublist_flatMap (fun _ _ hx => (mem_straightEvents hx).1)
      (fun _ _ hs => (mem_straightEvents hs).2)
      (fun n hn => entered_before fun p hp => hd p (List.mem_flatMap.2 ⟨n, here hn, hp⟩))
      evaluatedBefore
  -- The value is left last of all that is walked for the assignment.
  obtain ⟨inner, hinner⟩ : ∃ inner, e.straightEvents = inner ++ [.exit e] := ⟨_, e.straightEvents_eq⟩
  let before := first.flatMap straightEvents ++
    .enter a :: (a.targets.flatMap straightEvents ++ inner)
  have walk : (first ++ [a]).flatMap straightEvents = (before ++ [.exit e]) ++ [.exit a] := by
    rw [List.flatMap_append, List.flatMap_singleton, a.straightEvents_eq, hw.steps,
      List.flatMap_append, List.flatMap_singleton, hinner]
    simp [before]
  refine ⟨before, .exit a :: last.flatMap straightEvents, ?_, ?_⟩
  · rw [split, List.flatMap_append, walk]
    simp
  · rw [walk, pair_sublist_append] at walkedBefore
    have other : (.exit s : Event) ∉ [.exit a] := by simpa using hne
    rcases walkedBefore with h | ⟨-, h⟩ | h
    · exact h
    · exact absurd h other
    · exact absurd (h.subset (by simp)) other

/-- In the order in which `body` is evaluated, `r` is read, then other code may run at `s`, and then
the assignment `a` stores `e` into its target `q`, a name or chain of the same variable, which has no
binding or is one of the module. -/
structure Scoping.MayLose (m : Scoping) (body : List Node) (r u : Reference) (s a q e : Node) : Prop where
  read : r ∈ m.references ∧ r.isRead = true
  heads : ∀ p ∈ m.tree.nodes, ∀ target ∈ p.targets, r.identifier.Heads target →
    ∃ op v, p.form = .augmented target op v
  suspends : m.tree.isSuspension s = true
  stored : u ∈ m.references ∧ u.identifier.Heads q
  same : m.tracked u = m.tracked r
  reachable : m.resolve u = none ∨ m.resolve u = some 0
  order : a ∈ body ∧ ∃ w, a.StoresAt q e w ∧
    [r.identifier, s, w].Sublist (body.flatMap Node.evaluated)

section Report

open Node

variable {c : Subject} {o : Outline} {f s a q e : Node} {body : List Node} {r u : Reference}

/-- A variable without binding, or of the module, can be reached from other code. -/
theorem Scoping.MayLose.escapes (ho : c.scoping.Outlined o) (h : c.scoping.MayLose body r u s a q e)
    (inner : c.scoping.variableScope u.scope ≠ 0) : c.Escapes u := by
  rcases h.reachable with hnone | hmodule
  · exact .inl hnone
  · refine .inr (.inr ⟨0, hmodule, u, ?_, rfl, ?_⟩)
    · rw [Scoping.referencesTo, List.mem_filter]
      exact ⟨h.stored.1, by simp [hmodule]⟩
    · rwa [ho.variableScope_zero]

variable (ho : c.scoping.Parsed o) (hroot : c.scoping.tree.root.isFunctionLike = false)
  (hf : f ∈ c.scoping.tree.nodes) (hs : f.RunsStraight body)

include ho hroot hf hs

/-- A name in straight code is met as the reference that it makes. -/
theorem Subject.followed_underway {n : Node} (hn : n ∈ body) (hr : r ∈ c.scoping.references)
    (hx : r.identifier ∈ n.preorder) : (f.underway.followed c).isSome ∧
      f.underway.reference? c r.identifier = some r ∧ c.scoping.variableScope r.scope ≠ 0 := by
  obtain ⟨scope, hopened, kind, code⟩ := ho.exists_code hroot hf hs.isFunctionLike
  have followed : Tracker.followed c f = some (c.scoping.codeReferences scope) := by
    simp [Tracker.followed, hopened, kind, hs.resumable]
  have here : f.underway.followed c = some (c.scoping.codeReferences scope) := by
    simp [Trail.followed, underway, followed]
  obtain ⟨context, hform⟩ := (ho.mentions hr).name
  have plain : r.identifier.isSignature = false ∧ r.identifier.isClause = false := by
    simp [isSignature, isClause, hform]
  have entered : c.scoping.tree.EntersIn f r.identifier :=
    GrammaticalTree.entersIn_of_ownCode (t := ho.tree.toGrammaticalTree) hroot hf
      (exposes_of_isStraight (hs.straight n hn) hx) plain
      hs.isFunctionLike (hs.ownCode ▸ hn)
  have mem := (code r).2 ⟨hr, entered⟩
  refine ⟨by simp [here], ?_, (Tracker.mem_followed ho.toOutlined followed mem).2⟩
  rw [Trail.reference?, hform, here, Option.getD_some, List.findRev?_eq_find?_reverse]
  obtain ⟨found, hfound⟩ := Option.isSome_iff_exists.1 (List.find?_isSome.2
    ⟨r, List.mem_reverse.2 mem, decide_eq_true rfl⟩ : (List.find? (fun v : Reference =>
      decide (v.identifier.id = r.identifier.id)) (c.scoping.codeReferences scope).reverse).isSome)
  have reference := ((code found).1 (List.mem_reverse.1 (List.mem_of_find?_eq_some hfound))).1
  have same : found.identifier = r.identifier := Tree.eq_of_id_eq (ho.mentions reference).identifier
    (ho.mentions hr).identifier (by simpa using List.find?_some hfound)
  rw [hfound, List.inj_on_of_nodup_map (ho.nodup_identifiers) reference hr same]

omit ho hroot hf hs in
/-- All that happens before some event of straight code happens in the first segment. -/
theorem Meeting.outdatedAfter_underway {l : List Event}
    (hl : ∀ d ∈ l, f.underway.record d = f.underway)
    (h : [Mark.read (c.scoping.tracked u), .suspend].Sublist (l.filterMap (f.underway.mark? c))) :
    (⟨f, u⟩ : Meeting).OutdatedAfter c (f.opening ++ l) := by
  have start : Trail.empty.after f.opening = f.underway := rfl
  have opened : Trail.empty.marks c f.opening = [] := by
    rw [opening, Trail.marks, Trail.marked_of_mark?_eq_none rfl, Trail.marks,
      Trail.marked_of_mark?_eq_none rfl]
    rfl
  refine ⟨⟨.ordinal 1, f, [(Walk.entry 0).current]⟩, ?_, rfl, (Walk.entry 0).current, rfl,
    [(Walk.entry 0).current.id], .start _, ?_⟩
  · rw [Trail.after_append, start, Trail.after_of_still hl]
    exact List.mem_cons_self
  · rw [Trail.marks_append, start, opened, List.nil_append, Trail.along_marks_of_still rfl hl]
    exact Mark.leavesOutdated_of_sublist h

omit ho hroot hf hs in
/-- A name that waits for a value and is outdated where the value is left, is found. -/
theorem Subject.mem_findings {n value : Node} {met : Meeting} {done rest : List Event}
    (hevents : n.events = done ++ .exit value :: rest)
    (hmet : met ∈ Trail.empty.meetings c n.events) (hwaits : met.WaitsFor c value)
    (houtdated : met.OutdatedAfter c (done ++ [.exit value])) : ⟨value, met⟩ ∈ c.findings n := by
  have here : ⟨value, met⟩ ∈ Finding.atEvent c (Trail.empty.meetings c n.events) done
      (.exit value) := by
    simp only [Finding.atEvent, List.mem_map, List.mem_filter, decide_eq_true_eq]
    exact ⟨met, ⟨hmet, hwaits, houtdated⟩, rfl⟩
  have walk : c.findings n = Finding.along c (Trail.empty.meetings c n.events) []
      (done ++ .exit value :: rest) := congrArg _ hevents
  rw [walk, Finding.along_append, Finding.along]
  exact List.mem_append_right _ (List.mem_append_left _ here)

/-- The name at the head of a target is met when the assignment is walked. -/
theorem Subject.met_underway {w : Node} (ha : a ∈ body) (hw : a.StoresAt q e w)
    (hu : u ∈ c.scoping.references) (hq : u.identifier.Heads q) :
    (⟨f, u⟩ : Meeting) ∈ Trail.empty.meetings c f.events ∧ c.scoping.variableScope u.scope ≠ 0 := by
  have below : u.identifier ∈ a.preorder :=
    mem_preorder_child (mem_children_of_mem_targets hw.target)
      (mem_preorder_of_reaches (reaches_of_heads hq))
  obtain ⟨-, known, inner⟩ := followed_underway ho hroot hf hs ha hu below
  have entered : .enter u.identifier ∈ body.flatMap straightEvents :=
    List.mem_flatMap.2 ⟨a, ha, straightEvents_of_mem_steps
      (hw.steps ▸ List.mem_append_left _ hw.target) (enter_of_heads hq)⟩
  have meets : f.underway.meeting? c (.enter u.identifier) = some ⟨f, u⟩ := by
    rw [Trail.meeting?, known]
    rfl
  have start : Trail.empty.after f.opening = f.underway := rfl
  obtain ⟨ending, hevents⟩ := hs.events
  refine ⟨?_, inner⟩
  rw [hevents, Trail.meetings_append, start, Trail.meetings_append]
  exact List.mem_append_right _ (List.mem_append_left _
    (Trail.mem_meetings_of_still (still_straightEvents f.underway body) entered meets))

/-- An update that may be lost in straight code is found. -/
theorem Subject.findings_of_mayLose (h : c.scoping.MayLose body r u s a q e)
    (hd : ∀ p ∈ body.flatMap evaluated, ¬ p.Defers r.identifier s) :
    ⟨e, f, u⟩ ∈ c.findings f := by
  obtain ⟨ha, w, hw, order⟩ := h.order
  have inBody {n x : Node} (hn : n ∈ body) (hx : x ∈ n.preorder) : x ∈ c.scoping.tree.nodes :=
    Tree.mem_nodes_trans (Tree.mem_nodes_of_mem_children hf (hs.mem_children hn)) hx
  have evaluatedIn {x : Node} (hx : x ∈ body.flatMap evaluated) :
      ∃ n ∈ body, x ∈ n.preorder := by
    obtain ⟨n, hn, hx⟩ := List.mem_flatMap.1 hx
    exact ⟨n, hn, mem_preorder_of_evaluated (hs.straight n hn) hx⟩
  obtain ⟨n, hn, hx⟩ := evaluatedIn (order.subset (by simp : r.identifier ∈ _))
  obtain ⟨n', hn', hmem⟩ := evaluatedIn (order.subset (by simp : s ∈ _))
  have evaluation := GrammaticalTree.isEvaluation_of_isSuspension (t := ho.tree.toGrammaticalTree)
    (inBody hn' hmem) h.suspends
  have other : s ≠ a := by
    rintro rfl
    simp [hw.isEvaluation] at evaluation
  obtain ⟨before, after, hbody, walked⟩ := hs.exists_exit hf ha hw other hd order
  obtain ⟨ending, hevents⟩ := hs.events
  obtain ⟨met, inner⟩ := met_underway ho hroot hf hs ha hw h.stored.1 h.stored.2
  have waits : (⟨f, u⟩ : Meeting).WaitsFor c e :=
    ⟨(ho.classifies h.stored.1).storedValue?_of_assigns (inBody ha a.mem_preorder_self)
      hw.target hw.assigns hw.updates.1 h.stored.2,
      ⟨a, inBody ha a.mem_preorder_self, hw.updates⟩, h.escapes ho.toOutlined inner⟩
  -- The read and the suspension leave their marks before the value is left.
  have marks : [.enter r.identifier, .exit s].filterMap (f.underway.mark? c) =
      [.read (c.scoping.tracked u), .suspend] := by
    obtain ⟨followed, known, -⟩ := followed_underway ho hroot hf hs hn h.read.1 hx
    have counts := (ho.classifies h.read.1).countsAsRead (t := ho.tree) (inBody hn hx) h.read.2 h.heads
    simp [Trail.mark?, known, counts, h.same, followed, evaluation, h.suspends]
  have still : ∀ d ∈ before ++ [.exit e], f.underway.record d = f.underway := fun d hd => by
    refine still_straightEvents f.underway body d ?_
    rw [hbody]
    rcases List.mem_append.1 hd with hd | hd <;> simp_all
  have split : f.events = (f.opening ++ before) ++ .exit e :: (after ++ [ending]) := by
    rw [hevents, hbody]
    simp
  refine mem_findings split met waits ?_
  rw [List.append_assoc]
  exact Meeting.outdatedAfter_underway still (marks ▸ walked.filterMap _)

end Report

/-- In code that runs from first to last, an assignment that may lose an update is reported. Only where
one assignment has the read in its value and the suspension in a target need it not be: the value is
evaluated first but walked last. -/
theorem Subject.analyze_straight {t : Tree} (hg : t.root.isGrammatical = true)
    (hmarked : t.root.isMarked = true) (hr : t.root.isFunctionLike = false) {m : Scoping}
    (hm : Scoping.ofTree t = .ok m) (source : Option String) (shared : List String) {f : Node}
    (hf : f ∈ t.nodes) {body : List Node} (hs : f.RunsStraight body) {r u : Reference}
    {s a q e : Node} (h : m.MayLose body r u s a q e)
    (hd : ∀ p ∈ body.flatMap Node.evaluated, ¬ p.Defers r.identifier s) {whole : Tracker}
    (hw : analyze ⟨m, source, shared⟩ t.root = .ok whole) :
    ∃ violation ∈ whole.violations, violation.assignment = some a := by
  obtain rfl := Scoping.tree_eq_of_ofTree hm
  obtain ⟨o, ho⟩ := Scoping.exists_parsed (t := ⟨⟨m.tree, hg⟩, hmarked⟩) hm
  let c : Subject := ⟨m, source, shared⟩
  have hroot : m.tree.root ∈ m.tree.nodes := m.tree.root.mem_preorder_self
  have found : ⟨e, f, u⟩ ∈ c.findings m.tree.root := by
    have here := findings_of_mayLose (c := c) ho hr hf hs h hd
    obtain ⟨before, later, above, contains⟩ :=
      Node.exists_contains hg hf hs.isFunctionLike fun hl => by simp [hr] at hl
    rw [findings_part ho.toGrammatical hroot hf hs.isFunctionLike contains] at here
    exact (List.mem_filter.1 here).1
  have reports := analyze_reports (c := c) ho.toGrammatical hroot
  rw [hw] at reports
  obtain ⟨violation, hmem, hviolation⟩ := mem_of_forall₂ (forall₂_of_mapM_ok reports.symm) found
  refine ⟨violation, hmem, ?_⟩
  -- The assignment reported is that of the value, which has one parent.
  obtain ⟨b, hb, updates, target, -, -, report⟩ := violation_of_mem_findings (c := c) ho.toOutlined found
  have amem : a ∈ m.tree.nodes :=
    Tree.mem_nodes_of_mem_children hf (hs.mem_children h.order.1)
  obtain ⟨w, hstores, -⟩ := h.order.2
  obtain rfl : b = a := Tree.parent_unique hb amem (Node.mem_children_of_assignedValue? updates.1)
    (Node.mem_children_of_assignedValue? hstores.updates.1)
  rw [report] at hviolation
  obtain ⟨text, -, rfl⟩ := exists_ok_of_map hviolation
  rfl

/-- The global counter is read for the sum, which waits for the step, and then stored to. -/
theorem Subject.analyze_straight_bump : ∃ whole,
    analyze ⟨Bump.scoping, none, []⟩ Bump.tree.root = .ok whole ∧
      ∃ violation ∈ whole.violations, violation.assignment.map (·.id) = some 4 := by
  let x : Node := .mk 7 none (.name "total" .load)
  let step : Node := .mk 9 none (.name "step" .load)
  let s : Node := .mk 8 none (.await step)
  let q : Node := .mk 5 none (.name "total" .store)
  let declaration : Node := .mk 3 none (.globalDecl ["total"])
  let a : Node := .mk 4 none (.assign [q] Bump.sum)
  have mem : Bump.function ∈ Bump.tree.nodes :=
    Bump.tree.mem_nodes_of_mem_children Bump.root_mem List.mem_cons_self
  have straight : Bump.function.RunsStraight [declaration, a] :=
    ⟨rfl, ⟨_, _, _, _, _, rfl⟩, List.all_eq_true.1 (by cbv)⟩
  have order : [declaration, a].flatMap Node.evaluated = [declaration, x, step, s, Bump.sum, q, a] := by
    cbv
  have targets : Bump.scoping.tree.nodes.flatMap Node.targets = [q] := by cbv
  have leaf {y z : Node} (h : y.Heads z) (hz : z.children = []) : z.id = y.id := by
    cases h with
    | self => rfl
    | link _ hc _ => simp [hz] at hc
  have references : Bump.scoping.references =
      [⟨⟨q, "total", false, true, some Bump.sum⟩, 1⟩, ⟨⟨x, "total", true, false, none⟩, 1⟩,
        ⟨⟨step, "step", true, false, none⟩, 1⟩] := by cbv
  have loses : Bump.scoping.MayLose [declaration, a] ⟨⟨x, "total", true, false, none⟩, 1⟩
      ⟨⟨q, "total", false, true, some Bump.sum⟩, 1⟩ s a q Bump.sum :=
    { read := by simp [references]
      heads := fun p hp target htarget hx => by
        have only : target ∈ [q] := targets ▸ List.mem_flatMap.2 ⟨p, hp, htarget⟩
        obtain rfl := List.mem_singleton.1 only
        exact absurd (leaf hx rfl) (by decide)
      suspends := rfl
      stored := ⟨by simp [references], .self⟩
      same := by cbv
      reachable := .inr (by cbv)
      order := ⟨by simp, q, .plain rfl List.mem_cons_self, by
        rw [order]
        exact .cons _ (.cons_cons _ (.cons _ (.cons_cons _ (.cons _ (.cons_cons _ (.cons _ .slnil))))))⟩ }
  have kept : ∀ p ∈ [declaration, a].flatMap Node.evaluated, ¬ p.Defers x s := by
    rintro p hp ⟨v, -, -, target, htarget, hs⟩
    have inTargets : ([declaration, a].flatMap Node.evaluated).flatMap
        (fun p => p.targets.flatMap Node.evaluated) = [q] := by cbv
    have only : s ∈ [q] :=
      inTargets ▸ List.mem_flatMap.2 ⟨p, hp, List.mem_flatMap.2 ⟨target, htarget, hs⟩⟩
    exact absurd (congrArg Node.id (List.mem_singleton.1 only)) (by decide)
  obtain ⟨whole, hwhole⟩ : ∃ whole, analyze ⟨Bump.scoping, none, []⟩ Bump.tree.root = .ok whole :=
    ⟨((analyze ⟨Bump.scoping, none, []⟩ Bump.tree.root).toOption).getD .initial, by cbv⟩
  obtain ⟨violation, hmem, hviolation⟩ := analyze_straight Bump.isGrammatical Bump.isMarked rfl
    Bump.ofTree_tree none [] mem straight loses kept hwhole
  exact ⟨whole, hwhole, violation, hmem, by simp [hviolation, a, Node.id]⟩

namespace Slot

def update : Node :=
  .mk 6 none (.assign
    [.mk 7 none (.subscript (.mk 8 none (.name "totals" .load))
      (.mk 9 none (.await (.mk 10 none (.call (.mk 11 none (.name "slot" .load)) [] []))))
      .store)]
    (.mk 12 none (.subscript (.mk 13 none (.name "totals" .load))
      (.mk 14 none (.constant (.text "n") none)) .load)))

/-- Where the condition fails, nothing is reported. The target is walked before the value, so that the
suspension seems to come before the read:

    totals = {}

    async def bump():
        totals[await slot()] = totals["n"]
-/
def root : Node :=
  .mk 0 none (.module
    [.mk 1 none (.assign [.mk 2 none (.name "totals" .store)] (.mk 3 none (.dict [] []))),
      .mk 4 none (.function true "bump"
        (.mk 5 none (.parameterList ⟨[], [], none, [], [], none, []⟩)) [update] [] none)])

def tree : Tree := ⟨root, root.edges, rfl, pairwise_of_strictlyAscending (by cbv)⟩

def scoping : Scoping := ((Scoping.ofTree tree).toOption).getD ⟨tree, []⟩

end Slot

example : Slot.update.evaluated.map (·.id) = [13, 14, 12, 8, 11, 10, 9, 7, 6] := by cbv

example : (Subject.analyze ⟨Slot.scoping, none, []⟩ Slot.tree.root).map (·.violations) = .ok [] := by
  cbv

end LostUpdate
