import LostUpdate.Proofs.Walk.Moments

namespace LostUpdate

namespace Event

/-- Events that leave what they enter and end what they start, the last one first. -/
inductive Bracketed : List Event → Prop
  | nil : Bracketed []
  | append {first second : List Event} (h : Bracketed first) (k : Bracketed second) :
      Bracketed (first ++ second)
  | segment (s : Segment) : Bracketed [.segment s]
  | backEdge (source target : Segment) : Bracketed [.backEdge source target]
  | node (n : Node) {inside : List Event} (h : Bracketed inside) :
      Bracketed (.enter n :: inside ++ [.exit n])
  | path (id : PathId) (owner : Node) (upper : Option PathId) (returned thrown : List Segment)
      {inside : List Event} (h : Bracketed inside) :
      Bracketed (.pathStart id owner upper :: inside ++ [.pathEnd id owner returned thrown])

/-- `q` is entered and left, in this order. -/
def Interval (q : Node) (events : List Event) : Prop :=
  ∃ before inside later, events = before ++ (.enter q :: inside ++ .exit q :: later)

theorem Interval.widen {q : Node} {events : List Event} (h : Interval q events)
    (first second : List Event) : Interval q (first ++ events ++ second) := by
  obtain ⟨before, inside, later, rfl⟩ := h
  exact ⟨first ++ before, inside, later ++ second, by simp⟩

/-- What bracketed events enter, they leave later. -/
theorem Bracketed.interval {events : List Event} (h : Bracketed events) {q : Node}
    (hq : .enter q ∈ events) : Interval q events := by
  induction h with
  | nil => simp at hq
  | @append first second _ _ inFirst inSecond =>
    rcases List.mem_append.1 hq with hq | hq
    · simpa using (inFirst hq).widen [] second
    · simpa using (inSecond hq).widen first []
  | segment s => simp at hq
  | backEdge source target => simp at hq
  | @node n inside _ ih =>
    have cases : q = n ∨ .enter q ∈ inside := by simpa using hq
    rcases cases with rfl | hq
    · exact ⟨[], inside, [], rfl⟩
    · exact (ih hq).widen [.enter n] [.exit n]
  | @path id owner upper returned thrown inside _ ih =>
    exact (ih (by simpa using hq)).widen [.pathStart id owner upper]
      [.pathEnd id owner returned thrown]

/-- After bracketed events the code paths are open that have been open before. -/
theorem Bracketed.opened {events : List Event} (h : Bracketed events) (t : Trail) :
    (t.after events).opened.map (·.id) = t.opened.map (·.id) := by
  induction h generalizing t with
  | nil => rfl
  | append _ _ first second => rw [Trail.after_append, second, first]
  | segment s => cases hopened : t.opened <;> simp [Trail.record, hopened]
  | backEdge => rfl
  | node n _ ih =>
    rw [List.cons_append, Trail.after_cons, Trail.after_concat]
    exact ih t
  | path id owner upper returned thrown _ ih =>
    rw [List.cons_append, Trail.after_cons, Trail.after_concat]
    exact (List.map_tail ..).trans (congrArg List.tail (ih _))

/-- A segment that starts while bracketed events happen is one of the path that is innermost before,
or of a path that starts among them. -/
theorem Bracketed.path_of_segment {events : List Event} (h : Bracketed events) {t : Trail}
    (he : t.AllowsAll events) {id : PathId} {ids : List PathId}
    (ht : t.opened.map (·.id) = id :: ids) {s : Segment} (hs : .segment s ∈ events) :
    s.id.path = id ∨ ∃ owner upper, .pathStart s.id.path owner upper ∈ events := by
  induction h generalizing t id ids with
  | nil => simp at hs
  | append first _ inFirst inSecond =>
    obtain ⟨allowed, later⟩ := Trail.allowsAll_append.1 he
    rcases List.mem_append.1 hs with hs | hs
    · exact (inFirst allowed ht hs).imp_right fun ⟨owner, upper, start⟩ =>
        ⟨owner, upper, List.mem_append_left _ start⟩
    · exact (inSecond later ((first.opened t).trans ht) hs).imp_right fun ⟨owner, upper, start⟩ =>
        ⟨owner, upper, List.mem_append_right _ start⟩
  | segment s' =>
    obtain rfl : s = s' := by simpa using hs
    obtain ⟨p, rest, hopened, continues⟩ := he.1
    rw [hopened] at ht
    exact .inl ((congrArg (·.path) continues.id).trans (List.cons.inj ht).1)
  | backEdge => simp at hs
  | node n _ ih =>
    have allowed := (Trail.allowsAll_append.1 he.2).1
    refine (ih allowed ht (by simpa using hs)).imp_right fun ⟨owner, upper, start⟩ => ?_
    exact ⟨owner, upper, List.mem_cons_of_mem _ (List.mem_append_left _ start)⟩
  | path start owner upper returned thrown _ ih =>
    have allowed := (Trail.allowsAll_append.1 he.2).1
    rcases ih allowed rfl (by simpa using hs) with same | ⟨owner', upper', inner⟩
    · exact .inr ⟨owner, upper, same ▸ List.mem_cons_self⟩
    · exact .inr ⟨owner', upper', List.mem_cons_of_mem _ (List.mem_append_left _ inner)⟩

theorem mem_of_visits {owners os : List Node} {events : List Event} {q : Node}
    (h : (os, Stop.enter q) ∈ visits owners events) : .enter q ∈ events := by
  have mem : q ∈ nodes Stop.entered? events := by
    rw [← nodes_visits Stop.entered? owners]
    exact List.mem_filterMap.2 ⟨_, h, rfl⟩
  obtain ⟨e, he, hq⟩ := List.mem_filterMap.1 mem
  cases e <;> simp_all [visit?, Stop.entered?]

end Event

open Event

namespace Walk

theorem startSegment_bracketed (path : PathId) (previous : List Segment) (p : Spot) :
    Bracketed (startSegment path previous p).1 :=
  .segment _

theorem goBack_bracketed (target : Segment) (p : Spot) : Bracketed (goBack target p).1 := by
  unfold goBack
  split_ifs
  · exact .backEdge _ _
  · exact .nil

theorem leave_bracketed (around : Surroundings) (kind : Jump) (p : Spot) :
    Bracketed (leave around kind p).1 := by
  cases kind with
  | continueLoop =>
    unfold leave
    dsimp only
    split
    · exact (goBack_bracketed _ p).append (startSegment_bracketed _ _ _)
    · exact startSegment_bracketed _ _ p
  | _ => exact startSegment_bracketed _ _ _

theorem ownPath_bracketed (upper : Option PathId) (owner : Node) {body : Surroundings → Walk}
    (paths : ℕ) (h : ∀ around p, Bracketed (body around p).1) :
    Bracketed (ownPath upper owner body paths).1 :=
  .path _ _ _ _ _ ((Bracketed.segment _).append (h _ _))

end Walk

namespace Flow

open Walk

/-- Flows that leave every node that they enter. -/
inductive Framed : Flow → Prop
  | idle : Framed idle
  | node (n : Node) {f : Flow} (h : Framed f) : Framed (.seq (.enter n) (.seq f (.exit n)))
  | seq {first second : Flow} (h : Framed first) (k : Framed second) : Framed (.seq first second)
  | choose (fallsThrough : Bool) {arms : List Flow} (h : ∀ f ∈ arms, Framed f) :
      Framed (.choose fallsThrough arms)
  | chain {arms : List Flow} (h : ∀ f ∈ arms, Framed f) : Framed (.chain arms)
  | loop {head body orelse : Flow} (h : Framed head) (hb : Framed body) (he : Framed orelse) :
      Framed (.loop head body orelse)
  | attempt {body orelse : Flow} {handlers : List Flow} {final : Option Flow} (h : Framed body)
      (hh : ∀ f ∈ handlers, Framed f) (he : Framed orelse) (hf : ∀ f ∈ final, Framed f) :
      Framed (.attempt body handlers orelse final)
  | jump (kind : Jump) : Framed (.jump kind)
  | codePath (owner : Node) {body : Flow} (h : Framed body) : Framed (.codePath owner body)

theorem walkArms_bracketed {arms : List Flow}
    (h : ∀ f ∈ arms, ∀ around p, Bracketed (walk around f p).1) (around : Surroundings)
    (starts : List Segment) (p : Spot) : Bracketed (walkArms around starts arms p).1 := by
  induction arms generalizing p with
  | nil => exact .nil
  | cons arm arms ih =>
    exact ((startSegment_bracketed _ _ _).append (h arm List.mem_cons_self around _)).append
      (ih (fun f hf => h f (List.mem_cons_of_mem _ hf)) _)

theorem walkChain_bracketed {arms : List Flow}
    (h : ∀ f ∈ arms, ∀ around p, Bracketed (walk around f p).1) (around : Surroundings) (p : Spot) :
    Bracketed (walkChain around arms p).1 := by
  induction arms generalizing p with
  | nil => exact .nil
  | cons arm arms ih =>
    exact ((startSegment_bracketed _ _ _).append (h arm List.mem_cons_self around _)).append
      (ih (fun f hf => h f (List.mem_cons_of_mem _ hf)) _)

theorem Framed.walk_bracketed {f : Flow} (h : f.Framed) (around : Surroundings) (p : Spot) :
    Bracketed (walk around f p).1 := by
  induction h generalizing around p with
  | idle => exact .nil
  | node n _ ih => exact .node n (ih around p)
  | seq _ _ first second => exact (first around p).append (second around _)
  | choose fallsThrough _ ih =>
    exact (walkArms_bracketed ih around _ p).append (startSegment_bracketed _ _ _)
  | chain _ ih => exact (walkChain_bracketed ih around p).append (startSegment_bracketed _ _ _)
  | loop _ _ _ head body orelse =>
    exact (startSegment_bracketed _ _ p).append (head _ _)
      |>.append (startSegment_bracketed _ _ _) |>.append (body _ _)
      |>.append (goBack_bracketed _ _) |>.append (startSegment_bracketed _ _ _)
      |>.append (orelse _ _) |>.append (startSegment_bracketed _ _ _)
  | @attempt _ _ _ final _ _ _ _ body handlers orelse inFinal =>
    cases final with
    | none =>
      exact (startSegment_bracketed _ _ p).append (body around _)
        |>.append (walkArms_bracketed handlers around _ _) |>.append (startSegment_bracketed _ _ _)
        |>.append (orelse around _) |>.append (startSegment_bracketed _ _ _)
    | some final =>
      exact (startSegment_bracketed _ _ p).append (body around _)
        |>.append (walkArms_bracketed handlers around _ _) |>.append (startSegment_bracketed _ _ _)
        |>.append (orelse around _)
        |>.append ((startSegment_bracketed _ _ _).append (inFinal final rfl around _))
  | jump kind => exact leave_bracketed around kind p
  | codePath owner _ ih => exact ownPath_bracketed (some around.path) owner p.paths ih

theorem Framed.sequence {α : Type} {l : List α} {flow : α → Flow} (h : ∀ c ∈ l, (flow c).Framed) :
    (sequence (l.map flow)).Framed := by
  induction l with
  | nil => exact .idle
  | cons c l ih =>
    exact .seq (h c List.mem_cons_self) (ih fun d hd => h d (List.mem_cons_of_mem _ hd))

end Flow

namespace Node

open LostUpdate.Flow

theorem clauseFlow_framed {n : Node} (h : ∀ c ∈ n.children, c.flow.Framed) (skips : Bool) :
    (n.clauseFlow skips).Framed := by
  cases n with
  | mk i s f =>
    rw [clauseFlow.eq_def]
    cases f
    case clause target iterable conditions isAsync =>
      simp only [children, form, Form.children, List.forall_mem_cons] at h
      obtain ⟨inTarget, inIterable, inConditions⟩ := h
      refine .node _ (.seq ?_ (.seq inTarget (.sequence inConditions)))
      split_ifs
      · exact .idle
      · exact inIterable
    all_goals exact .idle

/-- The code of a function leaves every node that it enters, if all that is below does. -/
theorem bodyFlow_framed {n : Node} (h : n.isGrammatical = true) (hf : n.isFunctionLike = true)
    (part : ∀ {c : Node}, c ∈ n.children.flatMap preorder → c.flow.Framed) :
    n.bodyFlow.Framed := by
  have child {c : Node} (hc : c ∈ n.children) : c.flow.Framed :=
    part (mem_below_of_mem_children hc)
  have clause {c : Node} (hc : c ∈ n.children) (skips : Bool) : (c.clauseFlow skips).Framed :=
    clauseFlow_framed (fun d hd => part (mem_below_trans hc hd)) skips
  have below : n.children = n.form.children := rfl
  rcases isFunctionLike_cases hf with ⟨isAsync, name, parameters, body, decorators, returns, hn⟩ |
    ⟨parameters, body, hn⟩ | ⟨elements, clauses, hn⟩
  · rw [bodyFlow_function hn]
    exact .sequence fun c hc => child (by simp [below, hn, Form.children, hc])
  · rw [bodyFlow_lambda hn]
    exact child (by simp [below, hn, Form.children])
  · obtain ⟨first, rest, -, -, -, -, rfl, -⟩ := exists_first h hn
    simp only [hn, Form.children] at below
    rw [bodyFlow_generator hn]
    exact .seq (.seq (clause (by simp [below]) true)
      (.sequence fun c hc => clause (by simp [below, hc]) false))
      (.sequence fun c hc => child (by simp [below, hc]))

/-- The flow of a node leaves every node that it enters. -/
theorem flow_framed {n : Node} (h : n.isGrammatical = true) : n.flow.Framed := by
  induction n using induct_below with
  | step n ih =>
    have part {c : Node} (hc : c ∈ n.children.flatMap preorder) : c.flow.Framed :=
      ih c hc (isGrammatical_of_mem h (mem_preorder_of_below hc))
    have placed {c : Node} (hc : c ∈ n.children.flatMap preorder) : c.placedFlow.Framed := by
      obtain ⟨k, hk, below⟩ := List.mem_flatMap.1 hc
      unfold placedFlow
      split_ifs
      · exact clauseFlow_framed (fun d hd => part (List.mem_flatMap.2
          ⟨k, hk, mem_preorder_trans below (mem_preorder_of_mem_children hd)⟩)) false
      · exact part hc
    have child {c : Node} (hc : c ∈ n.children) : c.placedFlow.Framed :=
      placed (mem_below_of_mem_children hc)
    have row {l : List Node} (hl : ∀ c ∈ l, c ∈ n.children) :
        (sequence (l.map placedFlow)).Framed :=
      .sequence fun c hc => child (hl c hc)
    have arms {l : List Node} (hl : ∀ c ∈ l, c ∈ n.children) :
        ∀ f ∈ l.map placedFlow, f.Framed := by
      simpa only [List.forall_mem_map] using fun c hc => child (hl c hc)
    have headed : (sequence (n.heading.map placedFlow)).Framed :=
      .sequence fun c hc => placed (mem_below_of_mem_heading hc)
    have below : n.children = n.form.children := rfl
    have shape := innerFlow_shape h
    rw [flow_eq]
    refine .node n ?_
    generalize n.innerFlow = f at shape ⊢
    cases shape with
    | row => exact row fun c hc => hc
    | returnStmt | raiseStmt => exact .seq (row fun c hc => hc) (.jump _)
    | breakStmt | continueStmt => exact .jump _
    | noLinks => exact .chain (by simp)
    | function hf => exact .seq headed (.codePath n (bodyFlow_framed h hf part))
    | entries hn =>
      exact row fun c hc => by
        rw [below, hn]
        exact mem_children_of_mem_interleave hc
    | classDef hn => exact .seq headed (row fun c hc => by simp [below, hn, Form.children, hc])
    | turns hn =>
      simp only [hn, Form.children] at below
      exact .seq (row fun c hc => by simp [below, hc]) (row fun c hc => by simp [below, hc])
    | branch hn =>
      simp only [hn, Form.children] at below
      refine .seq (child (by simp [below])) (.choose false ?_)
      simp only [List.forall_mem_cons]
      exact ⟨row fun c hc => by simp [below, hc], row fun c hc => by simp [below, hc], by simp⟩
    | conditional hn =>
      simp only [hn, Form.children] at below
      refine .seq (child (by simp [below])) (.choose false ?_)
      simp only [List.forall_mem_cons]
      exact ⟨child (by simp [below]), child (by simp [below]), by simp⟩
    | links hn =>
      simp only [hn, Form.children] at below
      exact .seq (child (by simp [below])) (.chain (arms fun c hc => by simp [below, hc]))
    | cases hn =>
      simp only [hn, Form.children] at below
      exact .seq (child (by simp [below])) (.choose true (arms fun c hc => by simp [below, hc]))
    | whileLoop hn =>
      simp only [hn, Form.children] at below
      exact .loop (child (by simp [below])) (row fun c hc => by simp [below, hc])
        (row fun c hc => by simp [below, hc])
    | forLoop hn =>
      simp only [hn, Form.children] at below
      exact .seq (child (by simp [below])) (.loop (child (by simp [below]))
        (row fun c hc => by simp [below, hc]) (row fun c hc => by simp [below, hc]))
    | attempt hn =>
      simp only [hn, Form.children] at below
      exact .attempt (row fun c hc => by simp [below, hc]) (arms fun c hc => by simp [below, hc])
        (row fun c hc => by simp [below, hc]) (by simp)
    | final hn =>
      simp only [hn, Form.children] at below
      refine .attempt (row fun c hc => by simp [below, hc]) (arms fun c hc => by simp [below, hc])
        (row fun c hc => by simp [below, hc]) ?_
      rintro _ ⟨⟩
      exact row fun c hc => by simp only [below, List.mem_append, hc, or_true]

end Node

namespace Event

/-- `q` is entered and left between entering and leaving `a`. -/
def Encloses (a q : Node) (events : List Event) : Prop :=
  ∃ before inside later, events = before ++ (.enter a :: inside ++ .exit a :: later) ∧
    Interval q inside

end Event

namespace Flow

theorem Framed.inner {a : Node} {f : Flow} (h : Framed (.seq (.enter a) (.seq f (.exit a)))) :
    f.Framed := by
  cases h with
  | node _ h => exact h
  | seq h _ => cases h

/-- What a flow visits is entered on a walk of it. -/
theorem mem_walk_of_visits {f : Flow} {owners os : List Node} {q : Node}
    (hq : (os, Stop.enter q) ∈ f.visits owners) (around : Surroundings) (p : Spot) :
    .enter q ∈ (walk around f p).1 := by
  have visits := walk_visits owners [] around f p
  simp only [List.append_nil, Event.visits] at visits
  exact mem_of_visits (visits ▸ hq)

theorem Framed.interval {f : Flow} (h : f.Framed) (around : Surroundings) (p : Spot)
    {owners os : List Node} {q : Node} (hq : (os, Stop.enter q) ∈ f.visits owners) :
    Interval q (walk around f p).1 :=
  (h.walk_bracketed around p).interval (mem_walk_of_visits hq around p)

/-- A node that is walked in one block encloses what is entered there. -/
theorem BlockIn.encloses {a q : Node} {f : Flow} {events : List Event}
    (h : BlockIn (.seq (.enter a) (.seq f (.exit a))) events) (hf : f.Framed)
    {owners os : List Node} (hq : (os, Stop.enter q) ∈ f.visits owners) :
    Encloses a q events := by
  obtain ⟨around, p, before, later, rfl⟩ := h
  exact ⟨before, (walk around f p).1, later, by simp [walk, Walk.andThen, Walk.emit],
    hf.interval around p hq⟩

end Flow

end LostUpdate
