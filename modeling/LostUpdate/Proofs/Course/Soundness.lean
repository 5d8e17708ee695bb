import LostUpdate.Proofs.Course.Arrivals

namespace LostUpdate

open Courses

/-- Arrivals keep to the edges that events draw, starting at a point. Nothing arrives where the walk
knows that nothing does. -/
structure Arrivals.Solves (contents : Contents) (A : Arrivals) (x : Point) (events : List Event) :
    Prop where
  told : x.Told contents events
  admits : ∀ e ∈ events, A.Admits contents e
  dead : ∀ s, .segment s ∈ events → s.isReachable = false → A s.id = 0

/-- A point is where a walk stands. -/
structure Arrivals.Meets (A : Arrivals) (p : Spot) (x : Point) : Prop where
  current : x.segment = p.current
  dead : p.current.isReachable = false → A p.current.id = 0

/-- What leaves by the jumps of a walk up to `q` is within `exits`. -/
structure Arrivals.Exits (contents : Contents) (A : Arrivals) (around : Surroundings) (q : Spot)
    (exits : Jump → Language Node) : Prop where
  left : ∀ k, ∀ s ∈ q.left k, s.isReachable = true → A.through contents s.id ≤ exits k
  continued : ∀ t, around.continuation = some t → A t.id ≤ exits .continueLoop

variable {contents : Contents} {A : Arrivals} {around : Surroundings} {p q : Spot} {x : Point}
  {exits : Jump → Language Node} {first second later : List Event}

namespace Arrivals

theorem through_le {s : Segment} {l : Language Node} (hd : s.isReachable = false → A s.id = 0)
    (h : s.isReachable = true → A.through contents s.id ≤ l) : A.through contents s.id ≤ l := by
  by_cases hs : s.isReachable = true
  · exact h hs
  · rw [through, hd (by simpa using hs), zero_mul]
    exact bot_le

theorem Exits.mono (h : A.Exits contents around q exits) (hp : ∀ k, p.left k ⊆ q.left k) :
    A.Exits contents around p exits :=
  ⟨fun k s hs => h.left k s (hp k hs), h.continued⟩

theorem Meets.of_current (hm : A.Meets p x) (h : q.current = p.current := by rfl) : A.Meets q x :=
  ⟨hm.current.trans h.symm, h ▸ hm.dead⟩

theorem Meets.after (hm : A.Meets p x) (hmoves : Moves p first q)
    (h : A.Solves contents x (Event.own 0 first)) :
    A.Meets q (x.after (Event.own 0 first)) := by
  have same := hmoves.current x hm.current
  refine ⟨same, fun hr => ?_⟩
  rcases x.segment_after (Event.own 0 first) with hx | hx
  · rw [← same, hx, hm.current] at hr ⊢
    exact hm.dead hr
  · exact h.dead _ (same ▸ hx) hr

namespace Solves

theorem append_iff : A.Solves contents x (first ++ second) ↔
    A.Solves contents x first ∧ A.Solves contents (x.after first) second := by
  constructor
  · rintro ⟨told, admits, dead⟩
    obtain ⟨toldFirst, toldSecond⟩ := Point.told_append.1 told
    exact ⟨⟨toldFirst, fun e he => admits e (List.mem_append_left _ he),
        fun s hs => dead s (List.mem_append_left _ hs)⟩,
      toldSecond, fun e he => admits e (List.mem_append_right _ he),
      fun s hs => dead s (List.mem_append_right _ hs)⟩
  · rintro ⟨hf, hs⟩
    refine ⟨Point.told_append.2 ⟨hf.told, hs.told⟩, fun e he => ?_, fun s he => ?_⟩
    · exact (List.mem_append.1 he).elim (hf.admits e) (hs.admits e)
    · exact (List.mem_append.1 he).elim (hf.dead s) (hs.dead s)

/-- Where a segment starts, the one before it has ended. -/
theorem upTo_eq {s : Segment} (h : A.Solves contents x (.segment s :: later)) :
    A.upTo x = A.through contents x.segment.id :=
  upTo_eq_through (h.told.1 ⟨s, rfl⟩)

end Solves

theorem Meets.upTo_le (hm : A.Meets p x) {s : Segment}
    (h : A.Solves contents x (.segment s :: later)) {l : Language Node}
    (hp : p.current.isReachable = true → A.through contents p.current.id ≤ l) : A.upTo x ≤ l := by
  rw [h.upTo_eq, hm.current]
  exact through_le hm.dead hp

end Arrivals

namespace Walk

open Arrivals Event

variable {path : PathId} {previous : List Segment}

theorem startSegment_meets (h : A.Solves contents x (own 0 (startSegment path previous p).1)) :
    A.Meets (startSegment path previous p).2 (x.after (own 0 (startSegment path previous p).1)) :=
  ⟨rfl, h.dead _ List.mem_cons_self⟩

theorem exits_of_startSegment (h : A.Exits contents around (startSegment path previous p).2 exits) :
    A.Exits contents around p exits := by
  refine h.mono fun k => ?_
  rw [startSegment_left]
  exact List.Subset.refl _

theorem startSegment_upTo : A.upTo (x.after (own 0 (startSegment path previous p).1)) =
    A (startSegment path previous p).2.current.id :=
  upTo_start _

/-- What has passed the reachable segments behind which a segment starts arrives at it. -/
theorem through_le_startSegment
    (h : A.Solves contents x (own 0 (startSegment path previous p).1)) {s : Segment}
    (hs : s ∈ previous) (hr : s.isReachable = true) :
    A.through contents s.id ≤ A (startSegment path previous p).2.current.id := by
  refine h.admits _ List.mem_cons_self s.id (List.mem_map_of_mem ?_)
  rw [Segment.distinct, List.mem_eraseDups, List.mem_filter]
  exact ⟨hs, hr⟩

theorem upTo_le_startSegment (hm : A.Meets p x)
    (h : A.Solves contents x (own 0 (startSegment path previous p).1))
    (hp : p.current ∈ previous) : A.upTo x ≤ A (startSegment path previous p).2.current.id :=
  hm.upTo_le h (through_le_startSegment h hp)

theorem goBack_sound {target s : Segment} (hm : A.Meets p x)
    (h : A.Solves contents x (own 0 (goBack target p).1 ++ [.segment s])) :
    A.upTo x ≤ A target.id := by
  rw [upTo_eq_through (names_of_goBack h.told), hm.current]
  refine through_le hm.dead fun hr => ?_
  simp only [goBack, hr, if_true] at h
  exact h.admits _ (List.mem_append_left _ List.mem_cons_self)

theorem leave_sound {kind : Jump}
    (hc : kind = .continueLoop → around.continuation.isSome = true) (hm : A.Meets p x)
    (h : A.Solves contents x (own 0 (leave around kind p).1))
    (he : A.Exits contents around (leave around kind p).2 exits) : A.upTo x ≤ exits kind := by
  cases kind with
  | breakLoop => exact hm.upTo_le h (he.left .breakLoop _ (by simp [leave, startSegment, Spot.left]))
  | returnOut => exact hm.upTo_le h (he.left .returnOut _ (by simp [leave, startSegment, Spot.left]))
  | raiseOut => exact hm.upTo_le h (he.left .raiseOut _ (by simp [leave, startSegment, Spot.left]))
  | continueLoop =>
    obtain ⟨target, ht⟩ := Option.isSome_iff_exists.1 (hc rfl)
    simp only [leave, ht, Walk.andThen, (goBack_whole target p).level] at h
    exact (goBack_sound hm h).trans (he.continued target ht)

end Walk

namespace Flow

open Walk Arrivals Event Courses.Bounded

/-- Arrivals that keep to the edges of a flow's walk bound the courses of the flow. Within the body
of a loop, `continue` has somewhere to go. -/
def Sound (contents : Contents) (inLoop : Bool) (f : Flow) : Prop :=
  ∀ ⦃around : Surroundings⦄ ⦃p : Spot⦄ ⦃x : Point⦄ ⦃exits : Jump → Language Node⦄ ⦃A : Arrivals⦄,
    (inLoop = true → around.continuation.isSome = true) → A.Meets p x →
      A.Solves contents x (own 0 (walk around f p).1) →
        A.Exits contents around (walk around f p).2 exits →
          Bounded (A.upTo x) f.courses (A.upTo (x.after (own 0 (walk around f p).1))) exits

namespace Sound

variable {inLoop : Bool} {f first second head body orelse : Flow} {arms : List Flow}
  {after : Language Node}

theorem idle : Flow.idle.Sound contents inLoop :=
  fun _ _ _ _ _ _ _ _ _ => idle_iff.2 le_rfl

theorem enter (n : Node) : (Flow.enter n).Sound contents inLoop := by
  intro around p x exits A hl hm h he
  change Bounded _ _ (A.upTo (x.record (.enter n))) _
  rw [upTo_enter, courses]
  split_ifs
  · exact name_iff.2 le_rfl
  · exact idle_iff.2 le_rfl

theorem exit (n : Node) : (Flow.exit n).Sound contents inLoop := by
  intro around p x exits A hl hm h he
  change Bounded _ _ (A.upTo (x.record (.exit n))) _
  rw [upTo_exit]
  exact idle_iff.2 le_rfl

theorem codePath (owner : Node) (body : Flow) : (Flow.codePath owner body).Sound contents inLoop := by
  intro around p x exits A hl hm h he
  rw [own_walk_codePath]
  exact idle_iff.2 le_rfl

theorem jump {kind : Jump} (hk : kind = .continueLoop → inLoop = true) :
    (Flow.jump kind).Sound contents inLoop :=
  fun _ _ _ _ _ hl hm h he => leave_iff.2 (leave_sound (fun hc => hl (hk hc)) hm h he)

theorem seq (hfirst : first.Sound contents inLoop) (hsecond : second.Sound contents inLoop) :
    (Flow.seq first second).Sound contents inLoop := by
  intro around p x exits A hl hm h he
  simp only [walk, Walk.andThen] at h he ⊢
  have moved := walk_moves around first p
  rw [moved.level] at h ⊢
  rw [Point.after_append]
  obtain ⟨inFirst, inSecond⟩ := Solves.append_iff.1 h
  exact andThen_iff.2 ⟨_, hfirst hl hm inFirst (he.mono (walk_left around _ _)),
    hsecond hl (hm.after moved inFirst) inSecond he⟩

theorem walkArms_sound (hs : ∀ arm ∈ arms, arm.Sound contents inLoop)
    (hl : inLoop = true → around.continuation.isSome = true) {fork z : Segment}
    (hfork : fork.isReachable = false → A fork.id = 0)
    (h : A.Solves contents x (own 0 (walkArms around [fork] arms p).1 ++ [.segment z]))
    (he : A.Exits contents around (walkArms around [fork] arms p).2.2 exits)
    (hends : ∀ s ∈ (walkArms around [fork] arms p).2.1, s.isReachable = true →
      A.through contents s.id ≤ after) :
    Bounded (A.through contents fork.id) (oneOf (coursesEach arms)) after exits := by
  induction arms generalizing p x with
  | nil => exact .never
  | cons arm arms ih =>
    simp only [walkArms, List.append_assoc] at h he hends
    have started := startSegment_moves around.path [fork] p
    have moved := walk_moves around arm (startSegment around.path [fork] p).2
    rw [started.level, moved.level, List.append_assoc, List.append_assoc] at h
    obtain ⟨inStart, h⟩ := Solves.append_iff.1 h
    obtain ⟨inArm, inRest⟩ := Solves.append_iff.1 h
    have meets := startSegment_meets inStart
    have meetsEnd := meets.after moved inArm
    refine either_iff.2 ⟨?_, ih (fun a ha => hs a (List.mem_cons_of_mem _ ha)) inRest he
      fun s hs => hends s (List.mem_cons_of_mem _ hs)⟩
    have runs := hs arm List.mem_cons_self hl meets inArm (he.mono (walkArms_left around [fork] _ _))
    rw [startSegment_upTo] at runs
    obtain ⟨s, later, hfirst⟩ := walkArms_first around [fork] arms _ z
    rw [Solves.upTo_eq (hfirst ▸ inRest), meetsEnd.current] at runs
    refine (runs.of_le (through_le hfork
      (through_le_startSegment inStart List.mem_cons_self))).mono_after ?_
    exact through_le meetsEnd.dead (hends _ List.mem_cons_self)

theorem choose (fallsThrough : Bool) (hs : ∀ arm ∈ arms, arm.Sound contents inLoop) :
    (Flow.choose fallsThrough arms).Sound contents inLoop := by
  intro around p x exits A hl hm h he
  simp only [walk] at h he ⊢
  have moved := walkArms_moves around [p.current] arms p
  rw [moved.level] at h ⊢
  rw [Point.after_append, startSegment_upTo]
  obtain ⟨inArms, joined⟩ := Solves.append_iff.1 h
  obtain ⟨s, later, hfirst⟩ := walkArms_first around [p.current] arms p
    (startSegment around.path ((if fallsThrough then [p.current] else []) ++
      (walkArms around [p.current] arms p).2.1) (walkArms around [p.current] arms p).2.2).2.current
  have fork : A.upTo x = A.through contents p.current.id := by
    rw [← hm.current]
    exact Solves.upTo_eq (hfirst ▸ h)
  rw [fork]
  refine either_iff.2 ⟨?_, walkArms_sound hs hl hm.dead h (exits_of_startSegment he) fun s hs hr =>
    through_le_startSegment joined (List.mem_append_right _ hs) hr⟩
  cases fallsThrough with
  | false => exact .never
  | true => exact idle_iff.2 (through_le hm.dead (through_le_startSegment joined (by simp)))

theorem walkChain_sound (hs : ∀ arm ∈ arms, arm.Sound contents inLoop)
    (hl : inLoop = true → around.continuation.isSome = true) {z : Segment} (hm : A.Meets p x)
    (h : A.Solves contents x (own 0 (walkChain around arms p).1 ++ [.segment z]))
    (he : A.Exits contents around (walkChain around arms p).2.2 exits)
    (hends : ∀ s ∈ (walkChain around arms p).2.1, s.isReachable = true →
      A.through contents s.id ≤ after) :
    Bounded (A.upTo x) (someOf (coursesEach arms)) after exits := by
  induction arms generalizing p x with
  | nil => exact idle_iff.2 (hm.upTo_le h (hends _ List.mem_cons_self))
  | cons arm arms ih =>
    have stops : A.upTo x ≤ after := hm.upTo_le h (hends _ List.mem_cons_self)
    simp only [walkChain, List.append_assoc] at h he hends
    have started := startSegment_moves around.path [p.current] p
    have moved := walk_moves around arm (startSegment around.path [p.current] p).2
    rw [started.level, moved.level, List.append_assoc, List.append_assoc] at h
    obtain ⟨inStart, h⟩ := Solves.append_iff.1 h
    obtain ⟨inArm, inRest⟩ := Solves.append_iff.1 h
    have meets := startSegment_meets inStart
    have runs := hs arm List.mem_cons_self hl meets inArm (he.mono (walkChain_left around _ _))
    rw [startSegment_upTo] at runs
    refine either_iff.2 ⟨idle_iff.2 stops, andThen_iff.2 ⟨_, runs.of_le
      (upTo_le_startSegment hm inStart List.mem_cons_self), ?_⟩⟩
    exact ih (fun a ha => hs a (List.mem_cons_of_mem _ ha)) (meets.after moved inArm) inRest he
      fun s hs => hends s (List.mem_cons_of_mem _ hs)

theorem chain (hs : ∀ arm ∈ arms, arm.Sound contents inLoop) :
    (Flow.chain arms).Sound contents inLoop := by
  intro around p x exits A hl hm h he
  simp only [walk] at h he ⊢
  have moved := walkChain_moves around arms p
  rw [moved.level] at h ⊢
  rw [Point.after_append, startSegment_upTo]
  exact walkChain_sound hs hl hm h (exits_of_startSegment he) fun s hs hr =>
    through_le_startSegment (Solves.append_iff.1 h).2 hs hr

/-- What leaves the body by `break` arrives behind the loop, and by `continue` at its head. -/
theorem exits_loopEnd (h : A.Exits contents around (loopElse around head body orelse p) exits)
    (joined : A.Solves contents x (own 0 (startSegment around.path
      ((loopElse around head body orelse p).current :: (loopEnd around head body p).broken)
      (loopElse around head body orelse p)).1)) :
    A.Exits contents (insideLoop around p) (loopEnd around head body p)
      (aroundBody (A (loopAfter around head body orelse p).current.id)
        (A (loopStart around p).current.id) exits) := by
  have later := walk_left around orelse (loopExit around head body p)
  refine ⟨fun k s hs hr => ?_, fun t ht => ?_⟩
  · cases k with
    | breakLoop => exact through_le_startSegment joined (List.mem_cons_of_mem _ hs) hr
    | continueLoop => exact absurd hs List.not_mem_nil
    | returnOut => exact h.left .returnOut s (later .returnOut hs) hr
    | raiseOut => exact h.left .raiseOut s (later .raiseOut hs) hr
  · obtain rfl : (loopStart around p).current = t := by simpa [insideLoop] using ht
    exact le_rfl

theorem loop (hhead : head.Sound contents inLoop) (hbody : body.Sound contents true)
    (horelse : orelse.Sound contents inLoop) : (Flow.loop head body orelse).Sound contents inLoop := by
  intro around p x exits A hl hm h he
  rw [own_walk_loop] at h ⊢
  simp only [Point.after_append, Solves.append_iff] at h ⊢
  obtain ⟨atStart, inHead, atTurn, inBody, atBack, atExit, inElse, joined⟩ := h
  -- A point for every spot on the way, in the order of the walk.
  have start := startSegment_meets atStart
  have fork := start.after (walk_moves around head _) inHead
  have turn : A.Meets (loopTurn around head p) _ := (startSegment_meets atTurn).of_current
  have bodyEnd := turn.after (walk_moves _ body _) inBody
  have exit : A.Meets (loopExit around head body p) _ := (startSegment_meets atExit).of_current
  have elseEnd := exit.after (walk_moves around orelse _) inElse
  have ended := exits_of_startSegment he
  have behindHead (k : Jump) : (loopFork around head p).left k ⊆
      (loopElse around head body orelse p).left k := by
    have leftBody := walk_left (insideLoop around p) body (loopTurn around head p) k
    have leftElse := walk_left around orelse (loopExit around head body p) k
    cases k with
    | breakLoop => exact leftElse
    | continueLoop => exact List.nil_subset _
    | returnOut | raiseOut => exact List.Subset.trans leftBody leftElse
  have runsHead := hhead hl start inHead (ended.mono behindHead)
  have runsBody := hbody (fun _ => rfl) turn inBody (exits_loopEnd ended joined)
  have runsElse := horelse hl exit inElse ended
  have again := goBack_sound bodyEnd (Solves.append_iff.2 ⟨atBack, atExit⟩)
  have leaves := fork.upTo_le atTurn (through_le_startSegment atExit List.mem_cons_self)
  rw [startSegment_upTo] at runsHead runsBody runsElse ⊢
  exact loop_iff.2 ⟨_, _, upTo_le_startSegment hm atStart List.mem_cons_self, runsHead,
    (runsBody.of_le (upTo_le_startSegment fork atTurn List.mem_cons_self)).mono_after again,
    (runsElse.of_le leaves).mono_after (upTo_le_startSegment elseEnd joined List.mem_cons_self)⟩

end Sound

theorem walk_sound {inLoop : Bool} {f : Flow} (hs : f.isStructured inLoop = true) :
    f.Sound contents inLoop := by
  induction f generalizing inLoop with
  | idle => exact .idle
  | enter n => exact .enter n
  | exit n => exact .exit n
  | codePath owner body => exact .codePath owner body
  | seq first second hf hg =>
    obtain ⟨hfirst, hsecond⟩ := Bool.and_eq_true_iff.1 hs
    exact .seq (hf hfirst) (hg hsecond)
  | choose fallsThrough arms ih =>
    exact .choose fallsThrough fun arm ha => ih arm ha (isStructured_of_mem hs ha)
  | chain arms ih => exact .chain fun arm ha => ih arm ha (isStructured_of_mem hs ha)
  | loop head body orelse hh hb ho =>
    simp only [isStructured, Bool.and_eq_true] at hs
    exact .loop (hh hs.1.1) (hb hs.1.2) (ho hs.2)
  | attempt => simp [isStructured] at hs
  | jump kind =>
    refine .jump fun hk => ?_
    subst hk
    exact hs

end Flow

end LostUpdate
