import LostUpdate.Proofs.Walk.Leaving

namespace LostUpdate

/-- What happens in code that cannot be reached. -/
def Event.IsDead : Event → Prop
  | .segment s => s.isReachable = false
  | .backEdge .. => False
  | _ => True

/-- The reachable ones among `segments` are in `old`. -/
def Segment.NoneAlive (old segments : List Segment) : Prop :=
  ∀ s ∈ segments, s ∈ old ∨ s.isReachable = false

/-- A spot in dead code. Jumps have left from reachable segments before `old` only. -/
structure Spot.IsDead (p old : Spot) : Prop where
  current : p.current.isReachable = false
  broken : Segment.NoneAlive old.broken p.broken
  returned : Segment.NoneAlive old.returned p.returned
  thrown : Segment.NoneAlive old.thrown p.thrown

/-- Events of dead code that lead to a spot in dead code. -/
structure StaysDead (old : Spot) (events : List Event) (q : Spot) : Prop where
  whole : Event.Whole events
  events : ∀ e ∈ Event.own 0 events, e.IsDead
  spot : q.IsDead old

namespace Segment.NoneAlive

variable {old segments more : List Segment}

theorem refl (old : List Segment) : NoneAlive old old := fun _ hs => .inl hs

theorem dead (h : NoneAlive [] segments) : ∀ s ∈ segments, s.isReachable = false :=
  fun s hs => (h s hs).resolve_left List.not_mem_nil

theorem nil : NoneAlive old [] := fun _ hs => absurd hs List.not_mem_nil

theorem append (h : NoneAlive old segments) (k : NoneAlive old more) :
    NoneAlive old (segments ++ more) :=
  fun s hs => (List.mem_append.1 hs).elim (h s) (k s)

theorem of_dead (h : ∀ s ∈ segments, s.isReachable = false) : NoneAlive old segments :=
  fun s hs => .inr (h s hs)

theorem concat (h : NoneAlive old segments) {s : Segment} (hs : s.isReachable = false) :
    NoneAlive old (segments ++ [s]) :=
  h.append (of_dead (List.forall_mem_singleton.2 hs))

end Segment.NoneAlive

open Segment

variable {old old' p q r : Spot} {first second : List Event}

theorem StaysDead.append (h : StaysDead old first q) (k : StaysDead old' second r) :
    StaysDead old' (first ++ second) r := by
  refine ⟨h.whole.append k.whole, fun e he => ?_, k.spot⟩
  rw [h.whole.level] at he
  exact (List.mem_append.1 he).elim (h.events e) (k.events e)

namespace Walk

open Event

variable {previous : List Segment}

theorem startSegment_dead (path : PathId) (h : p.IsDead old)
    (hp : ∀ s ∈ previous, s.isReachable = false) :
    StaysDead old (startSegment path previous p).1 (startSegment path previous p).2 := by
  have none : previous.filter (·.isReachable) = [] := by
    simpa [List.filter_eq_nil_iff] using hp
  have dead : (startSegment path previous p).2.current.isReachable = false := by
    simp [startSegment, none, Segment.distinct]
  refine ⟨startSegment_whole _ _ _, fun e he => ?_, dead, h.broken, h.returned, h.thrown⟩
  obtain rfl := List.mem_singleton.1 he
  exact dead

theorem startSegment_dead_of_one (path : PathId) {s : Segment} (h : p.IsDead old)
    (hs : s.isReachable = false) :
    StaysDead old (startSegment path [s] p).1 (startSegment path [s] p).2 :=
  startSegment_dead path h (List.forall_mem_singleton.2 hs)

theorem goBack_dead (target : Segment) (h : p.IsDead old) :
    StaysDead old (goBack target p).1 (goBack target p).2 := by
  refine ⟨goBack_whole target p, ?_, h⟩
  simp [goBack, h.current, own]

theorem leave_dead (around : Surroundings) (kind : Jump) (h : p.IsDead old) :
    StaysDead old (leave around kind p).1 (leave around kind p).2 := by
  have behind {p : Spot} (h : p.IsDead old) := startSegment_dead around.path h
    (List.forall_mem_nil fun s : Segment => s.isReachable = false)
  cases kind with
  | continueLoop =>
    unfold leave
    dsimp only
    split
    · exact (goBack_dead _ h).append (behind h)
    · exact behind h
  | breakLoop => exact behind ⟨h.current, h.broken.concat h.current, h.returned, h.thrown⟩
  | returnOut => exact behind ⟨h.current, h.broken, h.returned.concat h.current, h.thrown⟩
  | raiseOut => exact behind ⟨h.current, h.broken, h.returned, h.thrown.concat h.current⟩

end Walk

namespace Flow

open Walk Event

section Parts

variable {around : Surroundings} {head body orelse final : Flow} {handlers : List Flow}

theorem loop_dead (h : p.IsDead old)
    (inHead : (loopStart around p).IsDead old →
      StaysDead old (walk around head (loopStart around p)).1 (loopFork around head p))
    (inBody : (loopTurn around head p).IsDead { old with broken := [] } →
      StaysDead { old with broken := [] }
        (walk (insideLoop around p) body (loopTurn around head p)).1 (loopEnd around head body p))
    (inElse : (loopExit around head body p).IsDead old →
      StaysDead old (walk around orelse (loopExit around head body p)).1
        (loopElse around head body orelse p)) :
    StaysDead old (walk around (.loop head body orelse) p).1
      (walk around (.loop head body orelse) p).2 := by
  have start := startSegment_dead_of_one around.path h h.current
  have first := inHead start.spot
  have fork := first.spot
  have turn := startSegment_dead_of_one around.path fork fork.current
  have second := inBody ⟨turn.spot.current, .nil, turn.spot.returned, turn.spot.thrown⟩
  have back := goBack_dead (loopStart around p).current second.spot
  have ended : { loopEnd around head body p with
      broken := (loopFork around head p).broken }.IsDead old :=
    ⟨second.spot.current, fork.broken, second.spot.returned, second.spot.thrown⟩
  have leaving := startSegment_dead_of_one around.path ended fork.current
  have third := inElse leaving.spot
  have joined := startSegment_dead around.path third.spot
    (List.forall_mem_cons.2 ⟨third.spot.current, second.spot.broken.dead⟩)
  exact start.append first |>.append turn |>.append second |>.append back |>.append leaving
    |>.append third |>.append joined

theorem tryEvents_dead (h : p.IsDead old)
    (inBody : (tryBody around p).IsDead { old with returned := [], thrown := [] } →
      StaysDead { old with returned := [], thrown := [] }
        (walk around body (tryBody around p)).1 (tryEnd around body p))
    (inHandlers : (tryCatch around body p).IsDead old →
      (∀ s ∈ tryRisks around body p, s.isReachable = false) →
        StaysDead old (walkArms around (tryRisks around body p) handlers (tryCatch around body p)).1
          (tryHandled around body handlers p).2 ∧
            ∀ s ∈ (tryHandled around body handlers p).1, s.isReachable = false)
    (inElse : (tryGoOn around body handlers p).IsDead old →
      StaysDead old (walk around orelse (tryGoOn around body handlers p)).1
        (tryElse around body handlers orelse p)) :
    StaysDead old (tryEvents around body handlers orelse p) (tryElse around body handlers orelse p) ∧
      (∀ s ∈ tryEnds around body handlers orelse p, s.isReachable = false) ∧
        (∀ s ∈ (tryEnd around body p).thrown, s.isReachable = false) ∧
          ∀ s ∈ (tryEnd around body p).returned, s.isReachable = false := by
  have start := startSegment_dead_of_one around.path h h.current
  have first := inBody ⟨start.spot.current, start.spot.broken, .nil, .nil⟩
  have caught := first.spot.thrown.dead
  have risks : ∀ s ∈ tryRisks around body p, s.isReachable = false :=
    List.forall_mem_cons.2 ⟨start.spot.current, List.forall_mem_cons.2 ⟨first.spot.current, caught⟩⟩
  obtain ⟨second, ends⟩ :=
    inHandlers ⟨first.spot.current, first.spot.broken, h.returned, h.thrown⟩ risks
  have goOn := startSegment_dead_of_one around.path second.spot first.spot.current
  have third := inElse goOn.spot
  exact ⟨start.append first |>.append second |>.append goOn |>.append third,
    List.forall_mem_cons.2 ⟨third.spot.current, ends⟩, caught, first.spot.returned.dead⟩

end Parts

mutual

/-- A walk does not leave dead code. -/
theorem walk_dead {old p : Spot} (around : Surroundings) (f : Flow) (h : p.IsDead old) :
    StaysDead old (walk around f p).1 (walk around f p).2 := by
  cases f with
  | idle => exact ⟨.nil, by simp [walk, stay, own], h⟩
  | enter n => exact ⟨.enter n, by simp [walk, emit, own, Event.IsDead], h⟩
  | exit n => exact ⟨.exit n, by simp [walk, emit, own, Event.IsDead], h⟩
  | seq first second =>
    have inFirst := walk_dead around first h
    exact inFirst.append (walk_dead around second inFirst.spot)
  | choose fallsThrough arms =>
    obtain ⟨inArms, ends⟩ :=
      walkArms_dead around arms h (List.forall_mem_singleton.2 h.current)
    refine inArms.append (startSegment_dead around.path inArms.spot fun s hs => ?_)
    rcases List.mem_append.1 hs with hs | hs
    · split_ifs at hs
      · obtain rfl := List.mem_singleton.1 hs
        exact h.current
      · exact absurd hs List.not_mem_nil
    · exact ends s hs
  | chain arms =>
    obtain ⟨inArms, ends⟩ := walkChain_dead around arms h
    exact inArms.append (startSegment_dead around.path inArms.spot ends)
  | loop head body orelse =>
    exact loop_dead h (walk_dead around head) (walk_dead (insideLoop around p) body)
      (walk_dead around orelse)
  | attempt body handlers orelse final =>
    obtain ⟨parts, ends, caught, pending⟩ := tryEvents_dead h (walk_dead around body)
      (walkArms_dead around handlers) (walk_dead around orelse)
    cases final with
    | none =>
      refine parts.append (startSegment_dead around.path ⟨parts.spot.current, parts.spot.broken,
        parts.spot.returned.append (.of_dead pending), parts.spot.thrown.append ?_⟩ ends)
      split_ifs
      · exact .of_dead caught
      · exact .nil
    | some final =>
      have exits : ∀ s ∈ tryExits around body handlers orelse p, s.isReachable = false := by
        unfold tryExits
        split_ifs
        · exact ends
        · exact List.forall_mem_append.2 ⟨caught, pending⟩
      have behind := startSegment_dead around.path parts.spot exits
      exact parts.append (behind.append (walk_dead around final behind.spot))
  | jump kind => exact leave_dead around kind h
  | codePath owner body =>
    refine ⟨walk_whole around (.codePath owner body) p, ?_, h.current, h.broken, h.returned,
      h.thrown⟩
    simp [own_walk_codePath]
termination_by structural f

theorem walkArms_dead {old p : Spot} (around : Surroundings) {starts : List Segment}
    (arms : List Flow) (h : p.IsDead old) (hs : ∀ s ∈ starts, s.isReachable = false) :
    StaysDead old (walkArms around starts arms p).1 (walkArms around starts arms p).2.2 ∧
      ∀ s ∈ (walkArms around starts arms p).2.1, s.isReachable = false := by
  cases arms with
  | nil => exact ⟨⟨.nil, by simp [walkArms, own], h⟩, by simp [walkArms]⟩
  | cons arm arms =>
    have start := startSegment_dead around.path h hs
    have inArm := walk_dead around arm start.spot
    obtain ⟨inRest, ends⟩ := walkArms_dead around arms inArm.spot hs
    exact ⟨(start.append inArm).append inRest, List.forall_mem_cons.2 ⟨inArm.spot.current, ends⟩⟩
termination_by structural arms

theorem walkChain_dead {old p : Spot} (around : Surroundings) (arms : List Flow)
    (h : p.IsDead old) :
    StaysDead old (walkChain around arms p).1 (walkChain around arms p).2.2 ∧
      ∀ s ∈ (walkChain around arms p).2.1, s.isReachable = false := by
  cases arms with
  | nil => exact ⟨⟨.nil, by simp [walkChain, own], h⟩, by simp [walkChain, h.current]⟩
  | cons arm arms =>
    have start := startSegment_dead_of_one around.path h h.current
    have inArm := walk_dead around arm start.spot
    obtain ⟨inRest, ends⟩ := walkChain_dead around arms inArm.spot
    exact ⟨(start.append inArm).append inRest, List.forall_mem_cons.2 ⟨h.current, ends⟩⟩
termination_by structural arms

end

end Flow

/-- The edges back among these events lead to segments that can be reached. -/
def Event.ReturnsAlive (events : List Event) : Prop :=
  ∀ source target, .backEdge source target ∈ events → target.isReachable = true

theorem Event.ReturnsAlive.append {first second : List Event} (h : ReturnsAlive first)
    (k : ReturnsAlive second) : ReturnsAlive (first ++ second) := fun source target he =>
  (List.mem_append.1 he).elim (h source target) (k source target)

/-- An edge back to the loop around leads to a segment that can be reached. -/
def Surroundings.CanReturn (around : Surroundings) : Prop :=
  ∀ t, around.continuation = some t → t.isReachable = true

namespace Flow

open Walk Event Surroundings

theorem startSegment_returnsAlive (path : PathId) (previous : List Segment) (p : Spot) :
    ReturnsAlive (startSegment path previous p).1 := by
  simp [ReturnsAlive, startSegment]

theorem goBack_returnsAlive {target : Segment} {p : Spot}
    (h : p.current.isReachable = true → target.isReachable = true) :
    ReturnsAlive (goBack target p).1 := by
  unfold goBack
  split_ifs with hp
  · simp [ReturnsAlive, h hp]
  · simp [ReturnsAlive]

theorem leave_returnsAlive {around : Surroundings} (kind : Jump) (p : Spot)
    (h : p.current.isReachable = true → CanReturn around) :
    ReturnsAlive (leave around kind p).1 := by
  cases kind with
  | continueLoop =>
    unfold leave
    dsimp only
    split
    · next t ht =>
      exact (goBack_returnsAlive fun hp => h hp t ht).append (startSegment_returnsAlive _ _ _)
    · exact startSegment_returnsAlive _ _ _
  | breakLoop | returnOut | raiseOut => exact startSegment_returnsAlive _ _ _

theorem ownPath_returnsAlive (upper : Option PathId) (owner : Node) {body : Surroundings → Walk}
    (paths : ℕ) (h : ∀ around p, around.continuation = none → ReturnsAlive (body around p).1) :
    ReturnsAlive (ownPath upper owner body paths).1 := by
  intro source target he
  simp only [ownPath, List.cons_append, List.mem_cons, List.mem_append, reduceCtorEq, false_or,
    List.not_mem_nil, or_false] at he
  exact h _ _ rfl source target he

theorem isReachable_of_start {around : Surroundings} {s : Segment} {p : Spot}
    (h : (startSegment around.path [s] p).2.current.isReachable = true) : s.isReachable = true := by
  simpa using startSegment_isReachable.1 h

mutual

/-- The edges back that a walk draws lead to segments that can be reached, if the one to the loop
around does when the walk starts where control can be. -/
theorem walk_returnsAlive (around : Surroundings) (f : Flow) (p : Spot)
    (h : p.current.isReachable = true → CanReturn around) : ReturnsAlive (walk around f p).1 := by
  cases f with
  | idle => simp [ReturnsAlive, walk, stay]
  | enter n => simp [ReturnsAlive, walk, emit]
  | exit n => simp [ReturnsAlive, walk, emit]
  | seq first second =>
    exact (walk_returnsAlive around first p h).append
      (walk_returnsAlive around second _ fun hq => h ((walk_lands around first p).current hq).1)
  | choose fallsThrough arms =>
    exact (walkArms_returnsAlive around [p.current] arms p (by simpa using h)).append
      (startSegment_returnsAlive _ _ _)
  | chain arms =>
    exact (walkChain_returnsAlive around arms p h).append (startSegment_returnsAlive _ _ _)
  | loop head body orelse =>
    -- Where the body and what follows the loop can be reached, so can the start of the loop.
    have fork (hf : (loopFork around head p).current.isReachable = true) :
        (loopStart around p).current.isReachable = true :=
      ((walk_lands around head (loopStart around p)).current hf).1
    have turn (ht : (loopTurn around head p).current.isReachable = true) :
        (loopStart around p).current.isReachable = true :=
      fork (isReachable_of_start ht)
    have inHead := walk_returnsAlive around head (loopStart around p) fun hs =>
      h (isReachable_of_start hs)
    have inBody := walk_returnsAlive (insideLoop around p) body (loopTurn around head p)
      fun ht t same => Option.some.inj same ▸ turn ht
    have back : ReturnsAlive (goBack (loopStart around p).current (loopEnd around head body p)).1 :=
      goBack_returnsAlive fun he =>
        turn ((walk_lands (insideLoop around p) body (loopTurn around head p)).current he).1
    have inElse := walk_returnsAlive around orelse (loopExit around head body p) fun he =>
      h (isReachable_of_start (fork (isReachable_of_start he)))
    exact (startSegment_returnsAlive _ _ p).append inHead
      |>.append (startSegment_returnsAlive _ _ _) |>.append inBody |>.append back
      |>.append (startSegment_returnsAlive _ _ _) |>.append inElse
      |>.append (startSegment_returnsAlive _ _ _)
  | attempt body handlers orelse final =>
    have lands := walk_lands around body (tryBody around p)
    have risks := (tryEnd_lands lands).1
    have inBody := walk_returnsAlive around body (tryBody around p) fun hb =>
      h (isReachable_of_start hb)
    have inHandlers := walkArms_returnsAlive around (tryRisks around body p) handlers
      (tryCatch around body p) fun ⟨r, hr, alive⟩ => h (risks r hr alive)
    have inElse := walk_returnsAlive around orelse (tryGoOn around body handlers p) fun hg =>
      h (risks _ (by simp [tryRisks]) (isReachable_of_start hg))
    have parts : ReturnsAlive (tryEvents around body handlers orelse p) :=
      (startSegment_returnsAlive _ _ p).append inBody |>.append inHandlers
        |>.append (startSegment_returnsAlive _ _ _) |>.append inElse
    cases final with
    | none => exact parts.append (startSegment_returnsAlive _ _ _)
    | some final =>
      have inFinal := walk_returnsAlive around final (tryFinal around body handlers orelse p)
        fun hf => h (tryFinal_lands lands (walkArms_lands _ _ _ _) (walk_lands _ _ _) hf).1
      exact parts.append ((startSegment_returnsAlive _ _ _).append inFinal)
  | jump kind => exact leave_returnsAlive kind p h
  | codePath owner body =>
    exact ownPath_returnsAlive (some around.path) owner p.paths fun inside q none =>
      walk_returnsAlive inside body q fun _ t ht => by simp [none] at ht
termination_by structural f

theorem walkArms_returnsAlive (around : Surroundings) (starts : List Segment) (arms : List Flow)
    (p : Spot) (h : (∃ s ∈ starts, s.isReachable = true) → CanReturn around) :
    ReturnsAlive (walkArms around starts arms p).1 := by
  cases arms with
  | nil => simp [ReturnsAlive, walkArms]
  | cons arm arms =>
    exact ((startSegment_returnsAlive _ _ p).append
      (walk_returnsAlive around arm _ fun hs => h (startSegment_isReachable.1 hs))).append
        (walkArms_returnsAlive around starts arms _ h)
termination_by structural arms

theorem walkChain_returnsAlive (around : Surroundings) (arms : List Flow) (p : Spot)
    (h : p.current.isReachable = true → CanReturn around) :
    ReturnsAlive (walkChain around arms p).1 := by
  cases arms with
  | nil => simp [ReturnsAlive, walkChain]
  | cons arm arms =>
    exact ((startSegment_returnsAlive _ _ p).append
      (walk_returnsAlive around arm _ fun hs => h (isReachable_of_start hs))).append
        (walkChain_returnsAlive around arms _ fun hq =>
          h (isReachable_of_start ((walk_lands around arm _).current hq).1))
termination_by structural arms

end

end Flow

theorem Node.events_returnsAlive (n : Node) : Event.ReturnsAlive n.events :=
  Flow.ownPath_returnsAlive none n 0 fun inside p none =>
    n.programFlow.walk_returnsAlive inside p fun _ t ht => by simp [none] at ht

end LostUpdate
