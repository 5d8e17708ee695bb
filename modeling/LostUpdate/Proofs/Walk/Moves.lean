import LostUpdate.Proofs.Walk.Level

namespace LostUpdate

/-- A point in a code path: the segment that runs and the names evaluated in it so far. -/
structure Point where
  segment : Segment
  names : List Node

/-- The names in each segment. -/
abbrev Contents := SegmentId → List Node

namespace Point

def record (x : Point) : Event → Point
  | .segment s => ⟨s, []⟩
  | e => ⟨x.segment, x.names ++ e.names⟩

def after (x : Point) (events : List Event) : Point := events.foldl record x

/-- Whether `contents` tells the names in every segment that ends on the way. -/
def Told (contents : Contents) : Point → List Event → Prop
  | _, [] => True
  | x, e :: later =>
    ((∃ s, e = .segment s) → contents x.segment.id = x.names) ∧ Told contents (x.record e) later

variable {contents : Contents} {x : Point}

@[simp] theorem after_nil (x : Point) : x.after [] = x := rfl

theorem after_append (x : Point) (first second : List Event) :
    x.after (first ++ second) = (x.after first).after second :=
  List.foldl_append

/-- The segment that runs in the end has run all along or started on the way. -/
theorem segment_after (x : Point) (events : List Event) :
    (x.after events).segment = x.segment ∨ .segment (x.after events).segment ∈ events := by
  induction events generalizing x with
  | nil => exact .inl rfl
  | cons e events ih =>
    rcases ih (x.record e) with h | h
    · cases e with
      | segment s => exact .inr (List.mem_cons.2 (.inl (congrArg Event.segment h)))
      | _ => exact .inl h
    · exact .inr (List.mem_cons_of_mem _ h)

theorem told_append {first second : List Event} : x.Told contents (first ++ second) ↔
    x.Told contents first ∧ (x.after first).Told contents second := by
  induction first generalizing x with
  | nil => simp [Told]
  | cons e first ih => simp [Told, ih, and_assoc, after]

end Point

/-- The segments at which jumps have left, by the kind of jump. -/
def Spot.left (p : Spot) : Jump → List Segment
  | .breakLoop => p.broken
  | .continueLoop => []
  | .returnOut => p.returned
  | .raiseOut => p.thrown

/-- Events that lead from one spot to another in the same path. -/
structure Moves (p : Spot) (events : List Event) (q : Spot) : Prop where
  whole : Event.Whole events
  current : ∀ x : Point, x.segment = p.current → (x.after (Event.own 0 events)).segment = q.current
  segments : p.segments ≤ q.segments

namespace Moves

variable {p q q' r : Spot} {first second : List Event}

theorem refl (p : Spot) : Moves p [] p := ⟨.nil, fun _ h => h, Nat.le_refl _⟩

theorem trans (h : Moves p first q) (k : Moves q' second r)
    (hc : q'.current = q.current := by rfl) (hs : q'.segments = q.segments := by rfl) :
    Moves p (first ++ second) r := by
  refine ⟨h.whole.append k.whole, fun x hx => ?_, Nat.le_trans h.segments (hs ▸ k.segments)⟩
  rw [h.whole.level, Point.after_append]
  exact k.current _ ((h.current x hx).trans hc.symm)

theorem level (h : Moves p first q) (later : List Event) :
    Event.own 0 (first ++ later) = Event.own 0 first ++ Event.own 0 later :=
  h.whole.level later

end Moves

namespace Walk

theorem startSegment_moves (path : PathId) (previous : List Segment) (p : Spot) :
    Moves p (startSegment path previous p).1 (startSegment path previous p).2 :=
  ⟨startSegment_whole path previous p, fun _ _ => rfl, Nat.le_succ _⟩

theorem startSegment_left (path : PathId) (previous : List Segment) (p : Spot) (k : Jump) :
    (startSegment path previous p).2.left k = p.left k := by
  cases k <;> rfl

theorem goBack_moves (target : Segment) (p : Spot) :
    Moves p (goBack target p).1 (goBack target p).2 := by
  refine ⟨goBack_whole target p, fun x hx => ?_, Nat.le_refl _⟩
  unfold goBack
  split_ifs <;> exact hx

/-- An edge back is drawn at the end of a segment. -/
theorem names_of_goBack {contents : Contents} {x : Point} {target s : Segment} {p : Spot}
    {later : List Event}
    (h : x.Told contents (Event.own 0 (goBack target p).1 ++ .segment s :: later)) :
    contents x.segment.id = x.names := by
  unfold goBack at h
  split_ifs at h
  · have ended : contents x.segment.id = x.names ++ [] := h.2.1 ⟨s, rfl⟩
    rwa [List.append_nil] at ended
  · exact h.1 ⟨s, rfl⟩

theorem leave_moves (around : Surroundings) (kind : Jump) (p : Spot) :
    Moves p (leave around kind p).1 (leave around kind p).2 := by
  cases kind with
  | continueLoop =>
    unfold leave
    dsimp only
    split
    · exact (goBack_moves _ p).trans (startSegment_moves _ _ _)
    · exact startSegment_moves _ _ p
  | breakLoop => exact ⟨startSegment_whole _ _ _, fun _ _ => rfl, Nat.le_succ _⟩
  | returnOut => exact ⟨startSegment_whole _ _ _, fun _ _ => rfl, Nat.le_succ _⟩
  | raiseOut => exact ⟨startSegment_whole _ _ _, fun _ _ => rfl, Nat.le_succ _⟩

end Walk

namespace Flow

open Walk

mutual

theorem walk_moves (around : Surroundings) (f : Flow) (p : Spot) :
    Moves p (walk around f p).1 (walk around f p).2 := by
  cases f with
  | idle => exact .refl p
  | enter n => exact ⟨.enter n, fun _ h => h, Nat.le_refl _⟩
  | exit n => exact ⟨.exit n, fun _ h => h, Nat.le_refl _⟩
  | seq first second => exact (walk_moves around first p).trans (walk_moves around second _)
  | choose fallsThrough arms =>
    exact (walkArms_moves around [p.current] arms p).trans (startSegment_moves _ _ _)
  | chain arms => exact (walkChain_moves around arms p).trans (startSegment_moves _ _ _)
  | loop head body orelse =>
    exact (startSegment_moves _ _ p).trans (walk_moves _ head _)
      |>.trans (startSegment_moves _ _ _) |>.trans (walk_moves _ body _)
      |>.trans (goBack_moves _ _) |>.trans (startSegment_moves _ _ _)
      |>.trans (walk_moves _ orelse _) |>.trans (startSegment_moves _ _ _)
  | attempt body handlers orelse final =>
    cases final with
    | none =>
      exact (startSegment_moves _ _ p).trans (walk_moves around body _)
        |>.trans (walkArms_moves around _ handlers _)
        |>.trans (startSegment_moves _ _ _) |>.trans (walk_moves around orelse _)
        |>.trans (startSegment_moves _ _ _)
    | some final =>
      exact (startSegment_moves _ _ p).trans (walk_moves around body _)
        |>.trans (walkArms_moves around _ handlers _)
        |>.trans (startSegment_moves _ _ _) |>.trans (walk_moves around orelse _)
        |>.trans ((startSegment_moves _ _ _).trans (walk_moves around final _))
  | jump kind => exact leave_moves around kind p
  | codePath owner body =>
    refine ⟨walk_whole around (.codePath owner body) p, fun x hx => ?_, Nat.le_refl _⟩
    rw [own_walk_codePath]
    exact hx
termination_by structural f

theorem walkArms_moves (around : Surroundings) (starts : List Segment) (arms : List Flow)
    (p : Spot) :
    Moves p (walkArms around starts arms p).1 (walkArms around starts arms p).2.2 := by
  cases arms with
  | nil => exact .refl p
  | cons arm arms =>
    exact (startSegment_moves _ _ p).trans (walk_moves around arm _)
      |>.trans (walkArms_moves around starts arms _)
termination_by structural arms

theorem walkChain_moves (around : Surroundings) (arms : List Flow) (p : Spot) :
    Moves p (walkChain around arms p).1 (walkChain around arms p).2.2 := by
  cases arms with
  | nil => exact .refl p
  | cons arm arms =>
    exact (startSegment_moves _ _ p).trans (walk_moves around arm _)
      |>.trans (walkChain_moves around arms _)
termination_by structural arms

end

theorem walkArms_first (around : Surroundings) (starts : List Segment) (arms : List Flow) (p : Spot)
    (z : Segment) : ∃ s later,
      Event.own 0 (walkArms around starts arms p).1 ++ [.segment z] = .segment s :: later := by
  cases arms with
  | nil => exact ⟨z, [], rfl⟩
  | cons arm arms => exact ⟨_, _, rfl⟩

section Loop

variable (around : Surroundings) (head body orelse : Flow) (p : Spot)

/-- Where the head of a loop starts. -/
def loopStart : Spot := (startSegment around.path [p.current] p).2

/-- Where the head has ended, before a turn or the end of the loop. -/
def loopFork : Spot := (walk around head (loopStart around p)).2

/-- What surrounds the body of a loop. -/
def insideLoop : Surroundings := { around with continuation := some (loopStart around p).current }

/-- Where the body starts. -/
def loopTurn : Spot :=
  { (startSegment around.path [(loopFork around head p).current] (loopFork around head p)).2 with
    broken := [] }

/-- Where the body has ended. -/
def loopEnd : Spot := (walk (insideLoop around p) body (loopTurn around head p)).2

/-- Where the loop has ended from its head. -/
def loopExit : Spot :=
  (startSegment around.path [(loopFork around head p).current]
    { loopEnd around head body p with broken := (loopFork around head p).broken }).2

/-- Where what follows that end has ended. -/
def loopElse : Spot := (walk around orelse (loopExit around head body p)).2

/-- Where the loop has ended, from its head or its body. -/
def loopAfter : Spot :=
  (startSegment around.path
    ((loopElse around head body orelse p).current :: (loopEnd around head body p).broken)
    (loopElse around head body orelse p)).2

theorem walk_loop : walk around (.loop head body orelse) p =
    ((startSegment around.path [p.current] p).1 ++ (walk around head (loopStart around p)).1 ++
      (startSegment around.path [(loopFork around head p).current] (loopFork around head p)).1 ++
      (walk (insideLoop around p) body (loopTurn around head p)).1 ++
      (goBack (loopStart around p).current (loopEnd around head body p)).1 ++
      (startSegment around.path [(loopFork around head p).current]
        { loopEnd around head body p with broken := (loopFork around head p).broken }).1 ++
      (walk around orelse (loopExit around head body p)).1 ++
      (startSegment around.path
        ((loopElse around head body orelse p).current :: (loopEnd around head body p).broken)
        (loopElse around head body orelse p)).1, loopAfter around head body orelse p) :=
  rfl

theorem own_walk_loop : Event.own 0 (walk around (.loop head body orelse) p).1 =
    Event.own 0 (startSegment around.path [p.current] p).1 ++
      (Event.own 0 (walk around head (loopStart around p)).1 ++
      (Event.own 0
        (startSegment around.path [(loopFork around head p).current] (loopFork around head p)).1 ++
      (Event.own 0 (walk (insideLoop around p) body (loopTurn around head p)).1 ++
      (Event.own 0 (goBack (loopStart around p).current (loopEnd around head body p)).1 ++
      (Event.own 0 (startSegment around.path [(loopFork around head p).current]
        { loopEnd around head body p with broken := (loopFork around head p).broken }).1 ++
      (Event.own 0 (walk around orelse (loopExit around head body p)).1 ++
      Event.own 0 (startSegment around.path
        ((loopElse around head body orelse p).current :: (loopEnd around head body p).broken)
        (loopElse around head body orelse p)).1)))))) := by
  simp only [walk_loop, List.append_assoc]
  rw [(startSegment_moves _ _ _).level, (walk_moves around head _).level,
    (startSegment_moves _ _ _).level, (walk_moves _ body _).level, (goBack_moves _ _).level,
    (startSegment_moves _ _ _).level, (walk_moves around orelse _).level]

end Loop

section Attempt

variable (around : Surroundings) (body : Flow) (handlers : List Flow) (orelse : Flow) (p : Spot)

/-- Where a `try` starts. -/
def tryStart : Spot := (startSegment around.path [p.current] p).2

/-- Where its body starts. What leaves the body is kept apart. -/
def tryBody : Spot := { tryStart around p with returned := [], thrown := [] }

/-- Where the body has ended. -/
def tryEnd : Spot := (walk around body (tryBody around p)).2

/-- What every handler comes behind: the start, the end of the body, and what the body has raised. -/
def tryRisks : List Segment :=
  (tryStart around p).current :: (tryEnd around body p).current :: (tryEnd around body p).thrown

/-- Where the handlers start. What leaves them leaves the `try`. -/
def tryCatch : Spot := { tryEnd around body p with returned := p.returned, thrown := p.thrown }

/-- The ends of the handlers, and where the last one has ended. -/
def tryHandled : List Segment × Spot :=
  (walkArms around (tryRisks around body p) handlers (tryCatch around body p)).2

/-- Where the part after a normal end of the body starts. -/
def tryGoOn : Spot :=
  (startSegment around.path [(tryEnd around body p).current] (tryHandled around body handlers p).2).2

/-- Where that part has ended. -/
def tryElse : Spot := (walk around orelse (tryGoOn around body handlers p)).2

/-- The normal ends. -/
def tryEnds : List Segment :=
  (tryElse around body handlers orelse p).current :: (tryHandled around body handlers p).1

/-- What a final part comes behind: the normal ends or, with none that can be reached, what has left
the body. -/
def tryExits : List Segment :=
  if (tryEnds around body handlers orelse p).any (·.isReachable) then
    tryEnds around body handlers orelse p
  else (tryEnd around body p).thrown ++ (tryEnd around body p).returned

/-- Where a final part starts. -/
def tryFinal : Spot :=
  (startSegment around.path (tryExits around body handlers orelse p)
    (tryElse around body handlers orelse p)).2

/-- Without a final part, what has left the body leaves the `try`, but for what handlers take. -/
def tryLeft : Spot :=
  { tryElse around body handlers orelse p with
    returned := (tryElse around body handlers orelse p).returned ++ (tryEnd around body p).returned
    thrown := (tryElse around body handlers orelse p).thrown ++
      if handlers.isEmpty then (tryEnd around body p).thrown else [] }

/-- What happens up to the end of the part after the body. -/
def tryEvents : List Event :=
  (startSegment around.path [p.current] p).1 ++ (walk around body (tryBody around p)).1 ++
    (walkArms around (tryRisks around body p) handlers (tryCatch around body p)).1 ++
    (startSegment around.path [(tryEnd around body p).current] (tryHandled around body handlers p).2).1 ++
    (walk around orelse (tryGoOn around body handlers p)).1

theorem walk_attempt_none : walk around (.attempt body handlers orelse none) p =
    (tryEvents around body handlers orelse p ++
      (startSegment around.path (tryEnds around body handlers orelse p)
        (tryLeft around body handlers orelse p)).1,
      (startSegment around.path (tryEnds around body handlers orelse p)
        (tryLeft around body handlers orelse p)).2) :=
  rfl

theorem walk_attempt_some (final : Flow) : walk around (.attempt body handlers orelse (some final)) p =
    (tryEvents around body handlers orelse p ++
      ((startSegment around.path (tryExits around body handlers orelse p)
        (tryElse around body handlers orelse p)).1 ++
          (walk around final (tryFinal around body handlers orelse p)).1),
      (walk around final (tryFinal around body handlers orelse p)).2) :=
  rfl

end Attempt

theorem leave_left (around : Surroundings) (kind : Jump) (p : Spot) (k : Jump) :
    p.left k ⊆ (leave around kind p).2.left k := by
  cases kind with
  | continueLoop =>
    unfold leave
    dsimp only
    split <;> exact List.Subset.refl _
  | breakLoop | returnOut | raiseOut =>
    cases k <;> first | exact List.subset_append_left _ _ | exact List.Subset.refl _

mutual

/-- What has left by a jump before a walk has left after it. -/
theorem walk_left (around : Surroundings) (f : Flow) (p : Spot) (k : Jump) :
    p.left k ⊆ (walk around f p).2.left k := by
  cases f with
  | idle => exact List.Subset.refl _
  | enter n => exact List.Subset.refl _
  | exit n => exact List.Subset.refl _
  | codePath owner body => cases k <;> exact List.Subset.refl _
  | seq first second =>
    exact List.Subset.trans (walk_left around first p k) (walk_left around second _ k)
  | choose fallsThrough arms => exact walkArms_left around [p.current] arms p k
  | chain arms => exact walkChain_left around arms p k
  | loop head body orelse =>
    have inHead := walk_left around head (loopStart around p) k
    have inBody := walk_left (insideLoop around p) body (loopTurn around head p) k
    have inElse := walk_left around orelse (loopExit around head body p) k
    cases k with
    | breakLoop => exact List.Subset.trans inHead inElse
    | continueLoop => exact List.nil_subset _
    | returnOut | raiseOut => exact List.Subset.trans (List.Subset.trans inHead inBody) inElse
  | attempt body handlers orelse final =>
    have inBody := walk_left around body (tryBody around p) k
    have inHandlers :=
      walkArms_left around (tryRisks around body p) handlers (tryCatch around body p) k
    have inElse := walk_left around orelse (tryGoOn around body handlers p) k
    have parts : p.left k ⊆ (tryElse around body handlers orelse p).left k := by
      cases k with
      | breakLoop => exact List.Subset.trans inBody (List.Subset.trans inHandlers inElse)
      | continueLoop => exact List.nil_subset _
      | returnOut | raiseOut => exact List.Subset.trans inHandlers inElse
    cases final with
    | none =>
      refine List.Subset.trans parts ?_
      cases k with
      | returnOut | raiseOut => exact List.subset_append_left _ _
      | breakLoop | continueLoop => exact List.Subset.refl _
    | some final =>
      have inFinal := walk_left around final (tryFinal around body handlers orelse p) k
      rw [tryFinal, startSegment_left] at inFinal
      exact List.Subset.trans parts inFinal
  | jump kind => exact leave_left around kind p k
termination_by structural f

theorem walkArms_left (around : Surroundings) (starts : List Segment) (arms : List Flow) (p : Spot)
    (k : Jump) : p.left k ⊆ (walkArms around starts arms p).2.2.left k := by
  cases arms with
  | nil => exact List.Subset.refl _
  | cons arm arms =>
    exact List.Subset.trans (walk_left around arm (startSegment around.path starts p).2 k)
      (walkArms_left around starts arms _ k)
termination_by structural arms

theorem walkChain_left (around : Surroundings) (arms : List Flow) (p : Spot) (k : Jump) :
    p.left k ⊆ (walkChain around arms p).2.2.left k := by
  cases arms with
  | nil => exact List.Subset.refl _
  | cons arm arms =>
    exact List.Subset.trans (walk_left around arm (startSegment around.path [p.current] p).2 k)
      (walkChain_left around arms _ k)
termination_by structural arms

end

end Flow

end LostUpdate
