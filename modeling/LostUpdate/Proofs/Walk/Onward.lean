import LostUpdate.Proofs.Walk.Leaving
import LostUpdate.Proofs.Walk.Trail

namespace LostUpdate

/-- Forward edges among `segments` lead from one to another. -/
def Segment.Reaches (segments : List Segment) : SegmentId → SegmentId → Prop :=
  Relation.ReflTransGen fun j k => ∃ s ∈ segments, s.id = k ∧ j ∈ s.previous

theorem Segment.Reaches.mono {segments more : List Segment} {j k : SegmentId}
    (h : Reaches segments j k) (hm : segments ⊆ more) : Reaches more j k := by
  induction h with
  | refl => exact .refl
  | tail _ edge ih =>
    obtain ⟨s, hs, edge⟩ := edge
    exact ih.tail ⟨s, hm hs, edge⟩

namespace Flow

open Walk Event

mutual

/-- Whether a flow can only be left at its end or by a raise, turns of loops aside. A raise may not
wait behind a final part. -/
def isOnward : Flow → Bool
  | idle | .enter _ | .exit _ | .codePath .. => true
  | .seq first second => first.isOnward && second.isOnward
  | .choose fallsThrough arms => (fallsThrough || !arms.isEmpty) && areOnward arms
  | .chain arms => areOnward arms
  | .loop head _ orelse => head.isOnward && orelse.isOnward
  | .attempt body handlers orelse final =>
    (final.isNone || !handlers.isEmpty) && body.isOnward && areOnward handlers && orelse.isOnward &&
      match final with
      | none => true
      | some final => final.isOnward
  | .jump kind => kind = .raiseOut

def areOnward : List Flow → Bool
  | [] => true
  | arm :: arms => arm.isOnward && areOnward arms

end

mutual

/-- The segments that start in turns of loops, where a flow is walked from a spot. -/
def turns (around : Surroundings) : Flow → Spot → List Segment
  | .seq first second, p => turns around first p ++ turns around second (walk around first p).2
  | .choose _ arms, p => turnsArms around [p.current] arms p
  | .chain arms, p => turnsChain around arms p
  | .loop head body orelse, p =>
    turns around head (loopStart around p) ++
      (segments (own 0 ((startSegment around.path [(loopFork around head p).current]
        (loopFork around head p)).1 ++
          (walk (insideLoop around p) body (loopTurn around head p)).1)) ++
      turns around orelse (loopExit around head body p))
  | .attempt body handlers orelse final, p =>
    turns around body (tryBody around p) ++
      (turnsArms around (tryRisks around body p) handlers (tryCatch around body p) ++
      (turns around orelse (tryGoOn around body handlers p) ++
      match final with
      | none => []
      | some final => turns around final (tryFinal around body handlers orelse p)))
  | _, _ => []

def turnsArms (around : Surroundings) (starts : List Segment) : List Flow → Spot → List Segment
  | [], _ => []
  | arm :: arms, p =>
    turns around arm (startSegment around.path starts p).2 ++
      turnsArms around starts arms (walk around arm (startSegment around.path starts p).2).2

def turnsChain (around : Surroundings) : List Flow → Spot → List Segment
  | [], _ => []
  | arm :: arms, p =>
    turns around arm (startSegment around.path [p.current] p).2 ++
      turnsChain around arms (walk around arm (startSegment around.path [p.current] p).2).2

end

/-- Along forward edges among `segments`, control can go from `s` to where `T` says. -/
def GoesOn (segments : List Segment) (T : Segment → Prop) (s : Segment) : Prop :=
  ∃ r, r.isReachable = true ∧ T r ∧ Segment.Reaches segments s.id r.id

/-- During `events` control can go on to where `T` says, from where `S` says and from every segment
that starts on the way, but for those that stray. -/
structure Drains (S : Segment → Prop) (events : List Event) (T : Segment → Prop)
    (stray : List Segment) : Prop where
  whole : Whole events
  before : ∀ s, S s → s.isReachable = true → GoesOn (segments (own 0 events)) T s
  during : ∀ s ∈ segments (own 0 events), s ∉ stray → s.isReachable = true →
    GoesOn (segments (own 0 events)) T s

variable {S S' T U : Segment → Prop} {first second events : List Event}
  {stray others : List Segment}

theorem GoesOn.refl {list : List Segment} {s : Segment} (h : T s) (hr : s.isReachable = true) :
    GoesOn list T s :=
  ⟨s, hr, h, .refl⟩

theorem GoesOn.mono {list more : List Segment} {s : Segment} (h : GoesOn list T s)
    (hl : list ⊆ more) (hT : ∀ r, r.isReachable = true → T r → U r) : GoesOn more U s := by
  obtain ⟨r, hr, ht, reaches⟩ := h
  exact ⟨r, hr, hT r hr ht, reaches.mono hl⟩

theorem GoesOn.trans {list : List Segment} {s : Segment} (h : GoesOn list T s)
    (hT : ∀ r, r.isReachable = true → T r → GoesOn list U r) : GoesOn list U s := by
  obtain ⟨r, hr, ht, reaches⟩ := h
  obtain ⟨z, hz, hu, further⟩ := hT r hr ht
  exact ⟨z, hz, hu, reaches.trans further⟩

namespace Drains

theorem quiet (whole : Whole events) (h : segments (own 0 events) = []) (hT : ∀ s, S s → T s) :
    Drains S events T [] :=
  ⟨whole, fun s hs hr => .refl (hT s hs) hr, by simp [h]⟩

theorem astray (whole : Whole events) : Drains S events S (segments (own 0 events)) :=
  ⟨whole, fun _ hs hr => .refl hs hr, fun _ hs hn => absurd hs hn⟩

theorem mono (h : Drains S events T stray)
    (hS : ∀ s, s.isReachable = true → S' s → S s ∨ U s)
    (hT : ∀ s, s.isReachable = true → T s → U s) : Drains S' events U stray := by
  refine ⟨h.whole, fun s hs hr => ?_, fun s hs hn hr =>
    (h.during s hs hn hr).mono (List.Subset.refl _) hT⟩
  rcases hS s hr hs with hs | hs
  · exact (h.before s hs hr).mono (List.Subset.refl _) hT
  · exact .refl hs hr

theorem wider (h : Drains S events T stray) (hs : stray ⊆ others) : Drains S events T others :=
  ⟨h.whole, h.before, fun s hm hn => h.during s hm fun mem => hn (hs mem)⟩

theorem frame (h : Drains S events T stray) (K : Segment → Prop) :
    Drains (fun s => S s ∨ K s) events (fun s => T s ∨ K s) stray :=
  h.mono (fun _ _ hs => hs.imp_right .inr) fun _ _ => .inl

theorem append (h : Drains S first T stray) (k : Drains T second U others) :
    Drains S (first ++ second) U (stray ++ others) := by
  have level : segments (own 0 (first ++ second)) =
      segments (own 0 first) ++ segments (own 0 second) := by
    rw [h.whole.level, segments_append]
  have further {s : Segment} (hs : GoesOn (segments (own 0 first)) T s) :
      GoesOn (segments (own 0 (first ++ second))) U s := by
    rw [level]
    exact (hs.mono (List.subset_append_left _ _) fun _ _ => id).trans fun r hr ht =>
      (k.before r ht hr).mono (List.subset_append_right _ _) fun _ _ => id
  refine ⟨h.whole.append k.whole, fun s hs hr => further (h.before s hs hr), fun s hs hn hr => ?_⟩
  rw [List.mem_append, not_or] at hn
  rw [level] at hs
  rcases List.mem_append.1 hs with hs | hs
  · exact further (h.during s hs hn.1 hr)
  · rw [level]
    exact (k.during s hs hn.2 hr).mono (List.subset_append_right _ _) fun _ _ => id

end Drains

variable {around : Surroundings} {p : Spot}

/-- Where control may be at a spot: in the segment that runs, or raised. -/
def Open (p : Spot) (s : Segment) : Prop := s = p.current ∨ s ∈ p.thrown

/-- A new segment goes on from all that it comes behind. -/
theorem startSegment_drains (path : PathId) (previous : List Segment) (p : Spot) :
    Drains (fun s => s ∈ previous ∨ s ∈ p.thrown) (startSegment path previous p).1
      (Open (startSegment path previous p).2) [] := by
  refine ⟨startSegment_whole path previous p, fun s hs hr => ?_, fun s hs _ hr => ?_⟩
  · rcases hs with hs | hs
    · refine ⟨_, startSegment_isReachable.2 ⟨s, hs, hr⟩, .inl rfl, .single ⟨_, ?_, rfl,
        mem_previous_startSegment.2 ⟨s, hs, hr, rfl⟩⟩⟩
      exact List.mem_cons_self
    · exact .refl (.inr hs) hr
  · obtain rfl : s = (startSegment path previous p).2.current := List.mem_singleton.1 hs
    exact .refl (.inl rfl) hr

theorem segments_goBack (target : Segment) (p : Spot) :
    segments (own 0 (goBack target p).1) = [] := by
  unfold goBack
  split_ifs <;> rfl

theorem startOne_drains (path : PathId) (p : Spot) :
    Drains (Open p) (startSegment path [p.current] p).1
      (Open (startSegment path [p.current] p).2) [] :=
  (startSegment_drains path [p.current] p).mono (fun _ _ hs => .inl (by simpa [Open] using hs))
    fun _ _ => id

/-- A loop goes on behind its head. What starts in a turn may only lead back. -/
theorem loop_drains {head body orelse : Flow}
    (inHead : Drains (Open (loopStart around p)) (walk around head (loopStart around p)).1
      (Open (loopFork around head p)) (turns around head (loopStart around p)))
    (inElse : Drains (Open (loopExit around head body p))
      (walk around orelse (loopExit around head body p)).1
      (Open (loopElse around head body orelse p))
      (turns around orelse (loopExit around head body p))) :
    Drains (Open p) (walk around (.loop head body orelse) p).1
      (Open (loopAfter around head body orelse p)) (turns around (.loop head body orelse) p) := by
  have turn : Drains (Open (loopFork around head p)) _ (Open (loopFork around head p)) _ :=
    .astray ((startSegment_whole around.path [(loopFork around head p).current]
      (loopFork around head p)).append
        (walk_whole (insideLoop around p) body (loopTurn around head p)))
  have back : Drains (Open (loopFork around head p))
      (goBack (loopStart around p).current (loopEnd around head body p)).1
      (Open (loopFork around head p)) [] :=
    .quiet (goBack_whole _ _) (segments_goBack _ _) fun _ => id
  have raised : (loopFork around head p).thrown ⊆ (loopEnd around head body p).thrown :=
    walk_left (insideLoop around p) body (loopTurn around head p) .raiseOut
  have leaving : Drains (Open (loopFork around head p)) _ (Open (loopExit around head body p)) [] :=
    (startSegment_drains around.path [(loopFork around head p).current]
      { loopEnd around head body p with broken := (loopFork around head p).broken }).mono
      (fun s _ hs => .inl (hs.imp List.mem_singleton.2 fun hs => raised hs)) fun _ _ => id
  have after : Drains (Open (loopElse around head body orelse p)) _
      (Open (loopAfter around head body orelse p)) [] :=
    (startSegment_drains around.path
      ((loopElse around head body orelse p).current :: (loopEnd around head body p).broken)
      (loopElse around head body orelse p)).mono
      (fun s _ hs => .inl (hs.imp_left fun hs => List.mem_cons.2 (.inl hs))) fun _ _ => id
  have all := ((startOne_drains around.path p).append inHead).append turn |>.append back
    |>.append leaving |>.append inElse |>.append after
  rw [walk_loop]
  simp only [List.append_assoc] at all ⊢
  exact all.wider (by simp [turns])

section Attempt

variable {body orelse : Flow} {handlers : List Flow}

/-- Up to the end of the part after the body, control goes on to the normal ends of a `try` or to a
raise out of it. Only past no handlers a raise in the body goes on by itself. -/
theorem tryElse_drains
    (inBody : Drains (Open (tryBody around p)) (walk around body (tryBody around p)).1
      (Open (tryEnd around body p)) (turns around body (tryBody around p)))
    (inHandlers : Drains
      (fun s => s ∈ tryRisks around body p ∧ handlers ≠ [] ∨ s ∈ (tryCatch around body p).thrown)
      (walkArms around (tryRisks around body p) handlers (tryCatch around body p)).1
      (fun s => s ∈ (tryHandled around body handlers p).1 ∨
        s ∈ (tryHandled around body handlers p).2.thrown)
      (turnsArms around (tryRisks around body p) handlers (tryCatch around body p)))
    (inElse : Drains (Open (tryGoOn around body handlers p))
      (walk around orelse (tryGoOn around body handlers p)).1
      (Open (tryElse around body handlers orelse p))
      (turns around orelse (tryGoOn around body handlers p))) :
    Drains (Open p) (tryEvents around body handlers orelse p)
      (fun s => s ∈ tryEnds around body handlers orelse p ∨
        s ∈ (tryElse around body handlers orelse p).thrown ∨
          handlers = [] ∧ s ∈ (tryEnd around body p).thrown)
      (turns around (.attempt body handlers orelse none) p) := by
  have start : Drains (Open p) _ (fun s => Open (tryBody around p) s ∨ s ∈ p.thrown) [] :=
    (startOne_drains around.path p).mono (fun _ _ => .inl) fun s _ hs => hs.imp_left .inl
  -- Past no handlers control stays at the end of the body and at its raises.
  have handled : Drains (fun s => Open (tryEnd around body p) s ∨ s ∈ p.thrown) _
      (fun s => (s ∈ (tryHandled around body handlers p).1 ∨
        s ∈ (tryHandled around body handlers p).2.thrown) ∨
          handlers = [] ∧ Open (tryEnd around body p) s) _ := inHandlers.mono (fun s _ hs => by
    by_cases none : handlers = []
    · exact hs.elim (fun hs => .inr (.inr ⟨none, hs⟩)) fun hs => .inl (.inr hs)
    · refine .inl (hs.imp_left fun hs => ⟨?_, none⟩)
      rcases hs with rfl | hs
      · exact List.mem_cons_of_mem _ List.mem_cons_self
      · exact List.mem_cons_of_mem _ (List.mem_cons_of_mem _ hs)) fun _ _ => .inl
  have goOn := (startSegment_drains around.path [(tryEnd around body p).current]
    (tryHandled around body handlers p).2).append inElse
  have kept := goOn.frame fun s => s ∈ (tryHandled around body handlers p).1 ∨
    handlers = [] ∧ s ∈ (tryEnd around body p).thrown
  have all := (start.append (inBody.frame (· ∈ p.thrown))).append handled |>.append
    (kept.mono (fun s _ hs => .inl ?_) fun _ _ => id)
  · rw [tryEvents]
    simp only [List.append_assoc] at all ⊢
    refine (all.wider (by simp [turns])).mono (fun _ _ => .inl) fun s _ hs => ?_
    rcases hs with (rfl | hs) | hs | hs
    · exact .inl List.mem_cons_self
    · exact .inr (.inl hs)
    · exact .inl (List.mem_cons_of_mem _ hs)
    · exact .inr (.inr hs)
  · rcases hs with (hs | hs) | ⟨none, rfl | hs⟩
    · exact .inr (.inl hs)
    · exact .inl (.inr hs)
    · exact .inl (.inl List.mem_cons_self)
    · exact .inr (.inr ⟨none, hs⟩)

theorem tryLeft_drains {stray : List Segment}
    (h : Drains (Open p) (tryEvents around body handlers orelse p)
      (fun s => s ∈ tryEnds around body handlers orelse p ∨
        s ∈ (tryElse around body handlers orelse p).thrown ∨
          handlers = [] ∧ s ∈ (tryEnd around body p).thrown) stray) :
    Drains (Open p) (walk around (.attempt body handlers orelse none) p).1
      (Open (walk around (.attempt body handlers orelse none) p).2) stray := by
  have after := startSegment_drains around.path (tryEnds around body handlers orelse p)
    (tryLeft around body handlers orelse p)
  have all := (h.mono (fun _ _ => .inl) fun s _ hs => hs.imp_right ?_).append after
  · rwa [List.append_nil] at all
  · rintro (raised | ⟨none, caught⟩)
    · exact List.mem_append_left _ raised
    · exact List.mem_append_right _ (by simpa [none] using caught)

theorem tryFinal_drains {stray : List Segment} (hne : handlers ≠ [])
    (h : Drains (Open p) (tryEvents around body handlers orelse p)
      (fun s => s ∈ tryEnds around body handlers orelse p ∨
        s ∈ (tryElse around body handlers orelse p).thrown ∨
          handlers = [] ∧ s ∈ (tryEnd around body p).thrown) stray) :
    Drains (Open p) (tryEvents around body handlers orelse p ++
        (startSegment around.path (tryExits around body handlers orelse p)
          (tryElse around body handlers orelse p)).1)
      (Open (tryFinal around body handlers orelse p)) stray := by
  have after := startSegment_drains around.path (tryExits around body handlers orelse p)
    (tryElse around body handlers orelse p)
  have all := (h.mono (fun _ _ => .inl) fun s hr hs => ?_).append after
  · rwa [List.append_nil] at all
  · rcases hs with hs | hs | ⟨none, -⟩
    · have some : (tryEnds around body handlers orelse p).any (·.isReachable) = true :=
        List.any_eq_true.2 ⟨s, hs, hr⟩
      rw [tryExits, if_pos some]
      exact .inl hs
    · exact .inr hs
    · exact absurd none hne

end Attempt

mutual

/-- From where it starts and from every segment that starts on its way, but for those in turns of
loops, control can go on to the end of an onward flow or to a raise out of it. -/
theorem walk_drains (around : Surroundings) (f : Flow) (p : Spot) (h : f.isOnward = true) :
    Drains (Open p) (walk around f p).1 (Open (walk around f p).2) (turns around f p) := by
  cases f with
  | idle => exact .quiet .nil rfl fun _ => id
  | enter n => exact .quiet (.enter n) rfl fun _ => id
  | exit n => exact .quiet (.exit n) rfl fun _ => id
  | codePath owner body =>
    exact .quiet (walk_whole _ _ _) (by rw [own_walk_codePath, segments]) fun _ => id
  | seq first second =>
    rw [isOnward, Bool.and_eq_true] at h
    exact (walk_drains around first p h.1).append (walk_drains around second _ h.2)
  | choose fallsThrough arms =>
    rw [isOnward, Bool.and_eq_true] at h
    have inArms : Drains (Open p) _ (fun s => s ∈ (if fallsThrough then [p.current] else []) ++
        (walkArms around [p.current] arms p).2.1 ∨
          s ∈ (walkArms around [p.current] arms p).2.2.thrown) _ :=
      (walkArms_drains around [p.current] arms p h.2).mono (fun s _ hs => by
        rcases hs with rfl | hs
        · cases fallsThrough with
          | true => exact .inr (.inl (by simp))
          | false => exact .inl (.inl ⟨by simp, by simpa using h.1⟩)
        · exact .inl (.inr hs)) fun s _ hs => hs.imp_left (List.mem_append_right _)
    have all := inArms.append (startSegment_drains around.path _ _)
    rwa [List.append_nil] at all
  | chain arms =>
    have inArms := walkChain_drains around arms p h
    have after := startSegment_drains around.path (walkChain around arms p).2.1
      (walkChain around arms p).2.2
    have all := inArms.append after
    rwa [List.append_nil] at all
  | loop head body orelse =>
    rw [isOnward, Bool.and_eq_true] at h
    exact loop_drains (walk_drains around head _ h.1) (walk_drains around orelse _ h.2)
  | attempt body handlers orelse final =>
    rw [isOnward.eq_def] at h
    simp only [Bool.and_eq_true] at h
    obtain ⟨⟨⟨⟨caught, inBody⟩, inHandlers⟩, inElse⟩, inFinal⟩ := h
    have parts := tryElse_drains (walk_drains around body (tryBody around p) inBody)
      (walkArms_drains around (tryRisks around body p) handlers (tryCatch around body p) inHandlers)
      (walk_drains around orelse (tryGoOn around body handlers p) inElse)
    cases final with
    | none => exact (tryLeft_drains parts).wider (by simp [turns])
    | some final =>
      have some : handlers ≠ [] := by simpa using caught
      have all := (tryFinal_drains some parts).append (walk_drains around final _ inFinal)
      rw [List.append_assoc] at all
      exact all.wider (by simp [turns])
  | jump kind =>
    obtain rfl : kind = .raiseOut := of_decide_eq_true h
    refine ⟨startSegment_whole _ _ _, fun s hs hr => .refl (.inr ?_) hr, fun s hs _ hr => ?_⟩
    · rcases hs with rfl | hs
      · exact List.mem_append_right _ List.mem_cons_self
      · exact List.mem_append_left _ hs
    · obtain rfl := List.mem_singleton.1 hs
      cases hr
termination_by structural f

theorem walkArms_drains (around : Surroundings) (starts : List Segment) (arms : List Flow)
    (p : Spot) (h : areOnward arms = true) :
    Drains (fun s => s ∈ starts ∧ arms ≠ [] ∨ s ∈ p.thrown) (walkArms around starts arms p).1
      (fun s => s ∈ (walkArms around starts arms p).2.1 ∨
        s ∈ (walkArms around starts arms p).2.2.thrown)
      (turnsArms around starts arms p) := by
  cases arms with
  | nil => exact .quiet .nil rfl fun s hs => hs.imp_left fun hs => absurd rfl hs.2
  | cons arm arms =>
    rw [areOnward, Bool.and_eq_true] at h
    have start := startSegment_drains around.path starts p
    have inArm := walk_drains around arm (startSegment around.path starts p).2 h.1
    have inRest := walkArms_drains around starts arms
      (walk around arm (startSegment around.path starts p).2).2 h.2
    refine ((start.append inArm).mono (fun s _ hs => .inl (hs.imp_left And.left))
      fun _ _ => id).append
        (inRest.mono (fun s _ hs => ?_) fun s _ hs => hs.imp_left (List.mem_cons_of_mem _))
    rcases hs with rfl | hs
    · exact .inr (.inl List.mem_cons_self)
    · exact .inl (.inr hs)
termination_by structural arms

theorem walkChain_drains (around : Surroundings) (arms : List Flow) (p : Spot)
    (h : areOnward arms = true) : Drains (Open p) (walkChain around arms p).1
      (fun s => s ∈ (walkChain around arms p).2.1 ∨ s ∈ (walkChain around arms p).2.2.thrown)
      (turnsChain around arms p) := by
  cases arms with
  | nil => exact .quiet .nil rfl fun s hs => hs.imp_left fun hs => List.mem_singleton.2 hs
  | cons arm arms =>
    rw [areOnward, Bool.and_eq_true] at h
    have inArm := (startOne_drains around.path p).append (walk_drains around arm _ h.1)
    have inRest := walkChain_drains around arms
      (walk around arm (startSegment around.path [p.current] p).2).2 h.2
    exact (inArm.append inRest).mono (fun s _ => .inl) fun s _ hs =>
      hs.imp_left (List.mem_cons_of_mem _)
termination_by structural arms

end

end Flow

end LostUpdate
