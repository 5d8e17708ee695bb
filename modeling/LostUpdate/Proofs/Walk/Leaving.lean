import LostUpdate.Proofs.Walk.Moves

namespace LostUpdate

namespace Flow

/-- Control can leave a flow at its end, or by a jump. Any part of the body of an attempt may raise,
so its handlers can always be reached. A jump out of an attempt passes by the final part, but a body
that is left by a return or a raise goes on with it. -/
inductive LeavesBy : Option Jump → Flow → Prop
  | idle : LeavesBy none idle
  | enter (n : Node) : LeavesBy none (.enter n)
  | exit (n : Node) : LeavesBy none (.exit n)
  | codePath (owner : Node) (body : Flow) : LeavesBy none (.codePath owner body)
  | jump (k : Jump) : LeavesBy (some k) (.jump k)
  | first {k f e} : LeavesBy (some k) f → LeavesBy (some k) (.seq f e)
  | second {o f e} : LeavesBy none f → LeavesBy o e → LeavesBy o (.seq f e)
  | skip {arms} : LeavesBy none (.choose true arms)
  | arm {o f arms fallsThrough} : f ∈ arms → LeavesBy o f → LeavesBy o (.choose fallsThrough arms)
  | stop {arms} : LeavesBy none (.chain arms)
  | link {k f arms} : LeavesBy (some k) f → LeavesBy (some k) (.chain (f :: arms))
  | further {k f arms} : LeavesBy none f → LeavesBy (some k) (.chain arms) →
      LeavesBy (some k) (.chain (f :: arms))
  | head {k head body orelse} : LeavesBy (some k) head → LeavesBy (some k) (.loop head body orelse)
  | broken {head body orelse} : LeavesBy none head → LeavesBy (some .breakLoop) body →
      LeavesBy none (.loop head body orelse)
  | turn {k head body orelse} : LeavesBy none head → LeavesBy (some k) body →
      k = .returnOut ∨ k = .raiseOut → LeavesBy (some k) (.loop head body orelse)
  | exhausted {o head body orelse} : LeavesBy none head → LeavesBy o orelse →
      LeavesBy o (.loop head body orelse)
  | attempted {k body handlers orelse} : LeavesBy (some k) body → (k = .raiseOut → handlers = []) →
      LeavesBy (some k) (.attempt body handlers orelse none)
  | handled {o f body handlers orelse} : f ∈ handlers → LeavesBy o f →
      LeavesBy o (.attempt body handlers orelse none)
  | succeeded {o body handlers orelse} : LeavesBy none body → LeavesBy o orelse →
      LeavesBy o (.attempt body handlers orelse none)
  | past {k body handlers orelse final} : LeavesBy (some k) (.attempt body handlers orelse none) →
      LeavesBy (some k) (.attempt body handlers orelse (some final))
  | final {o body handlers orelse final} : LeavesBy none (.attempt body handlers orelse none) →
      LeavesBy o final → LeavesBy o (.attempt body handlers orelse (some final))
  | unwound {k o body handlers orelse final} : LeavesBy (some k) body →
      k = .returnOut ∨ k = .raiseOut → LeavesBy o final →
      LeavesBy o (.attempt body handlers orelse (some final))

@[simp] theorem leavesBy_none_seq {f e : Flow} :
    LeavesBy none (.seq f e) ↔ LeavesBy none f ∧ LeavesBy none e := by
  constructor
  · intro h
    cases h with
    | second hf he => exact ⟨hf, he⟩
  · exact fun h => .second h.1 h.2

@[simp] theorem not_leavesBy_none_jump (k : Jump) : ¬ LeavesBy none (.jump k) := nofun

@[simp] theorem leavesBy_none_attempt {body orelse : Flow} {handlers : List Flow} :
    LeavesBy none (.attempt body handlers orelse none) ↔
      LeavesBy none body ∧ LeavesBy none orelse ∨ ∃ f ∈ handlers, LeavesBy none f := by
  constructor
  · intro h
    cases h with
    | succeeded hb he => exact .inl ⟨hb, he⟩
    | handled hf h => exact .inr ⟨_, hf, h⟩
  · rintro (⟨hb, he⟩ | ⟨f, hf, h⟩)
    · exact .succeeded hb he
    · exact .handled hf h

end Flow

namespace Walk

variable {path : PathId} {previous : List Segment} {p : Spot}

theorem mem_previous_startSegment {k : SegmentId} :
    k ∈ (startSegment path previous p).2.current.previous ↔
      ∃ s ∈ previous, s.isReachable = true ∧ s.id = k := by
  simp [startSegment, Segment.distinct, List.mem_eraseDups, and_assoc]

/-- A segment can be reached if one of those before it can. -/
theorem startSegment_isReachable : (startSegment path previous p).2.current.isReachable = true ↔
    ∃ s ∈ previous, s.isReachable = true := by
  have some : (startSegment path previous p).2.current.isReachable = true ↔
      ∃ k, k ∈ (startSegment path previous p).2.current.previous := by
    simp [startSegment, List.eq_nil_iff_forall_not_mem]
  simp [some, mem_previous_startSegment]

end Walk

namespace Flow

open Walk

/-- Reachable segments come out of a walk that starts at `p` and ends at `q` in the ways that `ends`
allows only, and only if the walk starts in one. -/
structure Lands (p q : Spot) (ends : Option Jump → Prop) : Prop where
  current : q.current.isReachable = true → p.current.isReachable = true ∧ ends none
  left : ∀ k, ∀ s ∈ q.left k, s.isReachable = true →
    s ∈ p.left k ∨ p.current.isReachable = true ∧ ends (some k)

variable {around : Surroundings} {p q r : Spot} {path : PathId} {previous starts : List Segment}

/-- A new segment changes no jumps. -/
theorem Lands.startSegment {P : Option Jump → Prop} (h : ∀ k, ∀ s ∈ q.left k,
    s.isReachable = true → s ∈ p.left k ∨ p.current.isReachable = true ∧ P (some k))
    (hc : ∀ s ∈ previous, s.isReachable = true → p.current.isReachable = true ∧ P none) :
    Lands p (startSegment path previous q).2 P := by
  refine ⟨fun hr => ?_, fun k s hs => h k s (startSegment_left path previous q k ▸ hs)⟩
  obtain ⟨s, hs, hr⟩ := startSegment_isReachable.1 hr
  exact hc s hs hr

theorem startSegment_lands (h : ∀ s ∈ previous, s.isReachable = true → p.current.isReachable = true) :
    Lands p (startSegment path previous p).2 (· = none) :=
  .startSegment (fun _ _ hs _ => .inl hs) fun s hs hr => ⟨h s hs hr, rfl⟩

theorem startOne_lands (path : PathId) (p : Spot) :
    Lands p (startSegment path [p.current] p).2 (· = none) :=
  startSegment_lands (by simp)

theorem Lands.trans {P Q R : Option Jump → Prop} (h : Lands p q P) (k : Lands q r Q)
    (hfirst : ∀ j, P (some j) → R (some j)) (hsecond : ∀ o, P none → Q o → R o) : Lands p r R := by
  refine ⟨fun hr => ?_, fun j s hs hr => ?_⟩
  · obtain ⟨hq, second⟩ := k.current hr
    obtain ⟨hp, first⟩ := h.current hq
    exact ⟨hp, hsecond none first second⟩
  · rcases k.left j s hs hr with hs | ⟨hq, second⟩
    · exact (h.left j s hs hr).imp_right fun ⟨hp, first⟩ => ⟨hp, hfirst j first⟩
    · obtain ⟨hp, first⟩ := h.current hq
      exact .inr ⟨hp, hsecond _ first second⟩

theorem leave_lands (around : Surroundings) (kind : Jump) (p : Spot) :
    Lands p (leave around kind p).2 (LeavesBy · (.jump kind)) := by
  cases kind with
  | continueLoop =>
    unfold leave
    dsimp only
    split <;> exact .startSegment (fun _ _ hs _ => .inl hs) (by simp)
  | breakLoop | returnOut | raiseOut =>
    refine .startSegment (fun k s hs hr => ?_) (by simp)
    cases k <;> simp only [Spot.left, List.mem_append, List.mem_singleton] at hs ⊢ <;>
      first
      | exact .inl hs
      | (rcases hs with hs | rfl
         · exact .inl hs
         · exact .inr ⟨hr, .jump _⟩)

theorem loop_lands {head body orelse : Flow}
    (inHead : Lands (loopStart around p) (loopFork around head p) (LeavesBy · head))
    (inBody : Lands (loopTurn around head p) (loopEnd around head body p) (LeavesBy · body))
    (inElse : Lands (loopExit around head body p) (loopElse around head body orelse p)
      (LeavesBy · orelse)) :
    Lands p (loopAfter around head body orelse p) (LeavesBy · (.loop head body orelse)) := by
  have fork : Lands p (loopFork around head p) (LeavesBy · head) :=
    (startOne_lands around.path p).trans inHead (by simp) fun _ _ h => h
  -- The body and what follows the loop both start behind the end of the head.
  have behind {r : Spot} (h : (startSegment around.path [(loopFork around head p).current]
      r).2.current.isReachable = true) : p.current.isReachable = true ∧ LeavesBy none head :=
    fork.current (by simpa using startSegment_isReachable.1 h)
  have broken : ∀ s ∈ (loopEnd around head body p).broken, s.isReachable = true →
      p.current.isReachable = true ∧ LeavesBy none (.loop head body orelse) := fun s hs hr => by
    rcases inBody.left .breakLoop s hs hr with hs | ⟨start, leaves⟩
    · exact absurd hs List.not_mem_nil
    · obtain ⟨hp, through⟩ := behind start
      exact ⟨hp, .broken through leaves⟩
  refine .startSegment (fun k s hs hr => ?_) (List.forall_mem_cons.2 ⟨fun hr => ?_, broken⟩)
  · rcases inElse.left k s hs hr with hs | ⟨start, leaves⟩
    · have inHead : s ∈ (loopFork around head p).left k → s ∈ p.left k ∨ p.current.isReachable = true ∧
          LeavesBy (some k) (.loop head body orelse) := fun hs =>
        (fork.left k s hs hr).imp_right (And.imp_right .head)
      have outOf (hk : k = .returnOut ∨ k = .raiseOut)
          (hs : s ∈ (loopFork around head p).left k ∨
            (loopTurn around head p).current.isReachable = true ∧ LeavesBy (some k) body) :
          s ∈ p.left k ∨ p.current.isReachable = true ∧
            LeavesBy (some k) (.loop head body orelse) := by
        rcases hs with hs | ⟨start, leaves⟩
        · exact inHead hs
        · obtain ⟨hp, through⟩ := behind start
          exact .inr ⟨hp, .turn through leaves hk⟩
      cases k with
      | breakLoop => exact inHead hs
      | continueLoop => exact absurd hs List.not_mem_nil
      | returnOut => exact outOf (.inl rfl) (inBody.left .returnOut s hs hr)
      | raiseOut => exact outOf (.inr rfl) (inBody.left .raiseOut s hs hr)
    · obtain ⟨hp, through⟩ := behind start
      exact .inr ⟨hp, .exhausted through leaves⟩
  · obtain ⟨start, leaves⟩ := inElse.current hr
    obtain ⟨hp, through⟩ := behind start
    exact ⟨hp, .exhausted through leaves⟩

/-- How arms are left: their ends, and the jumps out of them. -/
structure ArmsLand (starts : List Segment) (p : Spot) (ends : List Segment) (q : Spot)
    (arms : List Flow) : Prop where
  ends : ∀ s ∈ ends, s.isReachable = true →
    (∃ r ∈ starts, r.isReachable = true) ∧ ∃ f ∈ arms, LeavesBy none f
  left : ∀ k, ∀ s ∈ q.left k, s.isReachable = true → s ∈ p.left k ∨
    (∃ r ∈ starts, r.isReachable = true) ∧ ∃ f ∈ arms, LeavesBy (some k) f

section Attempt

variable {body orelse : Flow} {handlers : List Flow}

theorem tryEnd_lands (inBody : Lands (tryBody around p) (tryEnd around body p) (LeavesBy · body)) :
    (∀ r ∈ tryRisks around body p, r.isReachable = true → p.current.isReachable = true) ∧
    ∀ k, ∀ s ∈ (tryEnd around body p).left k, s.isReachable = true →
      k = .breakLoop ∧ s ∈ p.broken ∨ p.current.isReachable = true ∧ LeavesBy (some k) body := by
  have start (h : (tryBody around p).current.isReachable = true) : p.current.isReachable = true := by
    simpa using startSegment_isReachable.1 h
  have left : ∀ k, ∀ s ∈ (tryEnd around body p).left k, s.isReachable = true →
      k = .breakLoop ∧ s ∈ p.broken ∨ p.current.isReachable = true ∧ LeavesBy (some k) body := by
    intro k s hs hr
    rcases inBody.left k s hs hr with hs | ⟨hp, leaves⟩
    · cases k with
      | breakLoop => exact .inl ⟨rfl, hs⟩
      | continueLoop | returnOut | raiseOut => exact absurd hs List.not_mem_nil
    · exact .inr ⟨start hp, leaves⟩
  refine ⟨List.forall_mem_cons.2 ⟨start, List.forall_mem_cons.2 ⟨fun hr =>
    start (inBody.current hr).1, fun s hs hr => ?_⟩⟩, left⟩
  exact ((left .raiseOut s hs hr).resolve_left (by simp)).1

/-- What is told of a `try` at the end of the part after its body, without a final part. -/
theorem tryElse_lands (inBody : Lands (tryBody around p) (tryEnd around body p) (LeavesBy · body))
    (inHandlers : ArmsLand (tryRisks around body p) (tryCatch around body p)
      (tryHandled around body handlers p).1 (tryHandled around body handlers p).2 handlers)
    (inElse : Lands (tryGoOn around body handlers p) (tryElse around body handlers orelse p)
      (LeavesBy · orelse)) :
    (∀ s ∈ tryEnds around body handlers orelse p, s.isReachable = true →
      p.current.isReachable = true ∧ LeavesBy none (.attempt body handlers orelse none)) ∧
    ∀ k, ∀ s ∈ (tryElse around body handlers orelse p).left k, s.isReachable = true → s ∈ p.left k ∨
      p.current.isReachable = true ∧ LeavesBy (some k) (.attempt body handlers orelse none) := by
  obtain ⟨risks, left⟩ := tryEnd_lands inBody
  have caught (h : ∃ r ∈ tryRisks around body p, r.isReachable = true) :
      p.current.isReachable = true := by
    obtain ⟨r, hr, reachable⟩ := h
    exact risks r hr reachable
  have goOn (h : (tryGoOn around body handlers p).current.isReachable = true) :
      p.current.isReachable = true ∧ LeavesBy none body := by
    have ended : (tryEnd around body p).current.isReachable = true := by
      simpa using startSegment_isReachable.1 h
    exact ⟨risks _ (by simp [tryRisks]) ended, (inBody.current ended).2⟩
  constructor
  · refine List.forall_mem_cons.2 ⟨fun hr => ?_, fun s hs hr => ?_⟩
    · obtain ⟨start, leaves⟩ := inElse.current hr
      obtain ⟨hp, through⟩ := goOn start
      exact ⟨hp, .succeeded through leaves⟩
    · obtain ⟨start, f, hf, leaves⟩ := inHandlers.ends s hs hr
      exact ⟨caught start, .handled hf leaves⟩
  · intro k s hs hr
    rcases inElse.left k s hs hr with hs | ⟨start, leaves⟩
    · rw [tryGoOn, startSegment_left] at hs
      rcases inHandlers.left k s hs hr with hs | ⟨start, f, hf, leaves⟩
      · cases k with
        | breakLoop =>
          rcases left .breakLoop s hs hr with ⟨-, hs⟩ | ⟨hp, leaves⟩
          · exact .inl hs
          · exact .inr ⟨hp, .attempted leaves (by simp)⟩
        | continueLoop => exact absurd hs List.not_mem_nil
        | returnOut | raiseOut => exact .inl hs
      · exact .inr ⟨caught start, .handled hf leaves⟩
    · obtain ⟨hp, through⟩ := goOn start
      exact .inr ⟨hp, .succeeded through leaves⟩

/-- A final part starts behind the normal ends, or behind what has left the body. -/
theorem tryFinal_lands (inBody : Lands (tryBody around p) (tryEnd around body p) (LeavesBy · body))
    (inHandlers : ArmsLand (tryRisks around body p) (tryCatch around body p)
      (tryHandled around body handlers p).1 (tryHandled around body handlers p).2 handlers)
    (inElse : Lands (tryGoOn around body handlers p) (tryElse around body handlers orelse p)
      (LeavesBy · orelse))
    (h : (tryFinal around body handlers orelse p).current.isReachable = true) :
    p.current.isReachable = true ∧ ∀ final o, LeavesBy o final →
      LeavesBy o (.attempt body handlers orelse (some final)) := by
  obtain ⟨-, left⟩ := tryEnd_lands inBody
  obtain ⟨s, hs, hr⟩ := startSegment_isReachable.1 h
  unfold tryExits at hs
  split_ifs at hs
  · obtain ⟨hp, through⟩ := (tryElse_lands inBody inHandlers inElse).1 s hs hr
    exact ⟨hp, fun _ o => .final through⟩
  · rcases List.mem_append.1 hs with hs | hs
    · obtain ⟨hp, leaves⟩ := (left .raiseOut s hs hr).resolve_left (by simp)
      exact ⟨hp, fun _ o => .unwound leaves (.inr rfl)⟩
    · obtain ⟨hp, leaves⟩ := (left .returnOut s hs hr).resolve_left (by simp)
      exact ⟨hp, fun _ o => .unwound leaves (.inl rfl)⟩

end Attempt

mutual

theorem walk_lands (around : Surroundings) (f : Flow) (p : Spot) :
    Lands p (walk around f p).2 (LeavesBy · f) := by
  cases f with
  | idle => exact ⟨fun h => ⟨h, .idle⟩, fun _ _ hs _ => .inl hs⟩
  | enter n => exact ⟨fun h => ⟨h, .enter n⟩, fun _ _ hs _ => .inl hs⟩
  | exit n => exact ⟨fun h => ⟨h, .exit n⟩, fun _ _ hs _ => .inl hs⟩
  | codePath owner body =>
    exact ⟨fun h => ⟨h, .codePath owner body⟩, fun k s hs _ => .inl (by cases k <;> exact hs)⟩
  | seq first second =>
    exact (walk_lands around first p).trans (walk_lands around second _) (fun _ => .first)
      fun _ => .second
  | choose fallsThrough arms =>
    obtain ⟨ends, left⟩ := walkArms_lands around [p.current] arms p
    refine .startSegment (fun k s hs hr => (left k s hs hr).imp_right fun ⟨start, f, hf, leaves⟩ =>
      ⟨by simpa using start, .arm hf leaves⟩) fun s hs hr => ?_
    rcases List.mem_append.1 hs with hs | hs
    · cases fallsThrough with
      | false => simp at hs
      | true =>
        obtain rfl := List.mem_singleton.1 hs
        exact ⟨hr, .skip⟩
    · obtain ⟨start, f, hf, leaves⟩ := ends s hs hr
      exact ⟨by simpa using start, .arm hf leaves⟩
  | chain arms =>
    obtain ⟨ends, left⟩ := walkChain_lands around arms p
    exact .startSegment left fun s hs hr => ⟨ends s hs hr, .stop⟩
  | loop head body orelse =>
    exact loop_lands (walk_lands around head _) (walk_lands _ body _) (walk_lands around orelse _)
  | attempt body handlers orelse final =>
    have inBody := walk_lands around body (tryBody around p)
    have inHandlers :=
      walkArms_lands around (tryRisks around body p) handlers (tryCatch around body p)
    have inElse := walk_lands around orelse (tryGoOn around body handlers p)
    obtain ⟨ends, left⟩ := tryElse_lands inBody inHandlers inElse
    obtain ⟨-, unwound⟩ := tryEnd_lands inBody
    cases final with
    | none =>
      refine .startSegment (fun k s hs hr => ?_) ends
      have fromElse := left k s
      cases k with
      | breakLoop | continueLoop => exact fromElse hs hr
      | returnOut =>
        rcases List.mem_append.1 hs with hs | hs
        · exact fromElse hs hr
        · obtain ⟨hp, leaves⟩ := (unwound .returnOut s hs hr).resolve_left (by simp)
          exact .inr ⟨hp, .attempted leaves (by simp)⟩
      | raiseOut =>
        rcases List.mem_append.1 hs with hs | hs
        · exact fromElse hs hr
        · cases handlers with
          | nil =>
            obtain ⟨hp, leaves⟩ := (unwound .raiseOut s hs hr).resolve_left (by simp)
            exact .inr ⟨hp, .attempted leaves fun _ => rfl⟩
          | cons => exact absurd hs List.not_mem_nil
    | some final =>
      have inFinal := walk_lands around final (tryFinal around body handlers orelse p)
      have into := tryFinal_lands inBody inHandlers inElse
      refine ⟨fun hr => ?_, fun k s hs hr => ?_⟩
      · obtain ⟨start, leaves⟩ := inFinal.current hr
        exact (into start).imp_right fun h => h final none leaves
      · rcases inFinal.left k s hs hr with hs | ⟨start, leaves⟩
        · rw [tryFinal, startSegment_left] at hs
          exact (left k s hs hr).imp_right (And.imp_right .past)
        · exact .inr ((into start).imp_right fun h => h final (some k) leaves)
  | jump kind => exact leave_lands around kind p
termination_by structural f

/-- The ends of arms and the jumps out of them can be reached only from where the arms start. -/
theorem walkArms_lands (around : Surroundings) (starts : List Segment) (arms : List Flow) (p : Spot) :
    ArmsLand starts p (walkArms around starts arms p).2.1 (walkArms around starts arms p).2.2 arms := by
  cases arms with
  | nil => exact ⟨by simp [walkArms], fun k s hs _ => .inl hs⟩
  | cons arm arms =>
    have inArm := walk_lands around arm (startSegment around.path starts p).2
    obtain ⟨ends, left⟩ := walkArms_lands around starts arms
      (walk around arm (startSegment around.path starts p).2).2
    refine ⟨List.forall_mem_cons.2 ⟨fun hr => ?_, fun s hs hr => ?_⟩, fun k s hs hr => ?_⟩
    · obtain ⟨start, ends⟩ := inArm.current hr
      exact ⟨startSegment_isReachable.1 start, arm, List.mem_cons_self, ends⟩
    · obtain ⟨start, f, hf, ends⟩ := ends s hs hr
      exact ⟨start, f, List.mem_cons_of_mem _ hf, ends⟩
    · rcases left k s hs hr with hs | ⟨start, f, hf, leaves⟩
      · rcases inArm.left k s hs hr with hs | ⟨start, leaves⟩
        · exact .inl (startSegment_left around.path starts p k ▸ hs)
        · exact .inr ⟨startSegment_isReachable.1 start, arm, List.mem_cons_self, leaves⟩
      · exact .inr ⟨start, f, List.mem_cons_of_mem _ hf, leaves⟩
termination_by structural arms

theorem walkChain_lands (around : Surroundings) (arms : List Flow) (p : Spot) :
    (∀ s ∈ (walkChain around arms p).2.1, s.isReachable = true → p.current.isReachable = true) ∧
    ∀ k, ∀ s ∈ (walkChain around arms p).2.2.left k, s.isReachable = true →
      s ∈ p.left k ∨ p.current.isReachable = true ∧ LeavesBy (some k) (.chain arms) := by
  cases arms with
  | nil => exact ⟨by simp [walkChain], fun k s hs _ => .inl hs⟩
  | cons arm arms =>
    have inArm := (startOne_lands around.path p).trans (walk_lands around arm _) (by simp)
      (R := (LeavesBy · arm)) fun _ _ h => h
    obtain ⟨ends, left⟩ := walkChain_lands around arms
      (walk around arm (startSegment around.path [p.current] p).2).2
    refine ⟨List.forall_mem_cons.2 ⟨id, fun s hs hr => (inArm.current (ends s hs hr)).1⟩,
      fun k s hs hr => ?_⟩
    rcases left k s hs hr with hs | ⟨hq, leaves⟩
    · exact (inArm.left k s hs hr).imp_right (And.imp_right .link)
    · obtain ⟨hp, through⟩ := inArm.current hq
      exact .inr ⟨hp, .further through leaves⟩
termination_by structural arms

end

end Flow

end LostUpdate
