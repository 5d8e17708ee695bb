import LostUpdate.Proofs.Course.Arrivals

namespace LostUpdate

open Courses

namespace Arrivals

/-- Two arrivals agree on the segments up to number `n`. -/
def Agree (n : ℕ) (A B : Arrivals) : Prop := ∀ k : SegmentId, k.number ≤ n → B k = A k

/-- A statement holds of arrivals, whatever arrives at segments past number `n`. -/
def Settled (n : ℕ) (A : Arrivals) (P : Arrivals → Prop) : Prop := ∀ B, Agree n A B → P B

theorem Agree.trans {n m : ℕ} {A B C : Arrivals} (h : Agree n A B) (k : Agree m B C)
    (hnm : n ≤ m) : Agree n A C :=
  fun s hs => (k s (hs.trans hnm)).trans (h s hs)

theorem Agree.refl (n : ℕ) (A : Arrivals) : Agree n A A := fun _ _ => rfl

/-- What has left by jumps is within `exits`, which is what a loop around asks for. -/
structure Keeps (contents : Contents) (around : Surroundings) (exits : Jump → Language Node)
    (p : Spot) (A : Arrivals) : Prop where
  left : ∀ k, ∀ s ∈ p.left k, A.through contents s.id ≤ exits k
  continued : ∀ t, around.continuation = some t → exits .continueLoop ≤ A t.id

theorem Keeps.of_left {contents : Contents} {around : Surroundings} {exits : Jump → Language Node}
    {p q : Spot} {A : Arrivals} (h : A.Keeps contents around exits p)
    (hq : ∀ k, q.left k ⊆ p.left k) : A.Keeps contents around exits q :=
  ⟨fun k s hs => h.left k s (hq k hs), h.continued⟩

/-- Besides, what may have been evaluated at a point of the walk is within `before`. -/
structure Fits (contents : Contents) (around : Surroundings) (before : Language Node)
    (exits : Jump → Language Node) (p : Spot) (x : Point) (A : Arrivals) : Prop where
  here : A.upTo x ≤ before
  keeps : A.Keeps contents around exits p

/-- Arrivals keep to all edges that events draw. -/
def AdmitsAll (contents : Contents) (events : List Event) (A : Arrivals) : Prop :=
  ∀ e ∈ events, A.Admits contents e

theorem AdmitsAll.nil {contents : Contents} {A : Arrivals} : A.AdmitsAll contents [] := by
  simp [AdmitsAll]

theorem AdmitsAll.single {contents : Contents} {e : Event} {A : Arrivals}
    (h : A.Admits contents e) : A.AdmitsAll contents [e] := by
  simpa [AdmitsAll] using h

theorem AdmitsAll.append {contents : Contents} {first second : List Event} {A : Arrivals}
    (hf : A.AdmitsAll contents first) (hs : A.AdmitsAll contents second) :
    A.AdmitsAll contents (first ++ second) :=
  fun e he => (List.mem_append.1 he).elim (hf e) (hs e)

end Arrivals

variable {contents : Contents} {A : Arrivals} {around : Surroundings} {p : Spot} {x : Point}
  {before : Language Node} {exits : Jump → Language Node} {later : List Event}

namespace Arrivals

theorem Fits.through_le_of_names (h : A.Fits contents around before exits p x)
    (hx : x.segment = p.current) (hn : contents x.segment.id = x.names) :
    A.through contents p.current.id ≤ before := by
  rw [← hx, ← upTo_eq_through hn]
  exact h.here

/-- Where the next segment starts, the point is the end of the segment before it. -/
theorem Fits.through_le {s : Segment} (h : A.Fits contents around before exits p x)
    (hx : x.segment = p.current) (ht : x.Told contents (.segment s :: later)) :
    A.through contents p.current.id ≤ before :=
  h.through_le_of_names hx (ht.1 ⟨s, rfl⟩)

end Arrivals

namespace Walk

open Arrivals Event

/-- A segment can be given any arrivals that contain what passes the segments before it. -/
theorem exists_startSegment (contents : Contents) (path : PathId) (previous : List Segment)
    (l : Language Node)
    (h : A.Settled p.segments fun B => ∀ s ∈ previous, B.through contents s.id ≤ l) :
    ∃ B, Agree p.segments A B ∧ B.Settled (startSegment path previous p).2.segments fun C =>
      C.AdmitsAll contents (own 0 (startSegment path previous p).1) ∧
        C (startSegment path previous p).2.current.id = l := by
  let s := (startSegment path previous p).2.current
  have agree : Agree p.segments A (Function.update A s.id l) := by
    intro k hk
    have earlier : k ≠ s.id := by
      rintro rfl
      exact absurd hk (Nat.not_succ_le_self p.segments)
    exact Function.update_of_ne earlier l A
  refine ⟨Function.update A s.id l, agree, fun C hC => ?_⟩
  have here : C s.id = l := (hC s.id (Nat.le_refl _)).trans (Function.update_self s.id l A)
  refine ⟨fun e he => ?_, here⟩
  obtain rfl := List.mem_singleton.1 he
  intro k hk
  obtain ⟨q, hq, rfl⟩ := List.mem_map.1 hk
  rw [Segment.distinct, List.mem_eraseDups, List.mem_filter] at hq
  exact (h C (agree.trans hC (Nat.le_succ _)) q hq.1).trans here.ge

variable {path : PathId} {previous : List Segment}

theorem Keeps.startSegment (h : A.Keeps contents around exits p) :
    A.Keeps contents around exits (startSegment path previous p).2 :=
  ⟨fun k => startSegment_left path previous p k ▸ h.left k, h.continued⟩

theorem Fits.startSegment {l : Language Node} (h : A.Keeps contents around exits p)
    (hl : A (startSegment path previous p).2.current.id = l) :
    A.Fits contents around l exits (startSegment path previous p).2
      (x.after (own 0 (startSegment path previous p).1)) :=
  ⟨(upTo_start _).trans_le hl.le, Keeps.startSegment h⟩

theorem goBack_admits {target : Segment} {A : Arrivals}
    (h : A.through contents p.current.id ≤ A target.id) :
    A.AdmitsAll contents (own 0 (goBack target p).1) := by
  unfold goBack
  split_ifs
  · exact .single h
  · exact .nil

theorem leave_complete {kind : Jump} {after : Language Node} (hx : x.segment = p.current)
    (ht : x.Told contents (own 0 (leave around kind p).1)) (hb : before ≤ exits kind)
    (hA : A.Settled p.segments (Fits contents around before exits p x)) :
    ∃ B, Agree p.segments A B ∧ B.Settled (leave around kind p).2.segments fun C =>
      C.AdmitsAll contents (own 0 (leave around kind p).1) ∧
        C.Fits contents around after exits (leave around kind p).2
          (x.after (own 0 (leave around kind p).1)) := by
  -- A jump out of the code leaves from the segment that ends with it.
  have out (q : Spot) (hq : q.segments = p.segments)
      (hd : x.Told contents (own 0 (startSegment around.path [] q).1))
      (hleft : ∀ k, ∀ s ∈ q.left k, s ∈ p.left k ∨ s = p.current ∧ k = kind) :
      ∃ B, Agree q.segments A B ∧ B.Settled (startSegment around.path [] q).2.segments fun C =>
        C.AdmitsAll contents (own 0 (startSegment around.path [] q).1) ∧
          C.Fits contents around after exits (startSegment around.path [] q).2
            (x.after (own 0 (startSegment around.path [] q).1)) := by
    obtain ⟨B, toB, hB⟩ :=
      exists_startSegment contents around.path [] (p := q) (A := A) after (by simp [Settled])
    refine ⟨B, toB, fun C hC => ⟨(hB C hC).1, Fits.startSegment ⟨fun k s hs => ?_, ?_⟩ (hB C hC).2⟩⟩
    · have fits := hA C (hq ▸ toB.trans hC (Nat.le_succ _))
      rcases hleft k s hs with hs | ⟨rfl, rfl⟩
      · exact fits.keeps.left k s hs
      · exact (fits.through_le hx hd).trans hb
    · exact (hA C (hq ▸ toB.trans hC (Nat.le_succ _))).keeps.continued
  cases kind with
  | breakLoop =>
    refine out { p with broken := p.broken ++ [p.current] } rfl ht fun k s hs => ?_
    cases k <;> simp_all [Spot.left]
  | returnOut =>
    refine out { p with returned := p.returned ++ [p.current] } rfl ht fun k s hs => ?_
    cases k <;> simp_all [Spot.left]
  | raiseOut =>
    refine out { p with thrown := p.thrown ++ [p.current] } rfl ht fun k s hs => ?_
    cases k <;> simp_all [Spot.left]
  | continueLoop =>
    cases hc : around.continuation with
    | none =>
      simp only [leave, hc] at ht ⊢
      exact out p rfl ht fun k s hs => .inl hs
    | some target =>
      simp only [leave, hc, Walk.andThen] at ht ⊢
      rw [(goBack_whole target p).level] at ht ⊢
      obtain ⟨B, toB, hB⟩ :=
        exists_startSegment contents around.path [] (p := p) (A := A) after (by simp [Settled])
      refine ⟨B, toB, fun C hC => ?_⟩
      have fits := hA C (toB.trans hC (Nat.le_succ _))
      rw [Point.after_append]
      have ended := (fits.through_le_of_names hx (names_of_goBack ht)).trans hb
      exact ⟨.append (goBack_admits (ended.trans (fits.keeps.continued target hc))) (hB C hC).1,
        Fits.startSegment fits.keeps (hB C hC).2⟩

end Walk

namespace Flow

open Walk Arrivals Event Courses.Bounded

variable {head body orelse : Flow} {after : Language Node}

/-- Where the body starts, nothing has left it by `break`, and `continue` asks for what arrives at
the head. -/
theorem Keeps.loopTurn {start : Language Node}
    (h : A.Keeps contents around exits (loopFork around head p))
    (hs : A (loopStart around p).current.id = start) :
    A.Keeps contents (insideLoop around p) (aroundBody after start exits)
      (loopTurn around head p) := by
  refine ⟨fun k s hs => ?_, fun t ht => ?_⟩
  · cases k with
    | breakLoop | continueLoop => exact absurd hs List.not_mem_nil
    | returnOut => exact h.left .returnOut s hs
    | raiseOut => exact h.left .raiseOut s hs
  · obtain rfl : (loopStart around p).current = t := by simpa [insideLoop] using ht
    exact hs.ge

/-- Behind the head for good, jumps have left the loop before it or from the body. -/
theorem Keeps.loopExit {start : Language Node}
    (h : A.Keeps contents around exits (loopFork around head p))
    (hbody : A.Keeps contents (insideLoop around p) (aroundBody after start exits)
      (loopEnd around head body p)) :
    A.Keeps contents around exits (loopExit around head body p) := by
  refine ⟨fun k s hs => ?_, h.continued⟩
  cases k with
  | breakLoop => exact h.left .breakLoop s hs
  | continueLoop => exact absurd hs List.not_mem_nil
  | returnOut => exact hbody.left .returnOut s hs
  | raiseOut => exact hbody.left .raiseOut s hs

/-- Bounds on the courses of a flow are kept to by arrivals at the segments that its walk starts. -/
def Completes (contents : Contents) (f : Flow) : Prop :=
  ∀ ⦃around : Surroundings⦄ ⦃p : Spot⦄ ⦃x : Point⦄ ⦃exits : Jump → Language Node⦄
    ⦃before after : Language Node⦄ ⦃A : Arrivals⦄, x.segment = p.current →
      x.Told contents (own 0 (walk around f p).1) → Bounded before f.courses after exits →
        A.Settled p.segments (Fits contents around before exits p x) →
          ∃ B, Agree p.segments A B ∧ B.Settled (walk around f p).2.segments fun C =>
            C.AdmitsAll contents (own 0 (walk around f p).1) ∧
              C.Fits contents around after exits (walk around f p).2
                (x.after (own 0 (walk around f p).1))

namespace Completes

variable {f first second : Flow} {arms : List Flow} {inner : Surroundings} {path : PathId}
  {q : Spot} {l : Language Node}

theorem idle : Flow.idle.Completes contents := by
  intro around p x exits before after A hx ht hb hA
  exact ⟨A, .refl _ _, fun C hC =>
    ⟨.nil, (hA C hC).here.trans (idle_iff.1 hb), (hA C hC).keeps⟩⟩

theorem enter (n : Node) : (Flow.enter n).Completes contents := by
  intro around p x exits before after A hx ht hb hA
  refine ⟨A, .refl _ _, fun C hC => ⟨.single trivial, ?_, (hA C hC).keeps⟩⟩
  change C.upTo (x.record (.enter n)) ≤ after
  rw [courses] at hb
  rw [upTo_enter]
  split_ifs at hb ⊢
  · grw [(hA C hC).here]
    exact name_iff.1 hb
  · exact (hA C hC).here.trans (idle_iff.1 hb)

theorem exit (n : Node) : (Flow.exit n).Completes contents := by
  intro around p x exits before after A hx ht hb hA
  refine ⟨A, .refl _ _, fun C hC => ⟨.single trivial, ?_, (hA C hC).keeps⟩⟩
  change C.upTo (x.record (.exit n)) ≤ after
  rw [upTo_exit]
  exact (hA C hC).here.trans (idle_iff.1 hb)

theorem codePath (owner : Node) (body : Flow) : (Flow.codePath owner body).Completes contents := by
  intro around p x exits before after A hx ht hb hA
  rw [own_walk_codePath]
  exact ⟨A, .refl _ _, fun C hC =>
    ⟨.nil, (hA C hC).here.trans (idle_iff.1 hb),
      (hA C hC).keeps.of_left fun k => by cases k <;> exact List.Subset.refl _⟩⟩

theorem jump (kind : Jump) : (Flow.jump kind).Completes contents :=
  fun _ _ _ _ _ _ _ hx ht hb hA => leave_complete hx ht (leave_iff.1 hb) hA

theorem seq (hfirst : first.Completes contents) (hsecond : second.Completes contents) :
    (Flow.seq first second).Completes contents := by
  intro around p x exits before after A hx ht hb hA
  simp only [walk, Walk.andThen] at ht ⊢
  have moved := walk_moves around first p
  rw [moved.level, Point.told_append] at ht
  rw [moved.level, Point.after_append]
  obtain ⟨between, inFirst, inSecond⟩ := andThen_iff.1 hb
  obtain ⟨B, toB, hB⟩ := hfirst hx ht.1 inFirst hA
  obtain ⟨C, toC, hC⟩ := hsecond (moved.current x hx) ht.2 inSecond fun D hD => (hB D hD).2
  refine ⟨C, toB.trans toC moved.segments, fun D hD => ?_⟩
  have later := toC.trans hD (walk_moves around second _).segments
  exact ⟨(hB D later).1.append (hC D hD).1, (hC D hD).2⟩

/-- A walk in a segment that starts behind others. What is known of the jumps out of it may differ
from what is known where the segment starts. -/
theorem behind (h : f.Completes contents) (previous : List Segment)
    (hc : q.current = (startSegment path previous p).2.current)
    (hn : q.segments = (startSegment path previous p).2.segments)
    (ht : (x.after (own 0 (startSegment path previous p).1)).Told contents
      (own 0 (walk inner f q).1))
    (hb : Bounded l f.courses after exits)
    (hA : A.Settled p.segments fun B =>
      (∀ s ∈ previous, B.through contents s.id ≤ l) ∧ B.Keeps contents inner exits q) :
    ∃ B, Agree p.segments A B ∧ B.Settled (walk inner f q).2.segments fun C =>
      C (startSegment path previous p).2.current.id = l ∧
        C.AdmitsAll contents (own 0 (startSegment path previous p).1 ++ own 0 (walk inner f q).1) ∧
          C.Fits contents inner after exits (walk inner f q).2
            ((x.after (own 0 (startSegment path previous p).1)).after
              (own 0 (walk inner f q).1)) := by
  obtain ⟨B, toB, hB⟩ := exists_startSegment contents path previous l fun C hC => (hA C hC).1
  have later := (walk_moves inner f q).segments
  have fits : B.Settled q.segments (Fits contents inner l exits q
      (x.after (own 0 (startSegment path previous p).1))) := by
    rw [hn]
    intro C hC
    exact ⟨(upTo_start _).trans_le (hB C hC).2.le, (hA C (toB.trans hC (Nat.le_succ _))).2⟩
  obtain ⟨C, toC, hC⟩ := h hc.symm ht hb fits
  rw [hn] at toC later
  refine ⟨C, toB.trans toC (Nat.le_succ _), fun D hD => ?_⟩
  obtain ⟨drawn, here⟩ := hB D (toC.trans hD later)
  exact ⟨here, drawn.append (hC D hD).1, (hC D hD).2⟩

theorem walkArms_complete (h : ∀ arm ∈ arms, arm.Completes contents) {fork z : Segment}
    (ht : x.Told contents (own 0 (walkArms around [fork] arms p).1 ++ [.segment z]))
    (hb : Bounded before (oneOf (coursesEach arms)) after exits)
    (hA : A.Settled p.segments fun B =>
      B.through contents fork.id ≤ before ∧ B.Keeps contents around exits p) :
    ∃ B, Agree p.segments A B ∧ B.Settled (walkArms around [fork] arms p).2.2.segments fun C =>
      C.AdmitsAll contents (own 0 (walkArms around [fork] arms p).1) ∧
        (∀ s ∈ (walkArms around [fork] arms p).2.1, C.through contents s.id ≤ after) ∧
          C.Keeps contents around exits (walkArms around [fork] arms p).2.2 := by
  induction arms generalizing p x A with
  | nil => exact ⟨A, .refl _ _, fun C hC => ⟨.nil, by simp [walkArms], (hA C hC).2⟩⟩
  | cons arm arms ih =>
    simp only [walkArms, List.append_assoc] at ht ⊢
    have started := startSegment_moves around.path [fork] p
    have moved := walk_moves around arm (startSegment around.path [fork] p).2
    rw [started.level, moved.level] at ht ⊢
    simp only [List.append_assoc, Point.told_append] at ht
    obtain ⟨-, inArm, inRest⟩ := ht
    obtain ⟨first, rest⟩ := either_iff.1 hb
    have upward := started.segments.trans moved.segments
    obtain ⟨B, toB, hB⟩ := (h arm List.mem_cons_self).behind [fork] rfl rfl inArm first
      fun C hC => ⟨List.forall_mem_singleton.2 (hA C hC).1, Keeps.startSegment (hA C hC).2⟩
    obtain ⟨C, toC, hC⟩ := ih (fun a ha => h a (List.mem_cons_of_mem _ ha))
      (Point.told_append.2 inRest) rest fun D hD =>
        ⟨(hA D (toB.trans hD upward)).1, (hB D hD).2.2.keeps⟩
    refine ⟨C, toB.trans toC upward, fun D hD => ?_⟩
    obtain ⟨-, drawn, fits⟩ := hB D (toC.trans hD (walkArms_moves around [fork] arms _).segments)
    obtain ⟨s, later, hfirst⟩ := walkArms_first around [fork] arms _ z
    have ends := fits.through_le (moved.current _ rfl) (hfirst ▸ Point.told_append.2 inRest)
    refine ⟨?_, List.forall_mem_cons.2 ⟨ends, (hC D hD).2.1⟩, (hC D hD).2.2⟩
    rw [← List.append_assoc]
    exact drawn.append (hC D hD).1

theorem choose (fallsThrough : Bool) (h : ∀ arm ∈ arms, arm.Completes contents) :
    (Flow.choose fallsThrough arms).Completes contents := by
  intro around p x exits before after A hx ht hb hA
  simp only [walk] at ht ⊢
  have moved := walkArms_moves around [p.current] arms p
  rw [moved.level] at ht ⊢
  rw [Point.after_append]
  obtain ⟨falls, inArms⟩ := either_iff.1 hb
  have fork : A.Settled p.segments fun B =>
      B.through contents p.current.id ≤ before ∧ B.Keeps contents around exits p := fun B hB => by
    obtain ⟨s, later, hfirst⟩ := walkArms_first around [p.current] arms p
      (startSegment around.path ((if fallsThrough then [p.current] else []) ++
        (walkArms around [p.current] arms p).2.1)
          (walkArms around [p.current] arms p).2.2).2.current
    exact ⟨(hA B hB).through_le hx (hfirst ▸ ht), (hA B hB).keeps⟩
  obtain ⟨B, toB, hB⟩ := walkArms_complete h ht inArms fork
  obtain ⟨C, toC, hC⟩ := exists_startSegment contents around.path
    ((if fallsThrough then [p.current] else []) ++ (walkArms around [p.current] arms p).2.1) after
    (p := (walkArms around [p.current] arms p).2.2) (A := B) fun D hD s hs => by
    rcases List.mem_append.1 hs with hs | hs
    · cases fallsThrough with
      | false => simp at hs
      | true =>
        obtain rfl : s = p.current := by simpa using hs
        exact (fork D (toB.trans hD moved.segments)).1.trans (idle_iff.1 falls)
    · exact (hB D hD).2.1 s hs
  refine ⟨C, toB.trans toC moved.segments, fun D hD => ?_⟩
  have later := toC.trans hD (Nat.le_succ _)
  exact ⟨(hB D later).1.append (hC D hD).1, Fits.startSegment (hB D later).2.2 (hC D hD).2⟩

theorem walkChain_complete (h : ∀ arm ∈ arms, arm.Completes contents) {z : Segment}
    (hx : x.segment = p.current)
    (ht : x.Told contents (own 0 (walkChain around arms p).1 ++ [.segment z]))
    (hb : Bounded before (someOf (coursesEach arms)) after exits)
    (hA : A.Settled p.segments (Fits contents around before exits p x)) :
    ∃ B, Agree p.segments A B ∧ B.Settled (walkChain around arms p).2.2.segments fun C =>
      C.AdmitsAll contents (own 0 (walkChain around arms p).1) ∧
        (∀ s ∈ (walkChain around arms p).2.1, C.through contents s.id ≤ after) ∧
          C.Keeps contents around exits (walkChain around arms p).2.2 := by
  induction arms generalizing p x A before with
  | nil =>
    refine ⟨A, .refl _ _, fun C hC => ⟨.nil, ?_, (hA C hC).keeps⟩⟩
    rw [walkChain, List.forall_mem_singleton]
    exact ((hA C hC).through_le hx ht).trans (idle_iff.1 hb)
  | cons arm arms ih =>
    have ends : A.Settled p.segments fun C => C.through contents p.current.id ≤ before :=
      fun C hC => (hA C hC).through_le hx ht
    simp only [walkChain, List.append_assoc] at ht ⊢
    have started := startSegment_moves around.path [p.current] p
    have moved := walk_moves around arm (startSegment around.path [p.current] p).2
    rw [started.level, moved.level] at ht ⊢
    simp only [List.append_assoc, Point.told_append] at ht
    obtain ⟨-, inArm, inRest⟩ := ht
    obtain ⟨stops, goesOn⟩ := either_iff.1 hb
    obtain ⟨between, first, rest⟩ := andThen_iff.1 goesOn
    have upward := started.segments.trans moved.segments
    obtain ⟨B, toB, hB⟩ := (h arm List.mem_cons_self).behind [p.current] rfl rfl inArm first
      fun C hC => ⟨List.forall_mem_singleton.2 (ends C hC), Keeps.startSegment (hA C hC).keeps⟩
    obtain ⟨C, toC, hC⟩ := ih (fun a ha => h a (List.mem_cons_of_mem _ ha)) (moved.current _ rfl)
      (Point.told_append.2 inRest) rest fun D hD => (hB D hD).2.2
    refine ⟨C, toB.trans toC upward, fun D hD => ?_⟩
    have settled := toC.trans hD (walkChain_moves around arms _).segments
    have stopped := (ends D (toB.trans settled upward)).trans (idle_iff.1 stops)
    refine ⟨?_, List.forall_mem_cons.2 ⟨stopped, (hC D hD).2.1⟩, (hC D hD).2.2⟩
    rw [← List.append_assoc]
    exact (hB D settled).2.1.append (hC D hD).1

theorem chain (h : ∀ arm ∈ arms, arm.Completes contents) : (Flow.chain arms).Completes contents := by
  intro around p x exits before after A hx ht hb hA
  simp only [walk] at ht ⊢
  have moved := walkChain_moves around arms p
  rw [moved.level] at ht ⊢
  rw [Point.after_append]
  obtain ⟨B, toB, hB⟩ := walkChain_complete h hx ht hb hA
  obtain ⟨C, toC, hC⟩ := exists_startSegment contents around.path (walkChain around arms p).2.1
    after (p := (walkChain around arms p).2.2) (A := B) fun D hD => (hB D hD).2.1
  refine ⟨C, toB.trans toC moved.segments, fun D hD => ?_⟩
  have later := toC.trans hD (Nat.le_succ _)
  exact ⟨(hB D later).1.append (hC D hD).1, Fits.startSegment (hB D later).2.2 (hC D hD).2⟩

theorem loop (hhead : head.Completes contents) (hbody : body.Completes contents)
    (horelse : orelse.Completes contents) : (Flow.loop head body orelse).Completes contents := by
  intro around p x exits before after A hx ht hb hA
  rw [own_walk_loop] at ht ⊢
  simp only [Point.told_append, Point.after_append] at ht ⊢
  obtain ⟨atStart, inHead, atTurn, inBody, atBack, atExit, inElse, joined⟩ := ht
  obtain ⟨start, fork, hstart, boundsHead, boundsBody, boundsElse⟩ := loop_iff.1 hb
  have moveHead := walk_moves around head (loopStart around p)
  have moveBody := walk_moves (insideLoop around p) body (loopTurn around head p)
  have moveElse := walk_moves around orelse (loopExit around head body p)
  have toFork := (startSegment_moves around.path [p.current] p).segments.trans moveHead.segments
  have toEnd := (startSegment_moves around.path [(loopFork around head p).current]
    (loopFork around head p)).segments.trans moveBody.segments
  have toElse := (startSegment_moves around.path [(loopFork around head p).current]
    { loopEnd around head body p with broken := (loopFork around head p).broken }).segments.trans
      moveElse.segments
  obtain ⟨B, toB, hB⟩ := hhead.behind (q := loopStart around p) _ rfl rfl inHead boundsHead
    fun C hC => ⟨List.forall_mem_singleton.2 (((hA C hC).through_le hx atStart).trans hstart),
      Keeps.startSegment (hA C hC).keeps⟩
  have atFork : B.Settled (loopFork around head p).segments fun C =>
      ∀ s ∈ [(loopFork around head p).current], C.through contents s.id ≤ fork := fun C hC =>
    List.forall_mem_singleton.2 ((hB C hC).2.2.through_le (moveHead.current _ rfl) atTurn)
  obtain ⟨C, toC, hC⟩ := hbody.behind (q := loopTurn around head p) _ rfl rfl inBody boundsBody
    fun D hD => ⟨atFork D hD, Keeps.loopTurn (hB D hD).2.2.keeps (hB D hD).1⟩
  obtain ⟨D, toD, hD⟩ := horelse.behind (q := loopExit around head body p) _ rfl rfl inElse
    boundsElse fun E hE => ⟨atFork E (toC.trans hE toEnd),
      Keeps.loopExit (hB E (toC.trans hE toEnd)).2.2.keeps (hC E hE).2.2.keeps⟩
  obtain ⟨E, toE, hE⟩ := exists_startSegment contents around.path
    ((loopElse around head body orelse p).current :: (loopEnd around head body p).broken) after
    (p := loopElse around head body orelse p) (A := D) fun F hF => List.forall_mem_cons.2
      ⟨(hD F hF).2.2.through_le (moveElse.current _ rfl) joined,
        (hC F (toD.trans hF toElse)).2.2.keeps.left .breakLoop⟩
  refine ⟨E, toB.trans (toC.trans (toD.trans toE toElse) toEnd) toFork, fun F hF => ?_⟩
  obtain ⟨-, drawnElse, fitsElse⟩ := hD F (toE.trans hF (Nat.le_succ _))
  obtain ⟨-, drawnBody, fitsBody⟩ := hC F (toD.trans (toE.trans hF (Nat.le_succ _)) toElse)
  obtain ⟨here, drawnHead, -⟩ :=
    hB F (toC.trans (toD.trans (toE.trans hF (Nat.le_succ _)) toElse) toEnd)
  have back : F.through contents (loopEnd around head body p).current.id ≤
      F (loopStart around p).current.id :=
    (fitsBody.through_le_of_names (moveBody.current _ rfl)
      (names_of_goBack (Point.told_append.2 ⟨atBack, atExit⟩))).trans here.ge
  have drawn := drawnHead.append (drawnBody.append ((goBack_admits back).append
    (drawnElse.append (hE F hF).1)))
  exact ⟨by simpa only [List.append_assoc] using drawn,
    Fits.startSegment fitsElse.keeps (hE F hF).2⟩

end Completes

theorem walk_complete {inLoop : Bool} {f : Flow} (hs : f.isStructured inLoop = true) :
    f.Completes contents := by
  induction f generalizing inLoop with
  | idle => exact .idle
  | enter n => exact .enter n
  | exit n => exact .exit n
  | codePath owner body => exact .codePath owner body
  | seq first second hf hg =>
    obtain ⟨hfirst, hsecond⟩ := Bool.and_eq_true_iff.1 hs
    exact .seq (hf hfirst) (hg hsecond)
  | choose fallsThrough arms ih =>
    exact .choose fallsThrough fun arm ha => ih arm ha (isStructured_of_mem hs ha)
  | chain arms ih => exact .chain fun arm ha => ih arm ha (isStructured_of_mem hs ha)
  | loop head body orelse hh hb ho =>
    simp only [isStructured, Bool.and_eq_true] at hs
    exact .loop (hh hs.1.1) (hb hs.1.2) (ho hs.2)
  | attempt => simp [isStructured] at hs
  | jump kind => exact .jump kind

end Flow

end LostUpdate
