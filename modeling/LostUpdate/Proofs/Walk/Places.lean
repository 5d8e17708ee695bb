import LostUpdate.Proofs.Walk.Blocks
import Mathlib.Data.List.Forall2

namespace LostUpdate

theorem mem_of_forall₂ {α β : Type} {R : α → β → Prop} {l : List α} {m : List β}
    (h : List.Forall₂ R l m) {a : α} (ha : a ∈ l) : ∃ b ∈ m, R a b := by
  induction h with
  | nil => simp at ha
  | cons hab _ ih =>
    rcases List.mem_cons.1 ha with rfl | ha
    · exact ⟨_, List.mem_cons_self, hab⟩
    · obtain ⟨b, hb, hab⟩ := ih ha
      exact ⟨b, List.mem_cons_of_mem _ hb, hab⟩

/-- The segment that runs in the innermost code path. -/
def Trail.segment? (t : Trail) : Option Segment := t.opened.head?.bind fun p => p.segments.head?

namespace Trail

variable {t : Trail} {events : List Event} {s : Segment}

theorem Closed.path_ne {id : PathId} (h : t.Closed id) (he : t.AllowsAll events)
    (hs : .segment s ∈ events) : s.id.path ≠ id := by
  induction events generalizing t with
  | nil => simp at hs
  | cons e events ih =>
    rcases List.mem_cons.1 hs with rfl | hs
    · obtain ⟨q, rest, hq, continues⟩ := he.1
      rw [continues.id]
      exact h.2 q (hq ▸ List.mem_cons_self)
    · exact ih (h.record he.1) he.2 hs

theorem Inside.mem_own {path : OpenPath} {depth : ℕ} (h : t.Inside path depth) (ht : t.Consistent)
    (he : t.AllowsAll events) (hs : .segment s ∈ events) (hpath : s.id.path = path.id) :
    .segment s ∈ Event.own depth events := by
  induction events generalizing t path depth with
  | nil => simp at hs
  | cons e events ih =>
    have next := ht.record he.1
    cases h.step ht he.1 with
    | apart after inside skip keep silent =>
      rw [skip]
      refine ih inside next he.2 ((List.mem_cons.1 hs).resolve_left ?_) hpath
      rintro rfl
      have kept := keep (.start path.id path.owner none) rfl
      have own : (CodePath.start path.id path.owner none).id = s.id.path := hpath.symm
      rw [CodePath.keep, if_pos own] at kept
      exact absurd (congrArg CodePath.count kept) (Nat.succ_ne_zero 0)
    | within inside own belongs =>
      rw [own, List.mem_cons]
      exact (List.mem_cons.1 hs).imp_right fun hs => ih inside next he.2 hs hpath
    | ended closed owner returned thrown is =>
      subst is
      exact absurd hpath (closed.path_ne he.2 ((List.mem_cons.1 hs).resolve_left (by simp)))

end Trail

namespace Walk

/-- The walk stands at `p`, inside of `around`, after the events `done`. -/
structure At (done : List Event) (around : Surroundings) (p : Spot) : Prop where
  allowed : Trail.empty.AllowsAll done
  stands : ∃ rest path, Trail.empty.after done = ⟨path :: rest, p.paths⟩ ∧ p.Stands rest path ∧
    around.Around path

/-- `s` is a segment of the path `path` and has started. -/
def Begun (done : List Event) (path : PathId) (s : Segment) : Prop :=
  .segment s ∈ done ∧ s.id.path = path

theorem Begun.mono {done later : List Event} {path : PathId} {s : Segment} (h : Begun done path s)
    (hl : done <+: later) : Begun later path s :=
  ⟨hl.subset h.1, h.2⟩

variable {done later events : List Event} {around inside : Surroundings} {p q : Spot} {s : Segment}

/-- The segments of an open path are those that have started in it. -/
theorem mem_segments_iff (h : Trail.empty.AllowsAll done) {path : OpenPath}
    (hp : path ∈ (Trail.empty.after done).opened) :
    s ∈ path.segments ↔ Begun done path.id s := by
  have own := (Trail.knows_empty.after Trail.consistent_empty h).own path hp s
  rw [List.nil_append, Event.mem_segments] at own
  exact own

namespace At

theorem segment? (h : At done around p) : (Trail.empty.after done).segment? = some p.current := by
  obtain ⟨rest, path, ht, hs, -⟩ := h.stands
  obtain ⟨earlier, he⟩ := hs.current
  simp [Trail.segment?, ht, he]

theorem begun_of_mem (h : At done around p) {l : List Segment}
    (hl : ∀ rest path, p.Stands rest path → l ⊆ path.segments) (hs : s ∈ l) :
    Begun done around.path s := by
  obtain ⟨rest, path, ht, stands, ha⟩ := h.stands
  rw [ha.path_eq]
  exact (mem_segments_iff h.allowed (by simp [ht])).1 (hl rest path stands hs)

theorem current (h : At done around p) : Begun done around.path p.current :=
  h.begun_of_mem (l := [p.current]) (fun _ _ hs => by simpa using hs.current_mem)
    List.mem_cons_self

theorem left (h : At done around p) {k : Jump} (hs : s ∈ p.left k) : Begun done around.path s := by
  refine h.begun_of_mem (fun _ _ stands => ?_) hs
  cases k with
  | breakLoop => exact stands.broken
  | continueLoop => exact List.nil_subset _
  | returnOut => exact stands.returned
  | raiseOut => exact stands.thrown

theorem move (h : At done around p) (hm : ∀ rest path, p.Stands rest path → around.Around path →
    (∀ s, Begun done around.path s → s ∈ path.segments) →
      ∃ after, Stretch rest path p.paths events after q ∧ inside.Around after) :
    At (done ++ events) inside q := by
  obtain ⟨rest, path, ht, stands, ha⟩ := h.stands
  obtain ⟨after, stretch, hi⟩ := hm rest path stands ha fun s hs =>
    (mem_segments_iff h.allowed (by simp [ht])).2 (ha.path_eq ▸ hs)
  refine ⟨Trail.allowsAll_append.2 ⟨h.allowed, ht ▸ stretch.allowed⟩, rest, after, ?_,
    stretch.stands, hi⟩
  rw [Trail.after_append, ht, stretch.trail]

theorem walk (h : At done around p) (f : Flow) :
    At (done ++ (f.walk around p).1) around (f.walk around p).2 :=
  h.move fun _ _ stands ha _ =>
    let ⟨after, stretch⟩ := f.stretches stands ha
    ⟨after, stretch, stretch.around ha⟩

/-- The segments of the path around that start in a walk start in it and in no path inside. -/
theorem mem_own (h : At done around p) (f : Flow) (hs : .segment s ∈ (f.walk around p).1)
    (hpath : s.id.path = around.path) :
    s ∈ Event.segments (Event.own 0 (f.walk around p).1) := by
  obtain ⟨rest, path, ht, stands, ha⟩ := h.stands
  have inside : (Trail.empty.after done).Inside path 0 := ⟨[], rest, by rw [ht]; rfl, rfl⟩
  exact Event.mem_segments.2 (inside.mem_own (Trail.consistent_empty.after h.allowed)
    (Trail.allowsAll_append.1 (h.walk f).allowed).2 hs (hpath.trans ha.path_eq))

theorem start (h : At done around p) {previous : List Segment}
    (hp : ∀ s ∈ previous, Begun done around.path s) :
    At (done ++ (startSegment around.path previous p).1) around
      (startSegment around.path previous p).2 :=
  h.move fun _ _ stands ha known =>
    let ⟨after, stretch, _⟩ := startSegment_stretch stands ha fun s hs => known s (hp s hs)
    ⟨after, stretch, stretch.around ha⟩

theorem startOne (h : At done around p) (hs : Begun done around.path s) :
    At (done ++ (startSegment around.path [s] p).1) around (startSegment around.path [s] p).2 :=
  h.start (by simpa using hs)

/-- Other jumps may be kept in mind, as long as they have left from the path. -/
theorem withJumps (h : At done around p) {broken returned thrown : List Segment}
    (hb : ∀ s ∈ broken, Begun done around.path s) (hr : ∀ s ∈ returned, Begun done around.path s)
    (ht : ∀ s ∈ thrown, Begun done around.path s) :
    At done around { p with broken := broken, returned := returned, thrown := thrown } := by
  have here : At (done ++ []) around
      { p with broken := broken, returned := returned, thrown := thrown } :=
    h.move fun _ _ stands ha known => ⟨_, (Stretch.refl stands).withJumps
      (fun s hs => known s (hb s hs)) (fun s hs => known s (hr s hs)) (fun s hs => known s (ht s hs)),
      ha⟩
  rwa [List.append_nil] at here

theorem walkArms (h : At done around p) {starts : List Segment}
    (hs : ∀ s ∈ starts, Begun done around.path s) (arms : List Flow) :
    At (done ++ (Flow.walkArms around starts arms p).1) around
      (Flow.walkArms around starts arms p).2.2 :=
  h.move fun _ _ stands ha known =>
    let ⟨after, stretch, _⟩ := Flow.Stretches.walkArms (fun arm _ => arm.stretches) stands ha
      fun s hm => known s (hs s hm)
    ⟨after, stretch, stretch.around ha⟩

/-- What has surrounded the walk before may surround it again. -/
theorem outside (h : At done around p) (k : At later inside q) (hl : done <+: later)
    (hp : inside.path = around.path) : At later around q := by
  obtain ⟨rest, path, ht, stands, ha⟩ := h.stands
  obtain ⟨rest', path', ht', stands', ha'⟩ := k.stands
  refine ⟨k.allowed, rest', path', ht', stands', hp ▸ ha'.path_eq, fun s hs => ?_⟩
  obtain ⟨earlier, he⟩ := stands.current
  obtain ⟨earlier', he'⟩ := stands'.current
  have grown : path.segments ⊆ path'.segments := fun r hr => by
    have begun := (mem_segments_iff h.allowed (by simp [ht])).1 hr
    rw [← ha.path_eq, ← hp, ha'.path_eq] at begun
    exact (mem_segments_iff k.allowed (by simp [ht'])).2 (begun.mono hl)
  have mem := ha.continuation s hs
  have now := grown (List.mem_of_mem_tail mem)
  rw [he] at mem
  rw [he'] at now ⊢
  refine (List.mem_cons.1 now).resolve_left fun same => ?_
  -- The segment that runs has the greatest number.
  have successive := stands.successive
  have successive' := stands'.successive
  rw [he] at successive
  have bound := successive.2.number_le s mem
  have number : q.current.id.number = path'.segments.length := by
    rw [he'] at successive' ⊢
    rw [successive'.1.id, List.length_cons]
  have longer := (List.subperm_of_subset
    (List.Nodup.of_map _ stands.successive.nodup_ids) grown).length_le
  rw [← same] at number
  rw [he, List.length_cons] at longer
  omega

/-- Inside of a loop, `continue` goes back to a segment that has started before. -/
theorem enterLoop (h : At done around p) {previous : List Segment} {target : Segment}
    (hp : ∀ s ∈ previous, Begun done around.path s) (ht : Begun done around.path target) :
    At (done ++ (startSegment around.path previous p).1)
      { around with continuation := some target } (startSegment around.path previous p).2 :=
  h.move fun _ _ stands ha known => by
    obtain ⟨after, stretch, grown⟩ := startSegment_stretch stands ha fun s hs => known s (hp s hs)
    refine ⟨after, stretch, (stretch.around ha).path_eq, fun s hs => ?_⟩
    obtain rfl : target = s := by simpa using hs
    rw [grown]
    exact known _ ht

theorem goBack (h : At done around p) {target : Segment} (ht : around.continuation = some target) :
    At (done ++ (Walk.goBack target p).1) around p :=
  h.move fun _ _ stands ha _ =>
    ⟨_, goBack_stretch stands (ha.continuation _ ht), ha⟩

end At

end Walk

namespace Flow

open Walk

variable {done : List Event} {around : Surroundings} {p : Spot}

section Loop

variable (head body orelse : Flow)

theorem at_loopStart (h : At done around p) :
    At (done ++ (startSegment around.path [p.current] p).1) around (loopStart around p) :=
  h.startOne h.current

theorem at_loopFork (h : At done around p) :
    At (done ++ (startSegment around.path [p.current] p).1 ++ (walk around head (loopStart around p)).1)
      around (loopFork around head p) :=
  (at_loopStart h).walk head

theorem at_loopTurn (h : At done around p) :
    At (done ++ (startSegment around.path [p.current] p).1 ++ (walk around head (loopStart around p)).1 ++
        (startSegment around.path [(loopFork around head p).current] (loopFork around head p)).1)
      (insideLoop around p) (loopTurn around head p) := by
  have fork := at_loopFork head h
  have turn := fork.enterLoop (List.forall_mem_singleton.2 fork.current)
    ((at_loopStart h).current.mono (List.prefix_append _ _))
  exact turn.withJumps (List.forall_mem_nil _) (fun s hs => turn.left (k := .returnOut) hs)
    fun s hs => turn.left (k := .raiseOut) hs

theorem at_loopExit (h : At done around p) :
    At (done ++ (startSegment around.path [p.current] p).1 ++ (walk around head (loopStart around p)).1 ++
        (startSegment around.path [(loopFork around head p).current] (loopFork around head p)).1 ++
        (walk (insideLoop around p) body (loopTurn around head p)).1 ++
        (goBack (loopStart around p).current (loopEnd around head body p)).1 ++
        (startSegment around.path [(loopFork around head p).current]
          { loopEnd around head body p with broken := (loopFork around head p).broken }).1)
      around (loopExit around head body p) := by
  have fork := at_loopFork head h
  have back := ((at_loopTurn head h).walk body).goBack rfl
  have outside := fork.outside back (by simp) rfl
  have kept : At _ around
      { loopEnd around head body p with broken := (loopFork around head p).broken } :=
    outside.withJumps (fun s hs => (fork.left (k := .breakLoop) hs).mono (by simp))
      (fun s hs => outside.left (k := .returnOut) hs) fun s hs => outside.left (k := .raiseOut) hs
  exact kept.startOne (fork.current.mono (by simp))

end Loop

/-- Among `events`, which come after `done` in the path `path` and end at `last`, is a walk of `g` from
some spot. Where jumps of the kinds `kinds` have left after it, they have left at `last`. -/
def FoundIn (kinds : List Jump) (g : Flow) (done events : List Event) (path : PathId) (last : Spot) :
    Prop :=
  ∃ before inside q later, events = before ++ ((g.walk inside q).1 ++ later) ∧
    At (done ++ before) inside q ∧ inside.path = path ∧
      ∀ k ∈ kinds, (g.walk inside q).2.left k ⊆ last.left k

/-- Wherever `f` is walked, `g` is, and `f` hands on the jumps of the kinds `kinds` that leave `g`. -/
def Holds (kinds : List Jump) (g f : Flow) : Prop :=
  ∀ ⦃done around p⦄, At done around p →
    g.FoundIn kinds done (f.walk around p).1 around.path (f.walk around p).2

variable {kinds : List Jump} {g f : Flow} {arms : List Flow} {starts : List Segment}

theorem FoundIn.widen {done first events second all : List Event} {path : PathId} {last final : Spot}
    (h : g.FoundIn kinds (done ++ first) events path last)
    (left : ∀ k ∈ kinds, last.left k ⊆ final.left k)
    (hall : all = first ++ (events ++ second)) :
    g.FoundIn kinds done all path final := by
  obtain ⟨before, inside, q, later, rfl, here, hpath, hleft⟩ := h
  refine ⟨first ++ before, inside, q, later ++ second, ?_, ?_, hpath, fun k hk =>
    List.Subset.trans (hleft k hk) (left k hk)⟩
  · simp [hall]
  · rwa [← List.append_assoc]

theorem FoundIn.widenLast {done first events all : List Event} {path : PathId} {last final : Spot}
    (h : g.FoundIn kinds (done ++ first) events path last)
    (left : ∀ k ∈ kinds, last.left k ⊆ final.left k) (hall : all = first ++ events) :
    g.FoundIn kinds done all path final :=
  h.widen left (hall.trans (by rw [List.append_nil events]))

theorem Holds.trans {f e : Flow} (h : Holds kinds g f) (k : Holds kinds f e) :
    Holds kinds g e := by
  intro done around p here
  obtain ⟨before, inside, q, later, hevents, inner, hpath, left⟩ := k here
  have found := h inner
  rw [hpath] at found
  exact found.widen left hevents

theorem Holds.self (kinds : List Jump) (g : Flow) : Holds kinds g g := fun _ around p h =>
  ⟨[], around, p, [], by simp, by simpa using h, rfl, fun _ _ => List.Subset.refl _⟩

/-- The walk of an arm, from a segment of its own. -/
def walkArm (around : Surroundings) (starts : List Segment) (f : Flow) : Walk :=
  andThen (startSegment around.path starts) (walk around f)

/-- Each arm is walked in its turn, and its end is one of the ends. -/
theorem walkArms_each (h : At done around p) {starts : List Segment}
    (hs : ∀ s ∈ starts, Begun done around.path s) (arms : List Flow) :
    List.Forall₂ (fun f s => ∃ before q later,
      (walkArms around starts arms p).1 = before ++ ((walkArm around starts f q).1 ++ later) ∧
      At (done ++ before) around q ∧ s = (walkArm around starts f q).2.current ∧
      ∀ k, (walkArm around starts f q).2.left k ⊆ (walkArms around starts arms p).2.2.left k)
      arms (walkArms around starts arms p).2.1 := by
  induction arms generalizing done p with
  | nil => exact .nil
  | cons arm arms ih =>
    have inArm := (h.start hs).walk arm
    refine .cons ⟨[], p, _, rfl, by simpa using h, rfl, walkArms_left around starts arms _⟩ ?_
    refine (ih inArm fun s hm => (hs s hm).mono (by simp)).imp ?_
    rintro f s ⟨before, q, later, hevents, here, rfl, left⟩
    refine ⟨(walkArm around starts arm p).1 ++ before, q, later, ?_, ?_, rfl, left⟩
    · simp only [walkArms, hevents, walkArm, andThen, List.append_assoc]
    · simpa [walkArm, andThen] using here

theorem begun_ends (h : At done around p) (hs : ∀ s ∈ starts, Begun done around.path s)
    (arms : List Flow) : ∀ s ∈ (walkArms around starts arms p).2.1,
      Begun (done ++ (walkArms around starts arms p).1) around.path s := by
  intro s hmem
  obtain ⟨f, -, before, q, later, hevents, here, rfl, -⟩ :=
    mem_of_forall₂ (walkArms_each h hs arms).flip hmem
  have ended := (here.start fun r hr => (hs r hr).mono (List.prefix_append _ _)).walk f
  refine ended.current.mono ?_
  rw [hevents, walkArm, andThen]
  simp

theorem Holds.ofArm (hf : f ∈ arms) (h : Holds kinds g f) (ha : At done around p)
    (hs : ∀ s ∈ starts, Begun done around.path s) :
    g.FoundIn kinds done (walkArms around starts arms p).1 around.path
      (walkArms around starts arms p).2.2 := by
  obtain ⟨-, -, before, q, later, hevents, here, -, left⟩ :=
    mem_of_forall₂ (walkArms_each ha hs arms) hf
  have inArm := h (here.start fun s hm => (hs s hm).mono (List.prefix_append _ _))
  rw [List.append_assoc] at inArm
  exact inArm.widen (fun k _ => left k)
    (by rw [hevents, walkArm, andThen]; simp only [List.append_assoc]; rfl)

theorem Holds.ofLink (hf : f ∈ arms) (h : Holds kinds g f) (ha : At done around p) :
    g.FoundIn kinds done (walkChain around arms p).1 around.path (walkChain around arms p).2.2 := by
  induction arms generalizing done p with
  | nil => simp at hf
  | cons arm arms ih =>
    have start := ha.startOne ha.current
    rcases List.mem_cons.1 hf with rfl | hf
    · exact (h start).widen (fun k _ => walkChain_left around arms _ k) (List.append_assoc _ _ _)
    · have inRest := ih hf (start.walk arm)
      rw [List.append_assoc] at inRest
      exact inRest.widenLast (fun k _ => List.Subset.refl _) (by rw [walkChain])

theorem loopEnd_left (head body orelse : Flow) (around : Surroundings) (p : Spot) {k : Jump}
    (hk : k ∈ [Jump.returnOut, .raiseOut]) :
    (loopFork around head p).left k ⊆ (loopEnd around head body p).left k ∧
      (loopEnd around head body p).left k ⊆ (loopElse around head body orelse p).left k := by
  have inBody := walk_left (insideLoop around p) body (loopTurn around head p) k
  have inElse := walk_left around orelse (loopExit around head body p) k
  simp only [List.mem_cons, List.not_mem_nil, or_false] at hk
  rcases hk with rfl | rfl <;> exact ⟨inBody, inElse⟩

/-- A flow hands on returns and raises from its parts. -/
theorem Holds.rises (hkinds : kinds ⊆ [.returnOut, .raiseOut]) (g : Flow) :
    Rises (Holds kinds g) where
  first {f e} h done around p here := by
    rw [← List.append_nil done] at here
    exact (h here).widen (fun k _ => walk_left around e _ k) rfl
  second {f e} h done around p here :=
    (h (here.walk f)).widenLast (fun k _ => List.Subset.refl _) rfl
  arm hf h done around p here := by
    have inArms := Holds.ofArm hf h here (List.forall_mem_singleton.2 here.current)
    rw [← List.append_nil done] at inArms
    exact inArms.widen (fun k _ => (startSegment_left _ _ _ k).symm ▸ List.Subset.refl _) rfl
  link hf h done around p here := by
    have inArms := Holds.ofLink hf h here
    rw [← List.append_nil done] at inArms
    exact inArms.widen (fun k _ => (startSegment_left _ _ _ k).symm ▸ List.Subset.refl _) rfl
  head {head body orelse} h done around p here := by
    refine (h (at_loopStart here)).widen (fun k hk => ?_)
      (by rw [walk_loop]; simp only [List.append_assoc]; rfl)
    have ended := loopEnd_left head body orelse around p (hkinds hk)
    exact List.Subset.trans ended.1 ended.2
  turn {head body orelse} h done around p here := by
    have inBody := h (at_loopTurn head here)
    simp only [List.append_assoc done] at inBody
    exact inBody.widen (fun k hk => (loopEnd_left head body orelse around p (hkinds hk)).2)
      (by rw [walk_loop]; simp only [List.append_assoc]; rfl)
  leaving {head body orelse} h done around p here := by
    have inElse := h (at_loopExit head body here)
    simp only [List.append_assoc done] at inElse
    exact inElse.widen (fun k _ => (startSegment_left _ _ _ k).symm ▸ List.Subset.refl _)
      (by rw [walk_loop]; simp only [List.append_assoc]; rfl)

end Flow

end LostUpdate
