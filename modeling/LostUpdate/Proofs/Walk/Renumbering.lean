import LostUpdate.Proofs.Walk.Moves
import LostUpdate.Proofs.Walk.Trail
import Mathlib.Data.List.Basic

namespace LostUpdate

def PathId.shift (k : Nat) : PathId → PathId
  | ordinal n => ordinal (n + k)
  | named name => named name

def SegmentId.shift (k : Nat) (s : SegmentId) : SegmentId := ⟨s.path.shift k, s.number⟩

def Segment.shift (k : Nat) (s : Segment) : Segment :=
  ⟨s.id.shift k, s.previous.map (SegmentId.shift k), s.isReachable⟩

/-- The event with all numbers moved by `k`. The outermost path comes to stand in `above`. -/
def Event.shift (k : Nat) (above : Option PathId) : Event → Event
  | pathStart path owner upper =>
    pathStart (path.shift k) owner ((upper.map (PathId.shift k)).or above)
  | segment s => segment (s.shift k)
  | backEdge source target => backEdge (source.shift k) (target.shift k)
  | enter n => enter n
  | exit n => exit n
  | pathEnd path owner returned thrown =>
    pathEnd (path.shift k) owner (returned.map (Segment.shift k)) (thrown.map (Segment.shift k))

def Spot.shift (k : Nat) (p : Spot) : Spot :=
  ⟨p.current.shift k, p.segments, p.paths + k, p.broken.map (Segment.shift k),
    p.returned.map (Segment.shift k), p.thrown.map (Segment.shift k)⟩

def Surroundings.shift (k : Nat) (around : Surroundings) : Surroundings :=
  ⟨around.path.shift k, around.continuation.map (Segment.shift k)⟩

theorem PathId.shift_injective (k : Nat) : Function.Injective (PathId.shift k) := by
  intro a b h
  cases a <;> cases b <;> simp_all [shift]

theorem SegmentId.shift_injective (k : Nat) : Function.Injective (SegmentId.shift k) := by
  rintro ⟨a, i⟩ ⟨b, j⟩ h
  obtain ⟨hpath, rfl⟩ : a.shift k = b.shift k ∧ i = j := by simpa [shift] using h
  rw [PathId.shift_injective k hpath]

theorem Segment.shift_injective (k : Nat) : Function.Injective (Segment.shift k) := by
  rintro ⟨a, l, r⟩ ⟨b, m, r'⟩ h
  obtain ⟨hid, hprevious, rfl⟩ : a.shift k = b.shift k ∧
      l.map (SegmentId.shift k) = m.map (SegmentId.shift k) ∧ r = r' := by simpa [shift] using h
  rw [SegmentId.shift_injective k hid,
    List.map_injective_iff.2 (SegmentId.shift_injective k) hprevious]

/-- Renaming apart and dropping repetitions can be done in any order. -/
theorem eraseDups_map {α β : Type} [DecidableEq α] [DecidableEq β] {f : α → β}
    (hf : Function.Injective f) (l : List α) : (l.map f).eraseDups = l.eraseDups.map f := by
  induction hn : l.length using Nat.strongRecOn generalizing l with
  | ind n ih =>
    cases l with
    | nil => rfl
    | cons a l =>
      have rest : (l.map f).filter (fun b => !b == f a) = (l.filter fun b => !b == a).map f := by
        rw [List.filter_map]
        congr 1
        refine List.filter_congr fun b _ => ?_
        simp [hf.eq_iff]
      have shorter : (l.filter fun b => !b == a).length < n := by
        have bound := List.length_filter_le (fun b => !b == a) l
        rw [List.length_cons] at hn
        omega
      rw [List.map_cons, List.eraseDups_cons, List.eraseDups_cons, List.map_cons, rest,
        ih _ shorter _ rfl]

variable (k : Nat) (above : Option PathId)

@[simp] theorem Segment.shift_isReachable (s : Segment) :
    (s.shift k).isReachable = s.isReachable := rfl

@[simp] theorem Segment.shift_id (s : Segment) : (s.shift k).id = s.id.shift k := rfl

@[simp] theorem Surroundings.shift_path (around : Surroundings) :
    (around.shift k).path = around.path.shift k := rfl

namespace Spot

variable (p : Spot)

@[simp] theorem shift_current : (p.shift k).current = p.current.shift k := rfl

@[simp] theorem shift_segments : (p.shift k).segments = p.segments := rfl

@[simp] theorem shift_paths : (p.shift k).paths = p.paths + k := rfl

@[simp] theorem shift_broken : (p.shift k).broken = p.broken.map (Segment.shift k) := rfl

@[simp] theorem shift_returned : (p.shift k).returned = p.returned.map (Segment.shift k) := rfl

@[simp] theorem shift_thrown : (p.shift k).thrown = p.thrown.map (Segment.shift k) := rfl

end Spot

namespace Walk

/-- A walk and the same walk where `k` more paths have started. -/
def Shifts (w w' : Walk) : Prop :=
  ∀ p, w' (p.shift k) = ((w p).1.map (Event.shift k above), (w p).2.shift k)

namespace Shifts

variable {k above} {w w' : Walk}

theorem events (h : Shifts k above w w') (p : Spot) :
    (w' (p.shift k)).1 = (w p).1.map (Event.shift k above) :=
  congrArg Prod.fst (h p)

theorem spot (h : Shifts k above w w') (p : Spot) : (w' (p.shift k)).2 = (w p).2.shift k :=
  congrArg Prod.snd (h p)

end Shifts

theorem startSegment_shifts (path : PathId) (previous : List Segment) :
    Shifts k above (startSegment path previous)
      (startSegment (path.shift k) (previous.map (Segment.shift k))) := by
  intro p
  have live : Segment.distinct ((previous.map (Segment.shift k)).filter (·.isReachable)) =
      (Segment.distinct (previous.filter (·.isReachable))).map (Segment.shift k) := by
    unfold Segment.distinct
    rw [← eraseDups_map (Segment.shift_injective k), List.filter_map]
    rfl
  simp only [startSegment, live]
  simp [Event.shift, Segment.shift, Spot.shift, SegmentId.shift, Function.comp_def]

theorem startOne_shifts (path : PathId) (s : Segment) :
    Shifts k above (startSegment path [s]) (startSegment (path.shift k) [s.shift k]) :=
  startSegment_shifts k above path [s]

theorem goBack_shifts (target : Segment) :
    Shifts k above (goBack target) (goBack (target.shift k)) := by
  intro p
  cases hr : p.current.isReachable <;> simp [goBack, hr, Event.shift]

theorem andThen_shifts {v v' w w' : Walk} (hv : Shifts k above v v') (hw : Shifts k above w w') :
    Shifts k above (andThen v w) (andThen v' w') := by
  intro p
  simp only [andThen, hv p, hw (v p).2, List.map_append]

theorem leave_shifts (around : Surroundings) (kind : Jump) :
    Shifts k above (leave around kind) (leave (around.shift k) kind) := by
  intro p
  have dead := startSegment_shifts k above around.path []
  cases kind with
  | continueLoop =>
    cases hc : around.continuation with
    | none => simpa [leave, Surroundings.shift, hc] using dead p
    | some target =>
      have both := andThen_shifts k above (goBack_shifts k above target) dead p
      simpa [leave, Surroundings.shift, hc] using both
  | breakLoop =>
    have here := dead { p with broken := p.broken ++ [p.current] }
    simp only [Spot.shift, List.map_append] at here
    exact here
  | returnOut =>
    have here := dead { p with returned := p.returned ++ [p.current] }
    simp only [Spot.shift, List.map_append] at here
    exact here
  | raiseOut =>
    have here := dead { p with thrown := p.thrown ++ [p.current] }
    simp only [Spot.shift, List.map_append] at here
    exact here

/-- A path of its own starts where as many paths more have started. -/
theorem ownPath_shift (upper : Option PathId) (owner : Node) (body body' : Surroundings → Walk)
    (paths : Nat) (h : ∀ around, Shifts k above (body around) (body' (around.shift k))) :
    ownPath ((upper.map (PathId.shift k)).or above) owner body' (paths + k) =
      ((ownPath upper owner body paths).1.map (Event.shift k above),
        (ownPath upper owner body paths).2 + k) := by
  have inside := h ⟨.ordinal (paths + 1), none⟩
    ⟨⟨⟨.ordinal (paths + 1), 1⟩, [], true⟩, 1, paths + 1, [], [], []⟩
  have number : paths + k + 1 = paths + 1 + k := by omega
  simp only [Spot.shift, Surroundings.shift, Segment.shift, SegmentId.shift, PathId.shift,
    List.map_nil, Option.map_none] at inside
  simp only [ownPath, number, inside]
  simp [Event.shift, Segment.shift, SegmentId.shift, PathId.shift]

end Walk

namespace Flow

open Walk

/-- A walk of `f` does not look at the numbers of its paths. -/
def Renumbers (f : Flow) : Prop :=
  ∀ around, Walk.Shifts k above (walk around f) (walk (around.shift k) f)

namespace Renumbers

variable {k above} {first second head body orelse final : Flow} {arms handlers : List Flow}

theorem seq (hf : first.Renumbers k above) (hs : second.Renumbers k above) :
    (Flow.seq first second).Renumbers k above :=
  fun around => andThen_shifts k above (hf around) (hs around)

theorem walkArms (hw : ∀ arm ∈ arms, arm.Renumbers k above) (around : Surroundings)
    (starts : List Segment) (p : Spot) :
    walkArms (around.shift k) (starts.map (Segment.shift k)) arms (p.shift k) =
      ((walkArms around starts arms p).1.map (Event.shift k above),
        (walkArms around starts arms p).2.1.map (Segment.shift k),
        (walkArms around starts arms p).2.2.shift k) := by
  induction arms generalizing p with
  | nil => rfl
  | cons arm arms ih =>
    have start := startSegment_shifts k above around.path starts p
    simp only [Flow.walkArms, Surroundings.shift_path, start]
    rw [hw arm List.mem_cons_self around, ih fun arm h => hw arm (List.mem_cons_of_mem _ h)]
    simp

theorem walkChain (hw : ∀ arm ∈ arms, arm.Renumbers k above) (around : Surroundings) (p : Spot) :
    walkChain (around.shift k) arms (p.shift k) =
      ((walkChain around arms p).1.map (Event.shift k above),
        (walkChain around arms p).2.1.map (Segment.shift k),
        (walkChain around arms p).2.2.shift k) := by
  induction arms generalizing p with
  | nil => rfl
  | cons arm arms ih =>
    have start := startOne_shifts k above around.path p.current p
    simp only [Flow.walkChain, Surroundings.shift_path, Spot.shift_current, start]
    rw [hw arm List.mem_cons_self around, ih fun arm h => hw arm (List.mem_cons_of_mem _ h)]
    simp

theorem choose (fallsThrough : Bool) (hw : ∀ arm ∈ arms, arm.Renumbers k above) :
    (Flow.choose fallsThrough arms).Renumbers k above := by
  intro around p
  have inArms := walkArms hw around [p.current] p
  generalize hr : Flow.walkArms around [p.current] arms p = r at inArms
  have after := startSegment_shifts k above around.path
    ((if fallsThrough then [p.current] else []) ++ r.2.1) r.2.2
  have starts : ((if fallsThrough then [p.current] else []) ++ r.2.1).map (Segment.shift k) =
      (if fallsThrough then [p.current.shift k] else []) ++ r.2.1.map (Segment.shift k) := by
    cases fallsThrough <;> simp
  rw [starts] at after
  simp only [List.map_cons, List.map_nil] at inArms
  simp only [walk, Spot.shift_current, Surroundings.shift_path, inArms, after, hr,
    List.map_append]

theorem chain (hw : ∀ arm ∈ arms, arm.Renumbers k above) :
    (Flow.chain arms).Renumbers k above := by
  intro around p
  have inArms := walkChain hw around p
  have after := startSegment_shifts k above around.path (Flow.walkChain around arms p).2.1
    (Flow.walkChain around arms p).2.2
  simp only [walk, Surroundings.shift_path, inArms, after, List.map_append]

section Loop

variable {around : Surroundings} {p : Spot}

theorem loopStart_shift : loopStart (around.shift k) (p.shift k) = (loopStart around p).shift k :=
  (startOne_shifts k none around.path p.current).spot p

theorem insideLoop_shift : insideLoop (around.shift k) (p.shift k) = (insideLoop around p).shift k := by
  rw [insideLoop, loopStart_shift]
  rfl

variable (hh : head.Renumbers k above)

include hh

theorem loopFork_shift :
    loopFork (around.shift k) head (p.shift k) = (loopFork around head p).shift k := by
  rw [loopFork, loopStart_shift]
  exact (hh around).spot (loopStart around p)

theorem loopTurn_shift :
    loopTurn (around.shift k) head (p.shift k) = (loopTurn around head p).shift k := by
  have turning := (startOne_shifts k none around.path (loopFork around head p).current).spot
    (loopFork around head p)
  rw [loopTurn, loopFork_shift hh, Spot.shift_current, Surroundings.shift_path, turning]
  rfl

variable (hb : body.Renumbers k above)

include hb

theorem loopEnd_shift :
    loopEnd (around.shift k) head body (p.shift k) = (loopEnd around head body p).shift k := by
  rw [loopEnd, insideLoop_shift, loopTurn_shift hh]
  exact (hb (insideLoop around p)).spot (loopTurn around head p)

theorem loopExit_shift :
    loopExit (around.shift k) head body (p.shift k) = (loopExit around head body p).shift k := by
  rw [loopExit, loopFork_shift hh, loopEnd_shift hh hb]
  exact (startOne_shifts k none around.path (loopFork around head p).current).spot
    { loopEnd around head body p with broken := (loopFork around head p).broken }

variable (ho : orelse.Renumbers k above)

include ho

theorem loopElse_shift : loopElse (around.shift k) head body orelse (p.shift k) =
    (loopElse around head body orelse p).shift k := by
  rw [loopElse, loopExit_shift hh hb]
  exact (ho around).spot (loopExit around head body p)

theorem loop : (Flow.loop head body orelse).Renumbers k above := by
  intro around p
  have atStart := (startOne_shifts k above around.path p.current).events p
  have inHead := (hh around).events (loopStart around p)
  have atTurn := (startOne_shifts k above around.path (loopFork around head p).current).events
    (loopFork around head p)
  have inBody := (hb (insideLoop around p)).events (loopTurn around head p)
  have back := (goBack_shifts k above (loopStart around p).current).events
    (loopEnd around head body p)
  have atExit := (startOne_shifts k above around.path (loopFork around head p).current).events
    { loopEnd around head body p with broken := (loopFork around head p).broken }
  have inElse := (ho around).events (loopExit around head body p)
  have joined := startSegment_shifts k above around.path
    ((loopElse around head body orelse p).current :: (loopEnd around head body p).broken)
  have after : loopAfter (around.shift k) head body orelse (p.shift k) =
      (loopAfter around head body orelse p).shift k := by
    rw [loopAfter, loopElse_shift hh hb ho, loopEnd_shift hh hb]
    exact joined.spot (loopElse around head body orelse p)
  simp only [walk_loop, List.map_append, ← atStart, ← inHead, ← atTurn, ← inBody, ← back, ← atExit,
    ← inElse, ← joined.events (loopElse around head body orelse p), after, loopStart_shift,
    insideLoop_shift, loopFork_shift hh, loopTurn_shift hh, loopEnd_shift hh hb,
    loopExit_shift hh hb, loopElse_shift hh hb ho]
  rfl

end Loop

section Attempt

variable {around : Surroundings} {p : Spot}

theorem tryStart_shift : tryStart (around.shift k) (p.shift k) = (tryStart around p).shift k :=
  (startOne_shifts k none around.path p.current).spot p

theorem tryBody_shift : tryBody (around.shift k) (p.shift k) = (tryBody around p).shift k := by
  rw [tryBody, tryStart_shift]
  rfl

variable (hb : body.Renumbers k above)

include hb

theorem tryEnd_shift :
    tryEnd (around.shift k) body (p.shift k) = (tryEnd around body p).shift k := by
  rw [tryEnd, tryBody_shift]
  exact (hb around).spot (tryBody around p)

theorem tryRisks_shift : tryRisks (around.shift k) body (p.shift k) =
    (tryRisks around body p).map (Segment.shift k) := by
  rw [tryRisks, tryStart_shift, tryEnd_shift hb]
  rfl

theorem tryCatch_shift :
    tryCatch (around.shift k) body (p.shift k) = (tryCatch around body p).shift k := by
  rw [tryCatch, tryEnd_shift hb]
  rfl

variable (hw : ∀ handler ∈ handlers, handler.Renumbers k above)

include hw

theorem tryHandled_shift : tryHandled (around.shift k) body handlers (p.shift k) =
    ((tryHandled around body handlers p).1.map (Segment.shift k),
      (tryHandled around body handlers p).2.shift k) := by
  rw [tryHandled, tryRisks_shift hb, tryCatch_shift hb]
  exact congrArg Prod.snd (walkArms hw around (tryRisks around body p) (tryCatch around body p))

theorem tryGoOn_shift : tryGoOn (around.shift k) body handlers (p.shift k) =
    (tryGoOn around body handlers p).shift k := by
  rw [tryGoOn, tryHandled_shift hb hw, tryEnd_shift hb]
  exact (startOne_shifts k none around.path (tryEnd around body p).current).spot
    (tryHandled around body handlers p).2

variable (ho : orelse.Renumbers k above)

include ho

theorem tryElse_shift : tryElse (around.shift k) body handlers orelse (p.shift k) =
    (tryElse around body handlers orelse p).shift k := by
  rw [tryElse, tryGoOn_shift hb hw]
  exact (ho around).spot (tryGoOn around body handlers p)

theorem tryEnds_shift : tryEnds (around.shift k) body handlers orelse (p.shift k) =
    (tryEnds around body handlers orelse p).map (Segment.shift k) := by
  rw [tryEnds, tryElse_shift hb hw ho, tryHandled_shift hb hw]
  rfl

theorem tryExits_shift : tryExits (around.shift k) body handlers orelse (p.shift k) =
    (tryExits around body handlers orelse p).map (Segment.shift k) := by
  have live : ((tryEnds around body handlers orelse p).map (Segment.shift k)).any (·.isReachable) =
      (tryEnds around body handlers orelse p).any (·.isReachable) := by
    rw [List.any_map]
    rfl
  rw [tryExits, tryEnds_shift hb hw ho, tryEnd_shift hb, live, tryExits,
    apply_ite (List.map (Segment.shift k)), List.map_append]
  rfl

theorem tryLeft_shift : tryLeft (around.shift k) body handlers orelse (p.shift k) =
    (tryLeft around body handlers orelse p).shift k := by
  rw [tryLeft, tryElse_shift hb hw ho, tryEnd_shift hb]
  cases handlers <;> simp [tryLeft, Spot.shift]

theorem tryEvents_shift : tryEvents (around.shift k) body handlers orelse (p.shift k) =
    (tryEvents around body handlers orelse p).map (Event.shift k above) := by
  have atStart := (startOne_shifts k above around.path p.current).events p
  have inBody := (hb around).events (tryBody around p)
  have inHandlers : (Flow.walkArms (around.shift k) ((tryRisks around body p).map (Segment.shift k))
      handlers ((tryCatch around body p).shift k)).1 =
        (Flow.walkArms around (tryRisks around body p) handlers
          (tryCatch around body p)).1.map (Event.shift k above) :=
    congrArg Prod.fst (walkArms hw around (tryRisks around body p) (tryCatch around body p))
  have goOn := (startOne_shifts k above around.path (tryEnd around body p).current).events
    (tryHandled around body handlers p).2
  have inElse := (ho around).events (tryGoOn around body handlers p)
  simp only [tryEvents, List.map_append, ← atStart, ← inBody, ← inHandlers, ← goOn, ← inElse,
    tryBody_shift, tryRisks_shift hb, tryCatch_shift hb, tryHandled_shift hb hw, tryEnd_shift hb,
    tryGoOn_shift hb hw]
  rfl

theorem attempt (final : Option Flow) (hf : ∀ f ∈ final, f.Renumbers k above) :
    (Flow.attempt body handlers orelse final).Renumbers k above := by
  intro around p
  have parts : tryEvents (around.shift k) body handlers orelse (p.shift k) = _ :=
    tryEvents_shift hb hw ho
  cases final with
  | none =>
    have joined := startSegment_shifts k above around.path (tryEnds around body handlers orelse p)
      (tryLeft around body handlers orelse p)
    rw [walk_attempt_none, walk_attempt_none, parts, tryEnds_shift hb hw ho,
      tryLeft_shift hb hw ho, Surroundings.shift_path, joined, List.map_append]
  | some final =>
    have start := startSegment_shifts k above around.path (tryExits around body handlers orelse p)
    have inFinal := hf final rfl around (tryFinal around body handlers orelse p)
    have begun : tryFinal (around.shift k) body handlers orelse (p.shift k) =
        (tryFinal around body handlers orelse p).shift k := by
      rw [tryFinal, tryExits_shift hb hw ho, tryElse_shift hb hw ho]
      exact start.spot (tryElse around body handlers orelse p)
    rw [walk_attempt_some, walk_attempt_some, parts, begun, tryExits_shift hb hw ho,
      tryElse_shift hb hw ho, inFinal, Surroundings.shift_path,
      start.events (tryElse around body handlers orelse p), List.map_append, List.map_append]

end Attempt

theorem codePath (owner : Node) (hb : body.Renumbers k above) :
    (Flow.codePath owner body).Renumbers k above := by
  intro around p
  have inside := ownPath_shift k above (some around.path) owner
    (fun inside => walk inside body) (fun inside => walk inside body) p.paths hb
  simp only [Option.map_some, Option.some_or] at inside
  simp only [walk, Surroundings.shift_path, Spot.shift_paths, inside]
  rfl

end Renumbers

theorem renumbers (f : Flow) : f.Renumbers k above := by
  induction f with
  | idle => exact fun around p => rfl
  | enter n => exact fun around p => rfl
  | exit n => exact fun around p => rfl
  | seq first second hf hs => exact hf.seq hs
  | choose fallsThrough arms hw => exact .choose fallsThrough hw
  | chain arms hw => exact .chain hw
  | loop head body orelse hh hb ho => exact hh.loop hb ho
  | attempt body handlers orelse final hb hw ho hf => exact hb.attempt hw ho final hf
  | jump kind => exact fun around => leave_shifts k above around kind
  | codePath owner body hb => exact hb.codePath owner

end Flow

/-- Where `k` paths have started, the code of a function is walked as if it were all. -/
theorem Node.events_shift {n : Node} (hf : n.isFunctionLike = true) (path : PathId) :
    (Walk.ownPath (some path) n (fun inside => n.bodyFlow.walk inside) k).1 =
      n.events.map (Event.shift k (some path)) := by
  have whole := Walk.ownPath_shift k (some path) none n
    (fun inside => n.bodyFlow.walk inside) (fun inside => n.bodyFlow.walk inside) 0
    (Flow.renumbers k (some path) n.bodyFlow)
  rw [Nat.zero_add] at whole
  rw [events, programFlow, if_pos hf]
  exact congrArg Prod.fst whole

section Zero

theorem PathId.shift_zero (id : PathId) : id.shift 0 = id := by
  cases id <;> rfl

theorem SegmentId.shift_zero (s : SegmentId) : s.shift 0 = s := by
  rw [shift, PathId.shift_zero]

theorem Segment.shift_zero (s : Segment) : s.shift 0 = s := by
  have same : SegmentId.shift 0 = fun s => s := funext SegmentId.shift_zero
  rw [shift, same, List.map_id']

theorem Event.shift_zero (e : Event) : e.shift 0 none = e := by
  have paths : PathId.shift 0 = id := funext PathId.shift_zero
  have segments : Segment.shift 0 = id := funext Segment.shift_zero
  cases e <;> simp [shift, paths, segments]

end Zero

theorem Event.segments_shift (events : List Event) :
    segments (events.map (shift k above)) = (segments events).map (Segment.shift k) := by
  induction events with
  | nil => rfl
  | cons e events ih => cases e <;> simp [shift, segments, ih]

def OpenPath.shift (p : OpenPath) : OpenPath :=
  ⟨p.id.shift k, p.owner, p.segments.map (Segment.shift k)⟩

namespace Trail

/-- What is open in `t`, inside all that is open in `outer`. -/
def within (outer t : Trail) : Trail :=
  ⟨t.opened.map (OpenPath.shift outer.started) ++ outer.opened, t.started + outer.started⟩

variable {outer t : Trail}

theorem within_empty : outer.within empty = outer := by
  simp [within, empty]

theorem within_record {e : Event} (he : t.Allows e) :
    (outer.within t).record (e.shift outer.started above) = outer.within (t.record e) := by
  cases e with
  | pathStart id owner upper =>
    have number : t.started + outer.started + 1 = t.started + 1 + outer.started := by omega
    simp [Event.shift, record, within, OpenPath.shift, number]
  | segment s =>
    obtain ⟨p, rest, hp, -⟩ := he
    simp [Event.shift, record, within, OpenPath.shift, hp]
  | pathEnd id owner returned thrown =>
    obtain ⟨p, rest, hp, -⟩ := he
    simp [Event.shift, record, within, hp]
  | _ => rfl

theorem within_after {events : List Event} (he : t.AllowsAll events) :
    (outer.within t).after (events.map (Event.shift outer.started above)) =
      outer.within (t.after events) := by
  induction events generalizing t with
  | nil => rfl
  | cons e events ih =>
    rw [List.map_cons, after_cons, after_cons, within_record above he.1, ih he.2]

theorem within_running? (h : t.opened ≠ []) :
    (outer.within t).running? = t.running?.map (SegmentId.shift outer.started) := by
  cases hp : t.opened with
  | nil => exact absurd hp h
  | cons p rest =>
    cases hsegments : p.segments <;> simp [running?, within, OpenPath.shift, hp, hsegments]

end Trail

end LostUpdate
