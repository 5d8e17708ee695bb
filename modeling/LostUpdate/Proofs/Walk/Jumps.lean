import LostUpdate.Proofs.Walk.Assembly
import LostUpdate.Proofs.Walk.Finals

namespace LostUpdate

namespace Node

/-- The parts of a node whose jumps are for the loop around it: all that run in place, but for the
body if it is a loop itself. -/
def aroundBody (n : Node) : List Node :=
  match n.form with
  | .whileLoop test _ orelse => test :: orelse
  | .forLoop _ target iterable _ orelse => iterable :: target :: orelse
  | _ => n.inPlace

/-- A step to a part that is not in the body of a loop. -/
def Unlooped (n c : Node) : Prop := c ∈ n.aroundBody

/-- `x` runs with one of these parts, by steps that `passes` allows. -/
def Placed (passes : Node → Node → Prop) (l : List Node) (x : Node) : Prop :=
  ∃ c ∈ l, ∃ d ∈ c.brings, PartOf passes x d

/-- `x` is a jump that leaves these parts for the loop around them. -/
structure Loose (l : List Node) (k : Jump) (x : Node) : Prop where
  jump : x.loopJump? = some k
  placed : Placed Unlooped l x

end Node

namespace Loop

open Node Event

/-- The loop is the innermost one that has the jump `x` in its body. -/
structure Binds (l : Loop) (k : Jump) (x : Node) : Prop where
  jump : x.loopJump? = some k
  part : ∃ c ∈ l.body, PartOf Unlooped x c

/-- The head of the loop starts in `t`. -/
def StartsAt (events : List Event) (l : Loop) (t : Segment) : Prop :=
  ∃ done later, events = done ++ .segment t :: .enter l.head :: later

/-- The body of the loop ends in `s`: in what runs when its last statement is left or, with none, in
the segment behind the head. -/
structure BodyEndsAt (events : List Event) (l : Loop) (s : Segment) : Prop where
  last : ∀ x, l.body.getLast? = some x → LeftIn events x s
  empty : l.body = [] → ∃ done later, events = done ++ .exit l.head :: .segment s :: later

end Loop

namespace Node

open Event

/-- The places from which the loop `L` goes back to its head, with what runs there: the end of its
body, for which `L` itself stands, and each `continue` that it binds. -/
inductive TurnsAt (events : List Event) (L : Node) : Node → Segment → Prop
  | bodyEnd {l : Loop} {s : Segment} (h : L.loop? = some l) (hs : l.BodyEndsAt events s) :
      TurnsAt events L L s
  | jump {l : Loop} {x : Node} {s : Segment} (h : L.loop? = some l) (hx : l.Binds .continueLoop x)
      (hs : EndedBy events s x) : TurnsAt events L x s

/-- An edge back from `s` to `t` is one of the loop `L`. -/
structure TurnsBack (events : List Event) (L : Node) (s t : Segment) : Prop where
  alive : s.isReachable = true
  start : ∃ l, L.loop? = some l ∧ l.StartsAt events t
  place : ∃ y, L.TurnsAt events y s

theorem turnsAt_iff {events : List Event} {L y : Node} {l : Loop} {s : Segment}
    (hl : L.loop? = some l) : L.TurnsAt events y s ↔
      (y = L ∧ l.BodyEndsAt events s) ∨ l.Binds .continueLoop y ∧ EndedBy events s y := by
  constructor
  · intro turns
    cases turns with
    | bodyEnd h hs =>
      obtain rfl : l = _ := Option.some.inj (hl.symm.trans h)
      exact .inl ⟨rfl, hs⟩
    | jump h hx hs =>
      obtain rfl : l = _ := Option.some.inj (hl.symm.trans h)
      exact .inr ⟨hx, hs⟩
  · rintro (⟨rfl, hs⟩ | ⟨hx, hs⟩)
    · exact .bodyEnd hl hs
    · exact .jump hl hx hs

section Parts

variable {passes : Node → Node → Prop} {n c x : Node} {l m : List Node} {k : Jump}

theorem placed_append : Placed passes (l ++ m) x ↔ Placed passes l x ∨ Placed passes m x := by
  simp [Placed, or_and_right, exists_or]

theorem loose_append : Loose (l ++ m) k x ↔ Loose l k x ∨ Loose m k x := by
  refine ⟨fun ⟨jump, placed⟩ => (placed_append.1 placed).imp (⟨jump, ·⟩) (⟨jump, ·⟩), ?_⟩
  rintro (⟨jump, placed⟩ | ⟨jump, placed⟩)
  · exact ⟨jump, placed_append.2 (.inl placed)⟩
  · exact ⟨jump, placed_append.2 (.inr placed)⟩

theorem placed_congr (h : ∀ c, c ∈ m ↔ c ∈ l) : Placed passes m x ↔ Placed passes l x := by
  simp only [Placed, h]

theorem loose_congr (h : ∀ c, c ∈ m ↔ c ∈ l) : Loose m k x ↔ Loose l k x :=
  ⟨fun ⟨jump, placed⟩ => ⟨jump, (placed_congr h).1 placed⟩,
    fun ⟨jump, placed⟩ => ⟨jump, (placed_congr h).2 placed⟩⟩

theorem not_placed_nil : ¬ Placed passes [] x := by simp [Placed]

theorem not_loose_nil : ¬ Loose [] k x := fun h => not_placed_nil h.placed

theorem partOf_iff : PartOf passes x n ↔
    x = n ∨ ∃ c ∈ n.inPlace, passes n c ∧ ∃ d ∈ c.brings, PartOf passes x d := by
  constructor
  · intro h
    cases h with
    | self => exact .inl rfl
    | inside hp hc hd h => exact .inr ⟨_, hc, hp, _, hd, h⟩
  · rintro (rfl | ⟨c, hc, hp, d, hd, h⟩)
    · exact .self
    · exact .inside hp hc hd h

end Parts

end Node

/-- The jump `x` leads back to `target`. -/
def Event.TurnedBy (events : List Event) (target : Segment) (x : Node) : Prop :=
  ∃ done s dead later,
    events = done ++ .backEdge s target :: .segment dead :: .exit x :: later

namespace GrammaticalTree

open Event

variable {t : GrammaticalTree} {n x : Node} {s q : Segment} {l : Loop}

section Unique

variable (hn : n ∈ t.nodes)

include hn

/-- What stands right before a node is entered or left. -/
theorem before_unique {side : Stop → Option Node} (hside : Stop.Shows side) {a b c d : Event}
    {done first later rest : List Event} (ha : n.events = done ++ a :: b :: later)
    (hc : n.events = first ++ c :: d :: rest) (hb : b.visit?.bind side = some x)
    (hd : d.visit?.bind side = some x) : done = first ∧ a = c := by
  have distinct := nodup_events hn hside
  rw [List.append_cons] at ha hc
  rw [ha] at distinct
  obtain ⟨before, -, -⟩ := split_unique distinct (ha.symm.trans hc) hb hd
  exact (List.append_inj' before rfl).imp_right List.head_eq_of_cons_eq

theorem endedBy_unique (hs : EndedBy n.events s x) (hq : EndedBy n.events q x) : s = q := by
  obtain ⟨done, dead, later, hdone, running⟩ := hs
  obtain ⟨first, last, rest, hfirst, same⟩ := hq
  obtain ⟨rfl, -⟩ := before_unique hn Stop.shows_left? hdone hfirst rfl rfl
  exact Option.some.inj (running.symm.trans same)

theorem turnedBy_unique (hs : TurnedBy n.events s x) (hq : TurnedBy n.events q x) : s = q := by
  obtain ⟨done, source, dead, later, hdone⟩ := hs
  obtain ⟨first, back, last, rest, hfirst⟩ := hq
  rw [List.append_cons] at hdone hfirst
  obtain ⟨same, -⟩ := before_unique hn Stop.shows_left? hdone hfirst rfl rfl
  obtain ⟨-, heads⟩ := List.append_inj' same rfl
  exact (Event.backEdge.inj (List.head_eq_of_cons_eq heads)).2

theorem startsAt_unique (hs : l.StartsAt n.events s) (hq : l.StartsAt n.events q) : s = q := by
  obtain ⟨done, later, hdone⟩ := hs
  obtain ⟨first, rest, hfirst⟩ := hq
  obtain ⟨-, same⟩ := before_unique hn Stop.shows_entered? hdone hfirst rfl rfl
  exact Event.segment.inj same

theorem bodyEndsAt_unique (hs : l.BodyEndsAt n.events s) (hq : l.BodyEndsAt n.events q) : s = q := by
  cases hlast : l.body.getLast? with
  | some x => exact leftIn_unique hn (hs.last x hlast) (hq.last x hlast)
  | none =>
    have empty : l.body = [] := by simpa using hlast
    obtain ⟨done, later, hdone⟩ := hs.empty empty
    obtain ⟨first, rest, hfirst⟩ := hq.empty empty
    have distinct := nodup_events hn Stop.shows_left?
    rw [hdone] at distinct
    obtain ⟨-, -, same⟩ := split_unique distinct (hdone.symm.trans hfirst) rfl rfl
    exact Event.segment.inj (List.head_eq_of_cons_eq same)

end Unique

end GrammaticalTree

namespace Walk

variable {done events : List Event} {around : Surroundings} {p q u r : Spot}
  {l m : List Node} {first second now : List Event}

/-- The segments of a path are numbered as they start. -/
theorem At.current_id (h : At done around p) : p.current.id = ⟨around.path, p.segments⟩ := by
  obtain ⟨rest, path, -, stands, ha⟩ := h.stands
  obtain ⟨earlier, he⟩ := stands.current
  have successive := stands.successive
  rw [he] at successive
  rw [successive.1.id, stands.count, he, List.length_cons, ha.path_eq]

/-- The jump `x` is made in `s`. A `continue` that can be reached leads back to the loop around. -/
structure Jumps (events : List Event) (around : Surroundings) (k : Jump) (x : Node) (s : Segment) :
    Prop where
  ended : Event.EndedBy events s x
  path : s.id.path = around.path
  turned : k = .continueLoop → s.isReachable = true → ∀ t, around.continuation = some t →
    Event.TurnedBy events t x

/-- What a stretch of a walk from `p` to `q` does with the jumps of the parts `l` that it walks: the
`break`s are kept in mind, each `continue` leads back to the loop around, and each loop among the
parts has its edges back. -/
structure Catches (events : List Event) (around : Surroundings) (l : List Node) (p : Spot)
    (now : List Event) (q : Spot) : Prop where
  moves : Moves p now q
  broken : ∀ s, s ∈ q.broken ↔
    s ∈ p.broken ∨ ∃ x, Node.Loose l .breakLoop x ∧ Event.EndedBy events s x
  back : ∀ s t, .backEdge s t ∈ Event.own 0 now ↔
    (s.isReachable = true ∧ around.continuation = some t ∧
      ∃ x, Node.Loose l .continueLoop x ∧ Event.EndedBy events s x) ∨
    ∃ L, Node.Placed (fun _ _ => True) l L ∧ L.TurnsBack events s t
  ended : ∀ k x, Node.Loose l k x → ∃ s, Jumps events around k x s ∧ s.id.number < q.segments

namespace Catches

theorem quiet (h : Moves p now q) (hb : q.broken = p.broken)
    (hback : ∀ s t, .backEdge s t ∉ Event.own 0 now) : Catches events around [] p now q :=
  ⟨h, by simp [hb, Node.not_loose_nil],
    by simp [hback, Node.not_loose_nil, Node.not_placed_nil],
    fun _ _ loose => absurd loose Node.not_loose_nil⟩

theorem startSegment (events : List Event) (around : Surroundings) (path : PathId)
    (previous : List Segment) (p : Spot) :
    Catches events around [] p (startSegment path previous p).1 (startSegment path previous p).2 :=
  quiet (startSegment_moves path previous p) rfl fun _ _ h => by
    simp [Walk.startSegment, Event.own] at h

/-- Returns and raises that are kept in mind meanwhile do not matter. -/
theorem trans (h : Catches events around l p first q) (k : Catches events around m u second r)
    (hc : u.current = q.current := by rfl) (hs : u.segments = q.segments := by rfl)
    (hb : u.broken = q.broken := by rfl) :
    Catches events around (l ++ m) p (first ++ second) r := by
  refine ⟨h.moves.trans k.moves hc hs, fun s => ?_, fun s t => ?_, fun j x loose => ?_⟩
  · rw [k.broken, hb, h.broken, or_assoc]
    refine or_congr_right ?_
    simp only [Node.loose_append, or_and_right, exists_or]
  · rw [h.moves.level, List.mem_append, h.back, k.back]
    simp only [Node.loose_append, Node.placed_append, or_and_right, exists_or, and_or_left]
    exact or_or_or_comm
  · rcases Node.loose_append.1 loose with loose | loose
    · obtain ⟨s, jumps, lower⟩ := h.ended j x loose
      exact ⟨s, jumps, Nat.lt_of_lt_of_le lower (hs ▸ k.moves.segments)⟩
    · exact k.ended j x loose

theorem congr (h : Catches events around l p now q) (hl : ∀ c, c ∈ m ↔ c ∈ l) :
    Catches events around m p now q := by
  refine ⟨h.moves, fun s => ?_, fun s t => ?_, fun k x loose => h.ended k x ?_⟩
  · simpa only [Node.loose_congr hl] using h.broken s
  · simpa only [Node.loose_congr hl, Node.placed_congr hl] using h.back s t
  · exact (Node.loose_congr hl).1 loose

end Catches

end Walk

namespace Flow

open Walk Event

/-- Wherever `f` is walked among `events`, it does so with the jumps of the parts `l`. -/
def CatchesIn (events : List Event) (l : List Node) (f : Flow) : Prop :=
  ∀ ⦃done around p⦄, At done around p → done ++ (f.walk around p).1 <+: events →
    Catches events around l p (f.walk around p).1 (f.walk around p).2

variable {events done : List Event} {around : Surroundings} {p : Spot} {f g head body orelse : Flow}
  {l m r : List Node}

theorem CatchesIn.seq (hf : CatchesIn events l f) (hg : CatchesIn events m g) :
    CatchesIn events (l ++ m) (.seq f g) := by
  intro done around p here hevents
  have first : done ++ (f.walk around p).1 <+: events :=
    List.IsPrefix.trans (by simp [walk, andThen]) hevents
  exact (hf here first).trans (hg (here.walk f) (by rwa [List.append_assoc]))

section Arms

variable {ι : Type} {arms : List ι} {flow : ι → Flow} {parts : ι → List Node}

theorem walkArms_catches (h : ∀ i ∈ arms, CatchesIn events (parts i) (flow i))
    (here : At done around p) {starts : List Segment} (hs : ∀ s ∈ starts, Begun done around.path s)
    (hevents : done ++ (walkArms around starts (arms.map flow) p).1 <+: events) :
    Catches events around (arms.flatMap parts) p (walkArms around starts (arms.map flow) p).1
      (walkArms around starts (arms.map flow) p).2.2 := by
  induction arms generalizing done p with
  | nil => exact .quiet (.refl p) rfl (by simp [walkArms, own])
  | cons i arms ih =>
    simp only [List.map_cons, walkArms, ← List.append_assoc] at hevents ⊢
    have start := here.start hs
    have inArm := h i List.mem_cons_self start
      (List.IsPrefix.trans (List.prefix_append _ _) hevents)
    have rest := ih (fun j hj => h j (List.mem_cons_of_mem _ hj)) (start.walk (flow i))
      (fun s hm => (hs s hm).mono (by simp)) hevents
    exact ((Catches.startSegment events around _ _ p).trans inArm).trans rest

theorem walkChain_catches (h : ∀ i ∈ arms, CatchesIn events (parts i) (flow i))
    (here : At done around p)
    (hevents : done ++ (walkChain around (arms.map flow) p).1 <+: events) :
    Catches events around (arms.flatMap parts) p (walkChain around (arms.map flow) p).1
      (walkChain around (arms.map flow) p).2.2 := by
  induction arms generalizing done p with
  | nil => exact .quiet (.refl p) rfl (by simp [walkChain, own])
  | cons i arms ih =>
    simp only [List.map_cons, walkChain, ← List.append_assoc] at hevents ⊢
    have start := here.startOne here.current
    have inArm := h i List.mem_cons_self start
      (List.IsPrefix.trans (List.prefix_append _ _) hevents)
    have rest := ih (fun j hj => h j (List.mem_cons_of_mem _ hj)) (start.walk (flow i)) hevents
    exact ((Catches.startSegment events around _ _ p).trans inArm).trans rest

theorem CatchesIn.choose (fallsThrough : Bool)
    (h : ∀ i ∈ arms, CatchesIn events (parts i) (flow i)) :
    CatchesIn events (arms.flatMap parts) (.choose fallsThrough (arms.map flow)) := by
  intro done around p here hevents
  have inArms := walkArms_catches h here (List.forall_mem_singleton.2 here.current)
    (List.IsPrefix.trans (by simp [walk]) hevents)
  have whole := inArms.trans (Catches.startSegment events around around.path
    ((if fallsThrough then [p.current] else []) ++
      (walkArms around [p.current] (arms.map flow) p).2.1) _)
  rwa [List.append_nil] at whole

theorem CatchesIn.chain (h : ∀ i ∈ arms, CatchesIn events (parts i) (flow i)) :
    CatchesIn events (arms.flatMap parts) (.chain (arms.map flow)) := by
  intro done around p here hevents
  have inArms := walkChain_catches h here (List.IsPrefix.trans (by simp [walk]) hevents)
  have whole := inArms.trans (Catches.startSegment events around around.path
    (walkChain around (arms.map flow) p).2.1 _)
  rwa [List.append_nil] at whole

/-- A `try` up to the end of the part after its body. -/
theorem tryEvents_catches (hb : CatchesIn events l body)
    (h : ∀ i ∈ arms, CatchesIn events (parts i) (flow i)) (he : CatchesIn events m orelse)
    (here : At done around p)
    (hevents : done ++ tryEvents around body (arms.map flow) orelse p <+: events) :
    Catches events around (l ++ arms.flatMap parts ++ m) p
      (tryEvents around body (arms.map flow) orelse p)
      (tryElse around body (arms.map flow) orelse p) := by
  simp only [tryEvents, ← List.append_assoc] at hevents
  have inElse := he (at_tryGoOn body (arms.map flow) here) hevents
  have inHandlers := walkArms_catches h (at_tryCatch body here) (begun_tryRisks body here)
    ((List.prefix_append _ _).trans ((List.prefix_append _ _).trans hevents))
  have inBody := hb (at_tryBody here) (List.IsPrefix.trans (by simp) hevents)
  have start := Catches.startSegment events around around.path [p.current] p
  have goOn := Catches.startSegment events around around.path [(tryEnd around body p).current]
    (tryHandled around body (arms.map flow) p).2
  have whole := (((start.trans inBody).trans inHandlers).trans goOn).trans inElse
  rw [List.nil_append, List.append_nil] at whole
  exact whole

theorem CatchesIn.attempt (hb : CatchesIn events l body)
    (h : ∀ i ∈ arms, CatchesIn events (parts i) (flow i)) (he : CatchesIn events m orelse) :
    CatchesIn events (l ++ arms.flatMap parts ++ m) (.attempt body (arms.map flow) orelse none) := by
  intro done around p here hevents
  obtain ⟨later, hall⟩ := exists_tryEvents around body (arms.map flow) orelse none p
  have tried := tryEvents_catches hb h he here (List.IsPrefix.trans (by simp [hall]) hevents)
  have whole := tried.trans (u := tryLeft around body (arms.map flow) orelse p)
    (Catches.startSegment events around around.path
      (tryEnds around body (arms.map flow) orelse p) _)
  rw [List.append_nil] at whole
  exact whole

theorem CatchesIn.final {final : Flow} (hb : CatchesIn events l body)
    (h : ∀ i ∈ arms, CatchesIn events (parts i) (flow i)) (he : CatchesIn events m orelse)
    (hf : CatchesIn events r final) : CatchesIn events (l ++ arms.flatMap parts ++ m ++ r)
      (.attempt body (arms.map flow) orelse (some final)) := by
  intro done around p here hevents
  rw [walk_attempt_some] at hevents ⊢
  have tried := tryEvents_catches hb h he here (List.IsPrefix.trans (by simp) hevents)
  have inFinal := hf (at_tryFinal body (arms.map flow) orelse here) (by simpa using hevents)
  have whole := tried.trans ((Catches.startSegment events around around.path
    (tryExits around body (arms.map flow) orelse p) _).trans inFinal)
  exact whole

end Arms

/-- What the parts of a flow do with their jumps, the flow does. -/
theorem Walks.catchesIn (h : Walks f l) (hl : ∀ c ∈ l, CatchesIn events [c] c.placedFlow) :
    CatchesIn events l f := by
  induction h with
  | part c => exact hl c List.mem_cons_self
  | idle => exact fun _ _ p _ _ => .quiet (.refl p) rfl (by simp [walk, stay, own])
  | enter n =>
    exact fun _ _ p _ _ => .quiet (walk_moves _ (.enter n) p) rfl (by simp [walk, emit, own])
  | exit n =>
    exact fun _ _ p _ _ => .quiet (walk_moves _ (.exit n) p) rfl (by simp [walk, emit, own])
  | returnOut | raiseOut =>
    exact fun _ _ p _ _ => .quiet (walk_moves _ (.jump _) p) rfl
      (by simp [walk, leave, startSegment, own])
  | codePath owner body =>
    exact fun _ _ p _ _ => .quiet (walk_moves _ (.codePath owner body) p) rfl
      (by simp [own_walk_codePath])
  | seq _ _ first second =>
    obtain ⟨hf, hg⟩ := List.forall_mem_append.1 hl
    exact (first hf).seq (second hg)
  | choose fallsThrough _ ih =>
    exact .choose fallsThrough fun i hi => ih i hi fun c hc => hl c (List.mem_flatMap.2 ⟨i, hi, hc⟩)
  | chain _ ih =>
    exact .chain fun i hi => ih i hi fun c hc => hl c (List.mem_flatMap.2 ⟨i, hi, hc⟩)
  | attempt _ _ _ inBody ih inElse =>
    simp only [List.forall_mem_append] at hl
    obtain ⟨⟨hb, hh⟩, he⟩ := hl
    exact (inBody hb).attempt
      (fun i hi => ih i hi fun c hc => hh c (List.mem_flatMap.2 ⟨i, hi, hc⟩)) (inElse he)
  | final _ _ _ _ inBody ih inElse inFinal =>
    simp only [List.forall_mem_append] at hl
    obtain ⟨⟨⟨hb, hh⟩, he⟩, hf⟩ := hl
    exact (inBody hb).final
      (fun i hi => ih i hi fun c hc => hh c (List.mem_flatMap.2 ⟨i, hi, hc⟩)) (inElse he) (inFinal hf)
  | congr h _ ih =>
    exact fun _ _ _ here hevents => (ih (fun c hc => hl c ((h c).2 hc)) here hevents).congr h

end Flow

end LostUpdate
