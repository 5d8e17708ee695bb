import LostUpdate.Proofs.Walk.Attempts
import LostUpdate.Proofs.Walk.Leaving
import Mathlib

namespace LostUpdate

namespace Event

/-- `s` runs when `x` is left. -/
def LeftIn (events : List Event) (x : Node) (s : Segment) : Prop :=
  ∃ done later, events = done ++ .exit x :: later ∧ (Trail.empty.after done).segment? = some s

/-- `s` runs up to the jump that `r` makes. -/
def EndedBy (events : List Event) (s : Segment) (r : Node) : Prop :=
  ∃ done dead later, events = done ++ .segment dead :: .exit r :: later ∧
    (Trail.empty.after done).segment? = some s

end Event

namespace Node

open LostUpdate.Flow Walk Event

/-- The jump out of the code around that a statement makes. -/
def leaves? (r : Node) : Option Jump :=
  match r.form with
  | .returnStmt _ => some .returnOut
  | .raiseStmt .. => some .raiseOut
  | _ => none

/-- A jump `k` out of the part `c` of `n` leaves `n` as well. -/
def Passes (k : Jump) (n c : Node) : Prop :=
  ∀ isStar body handlers orelse final, n.form = .tryStmt isStar body handlers orelse final →
    c ∈ body → final = [] ∧ (k = .raiseOut → handlers = [])

variable {n r x : Node} {k : Jump} {done events : List Event} {around : Surroundings}
  {p : Spot}

theorem handsOn_passes (hr : r.leaves? = some k) : HandsOn [k] (Passes k) := by
  intro n c isStar body handlers orelse final hn hc hp j hj
  obtain rfl := List.mem_singleton.1 hj
  obtain ⟨rfl, caught⟩ := hp isStar body handlers orelse final hn hc
  refine ⟨rfl, ?_⟩
  unfold leaves? at hr
  split at hr
  · exact .inl (Option.some.inj hr).symm
  · obtain rfl : Jump.raiseOut = j := Option.some.inj hr
    exact .inr ⟨rfl, caught rfl⟩
  · cases hr

theorem innerFlow_of_leaves? (hr : r.leaves? = some k) :
    ∃ f, r.innerFlow = .seq f (.jump k) ∧ (k = .returnOut ∨ k = .raiseOut) := by
  cases r with
  | mk i s form =>
    rw [innerFlow.eq_def]
    cases form
    case returnStmt =>
      obtain rfl : Jump.returnOut = k := Option.some.inj hr
      exact ⟨_, rfl, .inl rfl⟩
    case raiseStmt =>
      obtain rfl : Jump.raiseOut = k := Option.some.inj hr
      exact ⟨_, rfl, .inr rfl⟩
    all_goals cases hr

theorem walk_flow (x : Node) (around : Surroundings) (p : Spot) : x.flow.walk around p =
    (.enter x :: ((x.innerFlow.walk around p).1 ++ [.exit x]), (x.innerFlow.walk around p).2) := by
  rw [flow_eq]
  rfl

/-- An arm that is a node starts with a segment in which the node is entered. -/
theorem walkArm_flow (x : Node) (around : Surroundings) (starts : List Segment) (p : Spot) :
    ∃ rest, (walkArm around starts x.flow p).1 =
      .segment (startSegment around.path starts p).2.current :: .enter x :: rest :=
  ⟨_, congrArg (_ ++ ·) (congrArg Prod.fst (walk_flow x around _))⟩

/-- Where a node is walked, it is left in the segment at the end of the walk. -/
theorem leftIn_flow (h : At done around p) (x : Node)
    (hevents : done ++ (x.flow.walk around p).1 <+: events) :
    LeftIn events x (x.flow.walk around p).2.current := by
  obtain ⟨later, rfl⟩ := hevents
  have inside := (h.walk (.enter x)).walk x.innerFlow
  refine ⟨_, later, ?_, inside.segment?.trans (by rw [walk_flow]; rfl)⟩
  rw [walk_flow]
  simp [walk, emit]

/-- A sequence ends where its last node is left. -/
theorem leftIn_last {body : List Node} {last : Node} (h : At done around p) (hl : last ∈ body.getLast?)
    (hevents : done ++ ((sequence (body.map flow)).walk around p).1 <+: events) :
    LeftIn events last ((sequence (body.map flow)).walk around p).2.current := by
  induction body generalizing done p with
  | nil => simp at hl
  | cons c body ih =>
    cases body with
    | nil =>
      obtain rfl : c = last := by simpa using hl
      exact leftIn_flow h c (by simpa [Flow.sequence, walk, andThen, stay] using hevents)
    | cons d body =>
      refine ih (h.walk c.flow) (by simpa using hl) ?_
      rwa [List.append_assoc]

/-- Where a jump is walked, the segment that it ends is kept. -/
theorem endedBy_flow (h : At done around p) (hr : r.leaves? = some k)
    (hevents : done ++ (r.flow.walk around p).1 <+: events) :
    ∃ s, EndedBy events s r ∧ s ∈ (r.flow.walk around p).2.left k := by
  obtain ⟨later, rfl⟩ := hevents
  obtain ⟨f, hf, hk⟩ := innerFlow_of_leaves? hr
  have inside := (h.walk (.enter r)).walk f
  let dead := (startSegment around.path [] (f.walk around p).2).2.current
  refine ⟨_, ⟨_, dead, later, ?_, inside.segment?⟩, ?_⟩
  · rw [walk_flow, hf]
    rcases hk with rfl | rfl <;> simp [walk, andThen, emit, leave, startSegment, dead]
  · rw [walk_flow, hf]
    rcases hk with rfl | rfl <;> simp [walk, andThen, leave, startSegment, Spot.left, emit]

end Node

namespace GrammaticalTree

open Event

variable {t : GrammaticalTree} {n x r : Node} {s q : Segment}

theorem leftIn_unique (hn : n ∈ t.nodes) (hs : LeftIn n.events x s) (hq : LeftIn n.events x q) :
    s = q := by
  obtain ⟨done, later, hdone, running⟩ := hs
  obtain ⟨first, last, hfirst, same⟩ := hq
  have distinct := nodup_events hn Stop.shows_left?
  rw [hdone] at distinct
  obtain ⟨rfl, -, -⟩ := split_unique distinct (hdone.symm.trans hfirst) rfl rfl
  exact Option.some.inj (running.symm.trans same)

end GrammaticalTree

namespace CodePath

open Walk Event

variable {t : GrammaticalTree} {n : Node} {p : CodePath}

/-- The jumps out of a code path that it knows when it has ended. -/
def left (p : CodePath) : Jump → List Segment
  | .returnOut => p.returned
  | .raiseOut => p.thrown
  | .breakLoop | .continueLoop => []

theorem at_entry {events done later : List Event} (he : Trail.empty.AllowsAll events) {owner : Node}
    {upper : Option PathId} {paths : ℕ} (hevents : events = done ++
      .pathStart (.ordinal (paths + 1)) owner upper :: .segment (entry paths).current :: later) :
    At (done ++ [.pathStart (.ordinal (paths + 1)) owner upper, .segment (entry paths).current])
      (alone paths) (entry paths) := by
  have split : events = (done ++ [.pathStart (.ordinal (paths + 1)) owner upper,
      .segment (entry paths).current]) ++ later := by simp [hevents]
  have allowed := (Trail.allowsAll_append.1 (split ▸ he)).1
  have count : (Trail.empty.after done).started = paths := by
    obtain ⟨hid, -⟩ := (Trail.allowsAll_append.1 allowed).2.1
    simpa using hid.symm
  have trail : Trail.empty.after (done ++ [.pathStart (.ordinal (paths + 1)) owner upper,
      .segment (entry paths).current]) =
        ⟨⟨.ordinal (paths + 1), owner, [(entry paths).current]⟩ :: (Trail.empty.after done).opened,
          (entry paths).paths⟩ := by
    simp [Trail.after_append, Trail.record, count, entry]
  refine ⟨allowed, _, _, trail, ?_, rfl, by simp [alone]⟩
  exact ⟨trail ▸ Trail.consistent_empty.after allowed, ⟨[], rfl⟩, rfl, List.nil_subset _,
    List.nil_subset _, List.nil_subset _⟩

/-- Where a flow that the code of a path holds is walked, with the jumps that the path keeps. -/
theorem exists_at_of_holds (hn : n ∈ t.nodes) (hp : p ∈ ofEvents n.events) {kinds : List Jump} {g : Flow}
    (hkinds : kinds ⊆ [.returnOut, .raiseOut]) (hx : Flow.Holds kinds g p.owner.programFlow) :
    ∃ done around q, done ++ (g.walk around q).1 <+: n.events ∧ At done around q ∧
      around.path = p.id ∧ ∀ k ∈ kinds, (g.walk around q).2.left k ⊆ p.left k := by
  obtain ⟨first, upper, paths, last, hevents, hfold⟩ := exists_block hn hp
  have walked := walked_of_block n.events_allowed.1 hevents
  rw [← hfold] at walked
  obtain ⟨before, inside, q, later, hwalk, here, hpath, left⟩ :=
    hx (at_entry n.events_allowed.1 hevents)
  have id : p.id = .ordinal (paths + 1) := by rw [hfold, id_foldl]; rfl
  refine ⟨_, inside, q, ?_, here, hpath.trans id.symm, fun k hk => ?_⟩
  · rw [hevents, Node.ownEvents, Node.walked, hwalk]
    simp
  · refine List.Subset.trans (left k hk) ?_
    rcases List.mem_cons.1 (hkinds hk) with rfl | hk
    · change _ ⊆ p.returned
      rw [walked.returned]
      exact List.Subset.refl _
    · obtain rfl := List.mem_singleton.1 hk
      change _ ⊆ p.thrown
      rw [walked.thrown]
      exact List.Subset.refl _

/-- Where a code path runs a part of its owner's code, with the jumps that it keeps. -/
theorem exists_at_of_runs (hn : n ∈ t.nodes) (hp : p ∈ ofEvents n.events) {kinds : List Jump}
    {passes : Node → Node → Prop} {x : Node} (hkinds : kinds ⊆ [.returnOut, .raiseOut])
    (hpasses : Node.HandsOn kinds passes)
    (hx : p.owner.Runs passes x) : ∃ done around q,
      done ++ (x.flow.walk around q).1 <+: n.events ∧ At done around q ∧
        around.path = p.id ∧ ∀ k ∈ kinds, (x.flow.walk around q).2.left k ⊆ p.left k :=
  exists_at_of_holds hn hp hkinds
    (Node.holds_runs hkinds hpasses hx (t.isGrammatical_of_mem (owner_mem hn hp)))

end CodePath

namespace Node

open LostUpdate.Flow Walk Event

/-- `s` runs at a normal end of what a final part follows: at `e`, where the part after the body ends,
or where a handler does. -/
def NormalEnd (events : List Event) (e : Segment) (handlers : List Node) (s : Segment) : Prop :=
  s = e ∨ ∃ h ∈ handlers, LeftIn events h s

/-- What the first segment `z` of a final part comes behind, when the part after the body has ended in
`e`, and what it takes to come out of the `try`. -/
structure Conserves (events : List Event) (y : Node) (body handlers orelse final : List Node)
    (e z : Segment) : Prop where
  normal : (∃ s, NormalEnd events e handlers s ∧ s.isReachable = true) → ∀ k, k ∈ z.previous ↔
    ∃ s, NormalEnd events e handlers s ∧ s.isReachable = true ∧ s.id = k
  abrupt : (∀ s, NormalEnd events e handlers s → s.isReachable = false) → ∀ c ∈ body, ∀ r k,
    r.leaves? = some k → PartOf (Passes k) r c →
      ∃ s, EndedBy events s r ∧ (s.isReachable = true → s.id ∈ z.previous)
  after : ∀ s, LeftIn events y s → s.isReachable = true →
    LeavesBy none (sequence (final.map flow)) ∧
      (LeavesBy none (.attempt (sequence (body.map flow)) (handlers.map flow)
        (sequence (orelse.map flow)) none) ∨
        ∃ k, (k = .returnOut ∨ k = .raiseOut) ∧ LeavesBy (some k) (sequence (body.map flow)))

variable {t : GrammaticalTree} {n y fin : Node} {body handlers orelse rest : List Node} {isStar : Bool}
  {done events : List Event} {around : Surroundings} {p : Spot}

theorem innerFlow_final (hy : y.form = .tryStmt isStar body handlers orelse (fin :: rest)) :
    y.innerFlow = .attempt (sequence (body.map flow)) (handlers.map flow)
      (sequence (orelse.map flow)) (some (sequence ((fin :: rest).map flow))) := by
  rw [innerFlow_try hy]
  rfl

/-- The ends of the handlers are where they are left. -/
theorem leftIn_handlers {body orelse : Flow} (h : At done around p)
    (hevents : done ++ tryEvents around body (handlers.map flow) orelse p <+: events) :
    List.Forall₂ (LeftIn events) handlers (tryHandled around body (handlers.map flow) p).1 := by
  have each := walkArms_each (at_tryCatch body h) (begun_tryRisks body h) (handlers.map flow)
  rw [List.forall₂_map_left_iff] at each
  refine each.imp ?_
  rintro x s ⟨before, q, last, harms, here, rfl, -⟩
  have start := here.start fun r hr => (begun_tryRisks body h r hr).mono (List.prefix_append _ _)
  refine leftIn_flow start x (List.IsPrefix.trans ?_ hevents)
  rw [tryEvents, harms, walkArm, andThen]
  simp

/-- The normal ends of a `try` are the end of the part after the body and those of the handlers. -/
theorem mem_tryEnds (hn : n ∈ t.nodes) {body orelse : Flow}
    (h : At done around p)
    (hevents : done ++ tryEvents around body (handlers.map flow) orelse p <+: n.events)
    (s : Segment) : s ∈ tryEnds around body (handlers.map flow) orelse p ↔
      NormalEnd n.events (tryElse around body (handlers.map flow) orelse p).current handlers s := by
  have handled := leftIn_handlers h hevents
  rw [tryEnds, List.mem_cons, NormalEnd]
  refine or_congr_right ⟨fun hs => ?_, fun ⟨x, hx, hs⟩ => ?_⟩
  · obtain ⟨x, hx, hs⟩ := mem_of_forall₂ handled.flip hs
    exact ⟨x, hx, hs⟩
  · obtain ⟨r, hr, left⟩ := mem_of_forall₂ handled hx
    exact GrammaticalTree.leftIn_unique hn hs left ▸ hr

/-- A return or raise that leaves the body of a `try` is kept at the end of the body. -/
theorem endedBy_tryEnd {c r : Node} {k : Jump} (h : At done around p)
    (hevents : done ++ (startSegment around.path [p.current] p).1 ++
      ((sequence (body.map flow)).walk around (tryBody around p)).1 <+: events)
    (hg : c.isGrammatical = true) (hc : c ∈ body) (hr : r.leaves? = some k)
    (hpart : PartOf (Passes k) r c) :
    ∃ s, EndedBy events s r ∧ s ∈ (tryEnd around (sequence (body.map flow)) p).left k := by
  obtain ⟨-, -, hk⟩ := innerFlow_of_leaves? hr
  have kinds : [k] ⊆ [Jump.returnOut, .raiseOut] := by
    rcases hk with rfl | rfl <;> simp
  have inBody : Holds [k] r.flow (sequence (body.map flow)) :=
    rises_map (Holds.rises kinds r.flow) hc (holds_partOf kinds (handsOn_passes hr) hpart hg)
  obtain ⟨before, around', q, more, hbody, here, -, left⟩ := inBody (at_tryBody h)
  obtain ⟨s, ended, hs⟩ := endedBy_flow here hr (List.IsPrefix.trans (by simp [hbody]) hevents)
  exact ⟨s, ended, left k List.mem_cons_self hs⟩

/-- What leaves a `try` with a final part can leave the final part, which follows a normal end or a
return or raise in the body. -/
theorem leavesBy_final {body orelse final : Flow} {handlers : List Flow}
    (h : LeavesBy none (.attempt body handlers orelse (some final))) : LeavesBy none final ∧
      (LeavesBy none (.attempt body handlers orelse none) ∨
        ∃ k, (k = .returnOut ∨ k = .raiseOut) ∧ LeavesBy (some k) body) := by
  cases h with
  | final through leaves => exact ⟨leaves, .inl through⟩
  | unwound left hk leaves => exact ⟨leaves, .inr ⟨_, hk, left⟩⟩

/-- The events of a `try` with a final part, up to the first node of that part. -/
theorem exists_walk_final (hy : y.form = .tryStmt isStar body handlers orelse (fin :: rest))
    (around : Surroundings) (p : Spot) : ∃ last, (y.flow.walk around p).1 = .enter y ::
      (tryEvents around (sequence (body.map flow)) (handlers.map flow) (sequence (orelse.map flow)) p ++
        .segment (tryFinal around (sequence (body.map flow)) (handlers.map flow)
          (sequence (orelse.map flow)) p).current :: .enter fin :: last) := by
  have inFinal (q : Spot) : ∃ last,
      ((sequence ((fin :: rest).map flow)).walk around q).1 = .enter fin :: last := by
    simp only [List.map_cons, Flow.sequence, walk, andThen, walk_flow, List.cons_append]
    exact ⟨_, rfl⟩
  obtain ⟨last, hlast⟩ := inFinal _
  refine ⟨last ++ [.exit y], ?_⟩
  rw [walk_flow, innerFlow_final hy, walk_attempt_some, hlast]
  simp [startSegment, tryFinal]

theorem conserves_of_at (hn : n ∈ t.nodes) (h : At done around p)
    (hgy : y.isGrammatical = true)
    (hy : y.form = .tryStmt isStar body handlers orelse (fin :: rest))
    (hevents : done ++ (y.flow.walk around p).1 <+: n.events) :
    ∃ first e z last, n.events = first ++ .segment z :: .enter fin :: last ∧
      (Trail.empty.after first).segment? = some e ∧ z.id.path = around.path ∧
        Conserves n.events y body handlers orelse (fin :: rest) e z := by
  have inside : At (done ++ [.enter y]) around p := h.walk (.enter y)
  let bodyFlow := sequence (body.map flow)
  let elseFlow := sequence (orelse.map flow)
  let z := (tryFinal around bodyFlow (handlers.map flow) elseFlow p).current
  obtain ⟨last, hwalk⟩ := exists_walk_final hy around p
  obtain ⟨later, hlater⟩ := hevents
  have hsplit : n.events = done ++ [.enter y] ++ (tryEvents around bodyFlow (handlers.map flow)
      elseFlow p ++ .segment z :: .enter fin :: (last ++ later)) := by
    rw [← hlater, hwalk]
    simp [bodyFlow, elseFlow, z]
  have protectedPart : done ++ [.enter y] ++
      tryEvents around bodyFlow (handlers.map flow) elseFlow p <+: n.events := by
    rw [hsplit, ← List.append_assoc]
    exact List.prefix_append _ _
  have ends := mem_tryEnds hn inside protectedPart
  have exits (k : SegmentId) : k ∈ z.previous ↔ ∃ s ∈ tryExits around bodyFlow (handlers.map flow)
      elseFlow p, s.isReachable = true ∧ s.id = k := mem_previous_startSegment
  refine ⟨_, _, z, last ++ later, hsplit.trans (List.append_assoc _ _ _).symm,
    (at_tryElse bodyFlow (handlers.map flow) elseFlow inside).segment?, rfl, ⟨?_, ?_, ?_⟩⟩
  · rintro ⟨s, hs, hr⟩ k
    have some : (tryEnds around bodyFlow (handlers.map flow) elseFlow p).any (·.isReachable) = true :=
      List.any_eq_true.2 ⟨s, (ends s).2 hs, hr⟩
    rw [exits, tryExits, if_pos some]
    exact exists_congr fun r => and_congr_left' (ends r)
  · intro none c hc r k hr hpart
    have dead : ¬ (tryEnds around bodyFlow (handlers.map flow) elseFlow p).any (·.isReachable) := by
      simpa using fun s hs => none s ((ends s).1 hs)
    have grammatical := isGrammatical_child hgy (c := c) (by simp [children, hy, Form.children, hc])
    obtain ⟨s, ended, hs⟩ := endedBy_tryEnd inside
      (List.IsPrefix.trans (by simp [tryEvents, bodyFlow]) protectedPart) grammatical hc hr hpart
    refine ⟨s, ended, fun reachable => (exits s.id).2 ⟨s, ?_, reachable, rfl⟩⟩
    rw [tryExits, if_neg dead, List.mem_append]
    obtain ⟨-, -, rfl | rfl⟩ := innerFlow_of_leaves? hr
    · exact .inr hs
    · exact .inl hs
  · intro s hs hr
    obtain rfl := GrammaticalTree.leftIn_unique hn hs (leftIn_flow h y ⟨later, hlater⟩)
    rw [walk_flow, innerFlow_final hy] at hr
    exact leavesBy_final ((walk_lands around _ p).current hr).2

end Node

namespace CodePath

open Node Walk Event

variable {t : Tree} {n : Node} {p : CodePath}

/-- What a final part comes behind, what comes behind a `try` with a final part, and which jumps a code
path keeps. The first segment of a final part comes just behind the reachable normal ends of what it
follows; if there are none, it comes behind every reachable segment that a return or raise ends in the
body. After the final part control goes on only if the final part can end and the `try` can end
without it or be left by a return or raise in its body. A return or raise that no `try` around it has in
its body and holds back is kept when the path ends. -/
theorem finals_conserve (hg : t.root.isGrammatical = true) (hn : n ∈ t.nodes)
    (hp : p ∈ ofEvents n.events) :
    (∀ y isStar body handlers orelse fin rest,
      y.form = .tryStmt isStar body handlers orelse (fin :: rest) → p.owner.Runs (fun _ _ => True) y →
        ∃ done e z later, n.events = done ++ .segment z :: .enter fin :: later ∧
          (Trail.empty.after done).segment? = some e ∧ z.id.path = p.id ∧
            Conserves n.events y body handlers orelse (fin :: rest) e z) ∧
    ∀ r k, r.leaves? = some k → p.owner.Runs (Passes k) r →
      ∃ s, EndedBy n.events s r ∧ s ∈ p.left k := by
  have mem : n ∈ (GrammaticalTree.mk t hg).nodes := hn
  constructor
  · intro y isStar body handlers orelse fin rest hy hruns
    obtain ⟨done, around, q, hevents, here, hpath, -⟩ :=
      exists_at_of_runs mem hp (List.nil_subset _) (by simp [HandsOn]) hruns
    have hgo := isGrammatical_of_mem hg (owner_mem mem hp)
    have hgy := isGrammatical_of_mem hgo (mem_preorder_of_runs hruns hgo)
    rw [← hpath]
    exact conserves_of_at mem here hgy hy hevents
  · intro r k hr hruns
    obtain ⟨-, -, hk⟩ := innerFlow_of_leaves? hr
    have kinds : [k] ⊆ [Jump.returnOut, .raiseOut] := by
      rcases hk with rfl | rfl <;> simp
    obtain ⟨done, around, q, hevents, here, -, left⟩ :=
      exists_at_of_runs mem hp kinds (handsOn_passes hr) hruns
    obtain ⟨s, ended, hs⟩ := endedBy_flow here hr hevents
    exact ⟨s, ended, left k List.mem_cons_self hs⟩

end CodePath

namespace Flush

def raising : Node := .mk 6 none (.raiseStmt none none)

def reset : Node := .mk 7 none (.exprStmt (.mk 8 none (.name "reset" .load)))

def first : Node :=
  .mk 3 none (.tryStmt false [.mk 4 none (.ifStmt (.mk 5 none (.name "full" .load)) [raising] [])] [] []
    [reset])

def returning : Node := .mk 10 none (.returnStmt none)

def failing : Node := .mk 12 none (.raiseStmt none none)

def handler : Node := .mk 11 none (.handler none none [failing])

def close : Node := .mk 13 none (.exprStmt (.mk 14 none (.name "close" .load)))

def second : Node := .mk 9 none (.tryStmt false [returning] [handler] [] [close])

def function : Node :=
  .mk 1 none (.function false "flush" (.mk 2 none (.parameterList ⟨[], [], none, [], [], none, []⟩))
    [first, second] [] none)

/-- A function that is left while final parts wait:

    def flush():
        try:
            if full:
                raise
        finally:
            reset
        try:
            return
        except:
            raise
        finally:
            close
-/
def root : Node := .mk 0 none (.module [function])

def tree : Tree := ⟨root, root.edges, rfl, pairwise_of_strictlyAscending (by cbv)⟩

theorem isGrammatical : tree.root.isGrammatical = true := by cbv

theorem root_mem : root ∈ tree.nodes := root.mem_preorder_self

theorem exists_path : ∃ p ∈ CodePath.ofEvents root.events, p.owner = function ∧ p.returned = [] := by
  have paths : (CodePath.ofEvents root.events).map (fun p => (p.owner, p.returned)) =
      [(root, []), (function, [])] := by cbv
  obtain ⟨p, hp, hpath⟩ := List.mem_map.1
    (paths ▸ List.mem_cons_of_mem _ List.mem_cons_self :
      (function, []) ∈ (CodePath.ofEvents root.events).map (fun p => (p.owner, p.returned)))
  obtain ⟨howner, hreturned⟩ := Prod.mk.inj hpath
  exact ⟨p, hp, howner, hreturned⟩

end Flush

/-- The final parts and the raises of `flush`. -/
theorem CodePath.finals_conserve_flush : ∃ p ∈ ofEvents Flush.root.events, p.owner = Flush.function ∧
    (∃ done e z later, Flush.root.events = done ++ .segment z :: .enter Flush.reset :: later ∧
      (Trail.empty.after done).segment? = some e ∧ z.id.path = p.id ∧
        Node.Conserves Flush.root.events Flush.first
          [.mk 4 none (.ifStmt (.mk 5 none (.name "full" .load)) [Flush.raising] [])] [] []
          [Flush.reset] e z) ∧
    ∃ s, Event.EndedBy Flush.root.events s Flush.failing ∧ s ∈ p.thrown := by
  obtain ⟨p, hp, howner, -⟩ := Flush.exists_path
  obtain ⟨finals, exits⟩ := finals_conserve Flush.isGrammatical Flush.root_mem hp
  rw [howner] at finals exits
  refine ⟨p, hp, howner, finals _ _ _ _ _ _ _ rfl ?_, exits _ .raiseOut rfl ?_⟩
  · exact ⟨Flush.first, List.mem_cons_self, Flush.first, List.mem_cons_self, .self⟩
  · refine ⟨Flush.second, by simp [Flush.function, Node.ownCode, Node.form], Flush.second,
      List.mem_cons_self, ?_⟩
    have inHandler : Node.PartOf (Node.Passes .raiseOut) Flush.failing Flush.handler :=
      .inside (c := Flush.failing) (fun _ _ _ _ _ hn => by cases hn) List.mem_cons_self
        List.mem_cons_self .self
    have part : Flush.handler ∈ Flush.second.inPlace := by
      simp [Flush.second, Node.inPlace, Node.isFunctionLike, Form.isFunctionLike, Node.form,
        Node.children, Form.children]
    refine .inside (fun _ _ _ _ _ hn hc => ?_) part List.mem_cons_self inHandler
    cases hn
    simp [Flush.handler, Flush.returning] at hc

/-- Not every exit of `flush` is conserved. The first final part does not come behind the `raise` that
nothing handles, nor the second behind the one in its handler; what comes behind the second `try` can be
reached, though that `try` never ends normally without its final part; and no `return` is kept. -/
theorem CodePath.exits_lost_flush :
    (∃ done z later s, Flush.root.events = done ++ .segment z :: .enter Flush.reset :: later ∧
      Event.EndedBy Flush.root.events s Flush.raising ∧ s.isReachable = true ∧ s.id ∉ z.previous) ∧
    (∃ done z later s, Flush.root.events = done ++ .segment z :: .enter Flush.close :: later ∧
      Event.EndedBy Flush.root.events s Flush.failing ∧ s.isReachable = true ∧ s.id ∉ z.previous) ∧
    (∃ s, Event.LeftIn Flush.root.events Flush.second s ∧ s.isReachable = true ∧
      ¬ Flow.LeavesBy none (.attempt (.sequence [Flush.returning.flow]) [Flush.handler.flow]
        (.sequence []) none)) ∧
    ∃ s, Event.EndedBy Flush.root.events s Flush.returning ∧ s.isReachable = true ∧
      ∃ p ∈ ofEvents Flush.root.events, p.owner = Flush.function ∧ p.returned = [] := by
  refine ⟨?_, ?_, ?_, ?_⟩
  · refine ⟨Flush.root.events.take 19, ⟨⟨.ordinal 2, 8⟩, [⟨.ordinal 2, 7⟩], true⟩,
      Flush.root.events.drop 21, ⟨⟨.ordinal 2, 3⟩, [⟨.ordinal 2, 2⟩], true⟩, by cbv, ?_, rfl, by decide⟩
    exact ⟨Flush.root.events.take 13, ⟨⟨.ordinal 2, 4⟩, [], false⟩, Flush.root.events.drop 15,
      by cbv, by cbv⟩
  · refine ⟨Flush.root.events.take 37, ⟨⟨.ordinal 2, 14⟩, [⟨.ordinal 2, 9⟩], true⟩,
      Flush.root.events.drop 39, ⟨⟨.ordinal 2, 11⟩, [⟨.ordinal 2, 9⟩], true⟩, by cbv, ?_, rfl, by decide⟩
    exact ⟨Flush.root.events.take 33, ⟨⟨.ordinal 2, 12⟩, [], false⟩, Flush.root.events.drop 35,
      by cbv, by cbv⟩
  · refine ⟨⟨⟨.ordinal 2, 14⟩, [⟨.ordinal 2, 9⟩], true⟩,
      ⟨Flush.root.events.take 42, Flush.root.events.drop 43, by cbv, by cbv⟩, rfl, ?_⟩
    have returns : Flush.returning.innerFlow = .seq (.sequence []) (.jump .returnOut) := by cbv
    have raises : Flush.handler.innerFlow = .sequence [Flush.failing.flow] := by cbv
    have fails : Flush.failing.innerFlow = .seq (.sequence []) (.jump .raiseOut) := by cbv
    simp [Flow.sequence, Node.flow_eq, returns, raises, fails]
  · refine ⟨⟨⟨.ordinal 2, 9⟩, [⟨.ordinal 2, 8⟩], true⟩, ?_, rfl, Flush.exists_path⟩
    exact ⟨Flush.root.events.take 28, ⟨⟨.ordinal 2, 10⟩, [], false⟩, Flush.root.events.drop 30,
      by cbv, by cbv⟩

end LostUpdate
