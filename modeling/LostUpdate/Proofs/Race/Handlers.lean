import LostUpdate.Proofs.Race.Dataflow
import LostUpdate.Proofs.Walk.Finals
import LostUpdate.Proofs.Walk.Onward

namespace LostUpdate

theorem Segment.LeadsTo.extend {segments : List Segment} {chain : List SegmentId} {j k : SegmentId}
    (h : LeadsTo segments chain j) (hk : Reaches segments j k) :
    ∃ more, LeadsTo segments (chain ++ more) k := by
  induction hk with
  | refl => exact ⟨[], by rwa [List.append_nil]⟩
  | tail _ edge ih =>
    obtain ⟨more, hm⟩ := ih
    obtain ⟨s, hs, rfl, hj⟩ := edge
    refine ⟨more ++ [s.id], ?_⟩
    rw [← List.append_assoc]
    exact .step hm hs hj

namespace Mark

variable {v : Tracked} {l : List Mark}

theorem LeavesOutdated.append (h : LeavesOutdated v l) (m : List Mark) :
    LeavesOutdated v (l ++ m) := by
  obtain ⟨before, between, after, rfl⟩ := h
  exact ⟨before, between, after ++ m, by simp⟩

theorem LeavesFresh.append (h : LeavesFresh v l) (m : List Mark) :
    LeavesFresh v (l ++ m) ∨ LeavesOutdated v (l ++ m) := by
  obtain ⟨before, after, rfl, hs⟩ := h
  by_cases suspended : suspend ∈ m
  · obtain ⟨first, last, rfl⟩ := List.append_of_mem suspended
    exact .inr ⟨before, after ++ first, last, by simp⟩
  · exact .inl ⟨before, after ++ m, by simp, by simp [hs, suspended]⟩

end Mark

namespace SegmentStates

/-- Whatever is outdated in `j` is outdated in `k`, and whatever is fresh in `j` is fresh or
outdated in `k`. -/
def Sees (m : SegmentStates SegmentId Tracked) (j k : SegmentId) : Prop :=
  ∃ sj sk, m.state? j = some sj ∧ m.state? k = some sk ∧ sj.outdated ⊆ sk.outdated ∧
    ∀ v ∈ sj.fresh, v ∈ sk.fresh ∨ v ∈ sk.outdated

/-- What is known in a segment is known wherever forward edges lead from it. -/
theorem Exact.sees {segments : List Segment} {marks : List (SegmentId × Mark)}
    {m : SegmentStates SegmentId Tracked} (h : m.Exact segments marks) {j k : SegmentId}
    (hj : j ∈ segments.map (·.id)) (hk : Segment.Reaches segments j k) : m.Sees j k := by
  have known : k ∈ segments.map (·.id) := by
    rcases hk.cases_tail with rfl | ⟨_, -, s, hs, rfl, -⟩
    · exact hj
    · exact List.mem_map_of_mem hs
  obtain ⟨sj, hsj⟩ := Option.isSome_iff_exists.1 ((h.known j).2 hj)
  obtain ⟨sk, hsk⟩ := Option.isSome_iff_exists.1 ((h.known k).2 known)
  refine ⟨sj, sk, hsj, hsk, fun v hv => ?_, fun v hv => ?_⟩
  · obtain ⟨chain, hchain, left⟩ := (h.outdated j sj hsj v).1 hv
    obtain ⟨more, further⟩ := hchain.extend hk
    refine (h.outdated k sk hsk v).2 ⟨_, further, ?_⟩
    rw [Mark.along_append]
    exact left.append _
  · obtain ⟨chain, hchain, left⟩ := (h.fresh j sj hsj v).1 hv
    obtain ⟨more, further⟩ := hchain.extend hk
    rw [h.fresh k sk hsk v, h.outdated k sk hsk v]
    refine (left.append (Mark.along marks more)).imp ?_ ?_
    all_goals
      rw [← Mark.along_append]
      exact fun left => ⟨_, further, left⟩

end SegmentStates

namespace Node

open LostUpdate.Flow Walk Event

/-- What the handler that starts in `z` after `earlier` comes behind and knows of the body of its
`try`, which is walked from `q`. -/
structure SeesBody (events : List Event) (body : List Node) (around : Surroundings) (q : Spot)
    (earlier : List Event) (z : Segment) : Prop where
  entered : (tryBody around q).current.isReachable = true →
    (tryBody around q).current.id ∈ z.previous
  ended : ∀ last ∈ body.getLast?, ∀ s, LeftIn events last s → s.isReachable = true →
    s.id ∈ z.previous
  raised : ∀ c ∈ body, ∀ r, r.leaves? = some .raiseOut → PartOf (Passes .raiseOut) r c →
    ∃ s, EndedBy events s r ∧ (s.isReachable = true → s.id ∈ z.previous)
  behind : ∀ c session, Session.initial.run c (earlier ++ [.segment z]) = .ok session →
    ∀ s, .segment s ∈ earlier → ∀ k ∈ z.previous, Segment.Reaches (segments earlier) s.id k →
      session.tracker.states.Sees s.id z.id
  onward : (sequence (body.map flow)).isOnward = true →
    ∀ c session, Session.initial.run c (earlier ++ [.segment z]) = .ok session →
      ∀ s, .segment s ∈ ((sequence (body.map flow)).walk around (tryBody around q)).1 →
        s.id.path = z.id.path → s.isReachable = true →
          s ∉ turns around (sequence (body.map flow)) (tryBody around q) →
            session.tracker.states.Sees s.id z.id

variable {t : GrammaticalTree} {n y last : Node} {body handlers orelse final : List Node} {isStar : Bool}
  {done events : List Event} {around : Surroundings} {p : Spot}

theorem exists_handler (h : At done around p)
    (hy : y.form = .tryStmt isStar body handlers orelse final) {x : Node} (hx : x ∈ handlers) :
    ∃ before r rest, (y.flow.walk around p).1 = .enter y ::
      ((startSegment around.path [p.current] p).1 ++
        (walk around (.sequence (body.map flow)) (tryBody around p)).1 ++ before ++
        .segment (startSegment around.path
          (tryRisks around (.sequence (body.map flow)) p) r).2.current :: .enter x :: rest) := by
  have inside : At (done ++ [.enter y]) around p := h.walk (.enter y)
  obtain ⟨-, -, before, r, later, harms, -⟩ := mem_of_forall₂
    (walkArms_each (at_tryCatch (.sequence (body.map flow)) inside) (begun_tryRisks _ inside)
      (handlers.map flow)) (List.mem_map_of_mem hx)
  obtain ⟨more, hmore⟩ := exists_tryEvents around (.sequence (body.map flow)) (handlers.map flow)
    (.sequence (orelse.map flow))
    (if final.isEmpty then none else some (.sequence (final.map flow))) p
  obtain ⟨inArm, harm⟩ :=
    walkArm_flow x around (tryRisks around (.sequence (body.map flow)) p) r
  refine ⟨before, r, ?_⟩
  rw [walk_flow, innerFlow_try hy, hmore, tryEvents, harms, harm]
  simp only [List.append_assoc, List.cons_append]
  exact ⟨_, rfl⟩

theorem seesBody_of_at (hn : n ∈ t.nodes) (h : At done around p)
    (hgy : y.isGrammatical = true) (hy : y.form = .tryStmt isStar body handlers orelse final)
    (hevents : done ++ (y.flow.walk around p).1 <+: n.events) {x : Node} (hx : x ∈ handlers) :
    ∃ earlier z rest, n.events = earlier ++ .segment z :: .enter x :: rest ∧
      z.id.path = around.path ∧ SeesBody n.events body around p earlier z := by
  have inside : At (done ++ [.enter y]) around p := h.walk (.enter y)
  let bodyFlow := Flow.sequence (body.map flow)
  obtain ⟨before, r, rest, hwalk⟩ := exists_handler h hy hx
  let z := (startSegment around.path (tryRisks around bodyFlow p) r).2.current
  have risks {s : Segment} (hs : s ∈ tryRisks around bodyFlow p) (hr : s.isReachable = true) :
      s.id ∈ z.previous := mem_previous_startSegment.2 ⟨s, hs, hr, rfl⟩
  obtain ⟨later, hlater⟩ := hevents
  let earlier := done ++ [.enter y] ++ (startSegment around.path [p.current] p).1 ++
    (walk around bodyFlow (tryBody around p)).1 ++ before
  have hsplit : n.events = earlier ++ .segment z :: .enter x :: (rest ++ later) := by
    rw [← hlater, hwalk]
    simp [earlier, z, bodyFlow]
  have upToBody : done ++ [.enter y] ++ (startSegment around.path [p.current] p).1 ++
      (walk around bodyFlow (tryBody around p)).1 <+: n.events := by
    rw [hsplit]
    simp [earlier]
  have behind (c : Subject) (session : Session)
      (hrun : Session.initial.run c (earlier ++ [.segment z]) = .ok session) (s : Segment)
      (hs : .segment s ∈ earlier) (k : SegmentId) (hk : k ∈ z.previous)
      (reaches : Segment.Reaches (segments earlier) s.id k) :
      session.tracker.states.Sees s.id z.id := by
    have allowed : Trail.empty.AllowsAll (earlier ++ [.segment z]) := by
      have all := n.events_allowed.1
      rw [hsplit, List.append_cons] at all
      exact (Trail.allowsAll_append.1 all).1
    have exact := (Session.follows_run allowed hrun).2
    rw [segments_append] at exact
    exact exact.sees (List.mem_map_of_mem (List.mem_append_left _ (mem_segments.2 hs)))
      ((reaches.mono (List.subset_append_left _ _)).tail
        ⟨z, List.mem_append_right _ List.mem_cons_self, rfl, hk⟩)
  refine ⟨earlier, z, rest ++ later, hsplit, rfl, ⟨risks List.mem_cons_self, ?_, ?_, behind, ?_⟩⟩
  · intro last hl s left hr
    have ended := leftIn_last (at_tryBody inside) hl upToBody
    obtain rfl := GrammaticalTree.leftIn_unique hn ended left
    exact risks (List.mem_cons_of_mem _ List.mem_cons_self) hr
  · intro c hc r hr hpart
    have grammatical := isGrammatical_child hgy (c := c) (by simp [children, hy, Form.children, hc])
    obtain ⟨s, ended, hs⟩ := endedBy_tryEnd inside upToBody grammatical hc hr hpart
    exact ⟨s, ended, risks (List.mem_cons_of_mem _ (List.mem_cons_of_mem _ hs))⟩
  · intro onward c session hrun s hs hpath hr stray
    have mem := (at_tryBody inside).mem_own bodyFlow hs hpath
    obtain ⟨k, reachable, hk, reaches⟩ :=
      (walk_drains around bodyFlow (tryBody around p) onward).during s mem stray hr
    refine behind c session hrun s (by simp [earlier, bodyFlow, hs]) k.id (risks ?_ reachable)
      (reaches.mono fun q hq => mem_segments.2 ?_)
    · exact List.mem_cons_of_mem _ (hk.elim (fun same => List.mem_cons.2 (.inl same))
        (List.mem_cons_of_mem _))
    · have inBody := (own_sublist 0 _).subset (mem_segments.1 hq)
      simp [earlier, inBody]

end Node

namespace CodePath

open Node Walk

variable {t : Tree} {n y : Node} {p : CodePath} {isStar : Bool}
  {body handlers orelse final : List Node}

/-- What the handlers of a `try` know. Each of them comes behind the segment in which the body
starts, that in which its last statement is left, and those that a raise out of the body ends, as far
as they can be reached. Where a handler starts, everything is outdated that is outdated in a segment
from which forward edges lead to one of these, and everything is fresh or outdated that is fresh in
it. If the body can only be left at its end or by a raise, turns of loops aside, these are all
reachable segments of the body but those that start in turns of loops. -/
theorem handlers_see (hg : t.root.isGrammatical = true) (hn : n ∈ t.nodes)
    (hp : p ∈ ofEvents n.events) (hy : y.form = .tryStmt isStar body handlers orelse final)
    (hruns : p.owner.Runs (fun _ _ => True) y) :
    ∃ done around q later, n.events = done ++ ((y.flow.walk around q).1 ++ later) ∧
      At done around q ∧ around.path = p.id ∧
        ∀ h ∈ handlers, ∃ earlier z rest, n.events = earlier ++ .segment z :: .enter h :: rest ∧
          z.id.path = p.id ∧ SeesBody n.events body around q earlier z := by
  have mem : n ∈ (GrammaticalTree.mk t hg).nodes := hn
  obtain ⟨done, around, q, hevents, here, hpath, -⟩ :=
    exists_at_of_runs mem hp (List.nil_subset _) (by simp [HandsOn]) hruns
  have hgo := isGrammatical_of_mem hg (owner_mem mem hp)
  have hgy := isGrammatical_of_mem hgo (mem_preorder_of_runs hruns hgo)
  obtain ⟨later, hlater⟩ := hevents
  refine ⟨done, around, q, later, by rw [← hlater, List.append_assoc], here, hpath, fun h hh => ?_⟩
  rw [← hpath]
  exact seesBody_of_at mem here hgy hy ⟨later, hlater⟩ hh

end CodePath

namespace Watch

def loop : Node :=
  .mk 5 none (.whileLoop (.mk 6 none (.name "more" .load))
    [.mk 7 none (.exprStmt (.mk 8 none (.name "total" .load))),
      .mk 9 none (.exprStmt (.mk 10 none (.await (.mk 11 none (.name "step" .load)))))] [])

def handler : Node :=
  .mk 12 none (.handler (some (.mk 13 none (.name "Error" .load))) none
    [.mk 14 none (.assign [.mk 15 none (.name "total" .store)]
      (.mk 16 none (.name "fallback" .load)))])

def guarded : Node := .mk 4 none (.tryStmt false [loop] [handler] [] [])

def function : Node :=
  .mk 1 none (.function true "watch" (.mk 2 none (.parameterList ⟨[], [], none, [], [], none, []⟩))
    [.mk 3 none (.globalDecl ["total"]), guarded] [] none)

/-- A coroutine that falls back when what it waits for fails:

    async def watch():
        global total
        try:
            while more:
                total
                await step
        except Error:
            total = fallback
-/
def root : Node := .mk 0 none (.module [function])

def tree : Tree := ⟨root, root.edges, rfl, pairwise_of_strictlyAscending (by cbv)⟩

theorem isGrammatical : tree.root.isGrammatical = true := by cbv

theorem root_mem : root ∈ tree.nodes := root.mem_preorder_self

def scoping : Scoping := ((Scoping.ofTree tree).toOption).getD ⟨tree, []⟩

theorem ofTree_tree : Scoping.ofTree tree = .ok scoping := by cbv

theorem exists_path : ∃ p ∈ CodePath.ofEvents root.events, p.owner = function := by
  have owners : (CodePath.ofEvents root.events).map (·.owner) = [root, function] := by cbv
  exact List.mem_map.1 (owners ▸ List.mem_cons_of_mem _ List.mem_cons_self :
    function ∈ (CodePath.ofEvents root.events).map (·.owner))

end Watch

/-- The handler of `watch`, whose `try` has a body that is left in no other way. -/
theorem CodePath.handlers_see_watch : (Flow.sequence [Watch.loop.flow]).isOnward = true ∧
    ∃ p ∈ ofEvents Watch.root.events, p.owner = Watch.function ∧ ∃ done around q later,
      Watch.root.events = done ++ ((Watch.guarded.flow.walk around q).1 ++ later) ∧
        Walk.At done around q ∧ around.path = p.id ∧ ∃ earlier z rest,
          Watch.root.events = earlier ++ .segment z :: .enter Watch.handler :: rest ∧
            z.id.path = p.id ∧
              Node.SeesBody Watch.root.events [Watch.loop] around q earlier z := by
  obtain ⟨p, hp, howner⟩ := Watch.exists_path
  have hruns : p.owner.Runs (fun _ _ => True) Watch.guarded := by
    rw [howner]
    exact ⟨Watch.guarded, List.mem_cons_of_mem _ List.mem_cons_self, Watch.guarded,
      List.mem_cons_self, .self⟩
  obtain ⟨done, around, q, later, hevents, here, hpath, handlers⟩ :=
    handlers_see Watch.isGrammatical Watch.root_mem hp (y := Watch.guarded) rfl hruns
  exact ⟨by cbv, p, hp, howner, done, around, q, later, hevents, here, hpath,
    handlers Watch.handler List.mem_cons_self⟩

/-- The handler of `watch` does not see all of the body. In the turn of the loop, which is reached,
the counter is outdated when the handler starts; in the first segment of the handler it is not. -/
theorem CodePath.turn_unseen_watch :
    let c : Subject := ⟨Watch.scoping, none, []⟩
    let total := Tracked.bound 0 "total"
    Scoping.ofTree Watch.tree = .ok Watch.scoping ∧
    ∃ (before inBody rest : List Event) (z s : Segment) (session : Session),
      Watch.root.events = before ++ .enter Watch.guarded ::
        (inBody ++ .segment z :: .enter Watch.handler :: rest) ∧
      .segment s ∈ inBody ∧ s.id.path = z.id.path ∧ s.isReachable = true ∧
      Session.initial.run c (before ++ .enter Watch.guarded :: (inBody ++ [.segment z])) =
        .ok session ∧
      (∃ st, session.tracker.states.state? s.id = some st ∧ total ∈ st.outdated) ∧
      ∃ st, session.tracker.states.state? z.id = some st ∧ total ∉ st.outdated := by
  intro c total
  have known : ((Session.initial.run c (Watch.root.events.take 30)).toOption.bind fun s =>
      (s.tracker.states.state? ⟨.ordinal 2, 4⟩).bind fun inTurn =>
        (s.tracker.states.state? ⟨.ordinal 2, 7⟩).map fun handled =>
          decide (total ∈ inTurn.outdated ∧ total ∉ handled.outdated)) = some true := by cbv
  obtain ⟨session, hs, known⟩ := Option.bind_eq_some_iff.1 known
  obtain ⟨inTurn, hturn, known⟩ := Option.bind_eq_some_iff.1 known
  obtain ⟨handled, hhandled, known⟩ := Option.map_eq_some_iff.1 known
  obtain ⟨outdated, unseen⟩ := of_decide_eq_true known
  have hrun : Session.initial.run c (Watch.root.events.take 30) = .ok session := by
    cases h : Session.initial.run c (Watch.root.events.take 30) <;> simp_all [Except.toOption]
  have split : Watch.root.events.take 30 = Watch.root.events.take 8 ++ .enter Watch.guarded ::
      ((Watch.root.events.take 29).drop 9 ++
        [.segment ⟨⟨.ordinal 2, 7⟩, [⟨.ordinal 2, 2⟩, ⟨.ordinal 2, 6⟩], true⟩]) := by cbv
  rw [split] at hrun
  exact ⟨Watch.ofTree_tree, Watch.root.events.take 8, (Watch.root.events.take 29).drop 9,
    Watch.root.events.drop 31,
    ⟨⟨.ordinal 2, 7⟩, [⟨.ordinal 2, 2⟩, ⟨.ordinal 2, 6⟩], true⟩,
    ⟨⟨.ordinal 2, 4⟩, [⟨.ordinal 2, 3⟩], true⟩, session, by cbv,
    List.mem_of_getElem? (i := 5) (by cbv), rfl, rfl, hrun, ⟨inTurn, hturn, outdated⟩,
    handled, hhandled, unseen⟩

end LostUpdate
