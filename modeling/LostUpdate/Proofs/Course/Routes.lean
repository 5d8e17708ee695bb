import LostUpdate.Proofs.Course.Completeness
import LostUpdate.Proofs.Course.Soundness
import LostUpdate.Proofs.Scope.Nesting
import LostUpdate.Proofs.Walk.Blocks

namespace LostUpdate

open Courses

namespace CodePath

/-- A way through the graph from its first segment, along edges of both kinds. -/
inductive Route (p : CodePath) : List SegmentId → SegmentId → Prop
  | start {k : SegmentId} (h : p.initial? = some k) : Route p [k] k
  | step {chain : List SegmentId} {j k : SegmentId} (h : Route p chain j) (hk : p.Leads j k) :
      Route p (chain ++ [k]) k

/-- The names evaluated on the routes to reachable segments among `ends`. -/
def routesTo (p : CodePath) (contents : Contents) (ends : List Segment) : Language Node :=
  {w | ∃ s ∈ ends, s.isReachable = true ∧
    ∃ chain, p.Route chain s.id ∧ w = chain.flatMap contents}

variable {p : CodePath} {contents : Contents} {j k : SegmentId}

/-- The names evaluated on routes before they come to a segment. -/
def arrivals (p : CodePath) (contents : Contents) : Arrivals := fun k =>
  {w | ∃ chain, p.Route (chain ++ [k]) k ∧ w = chain.flatMap contents}

theorem Route.eq_concat {chain : List SegmentId} (h : p.Route chain k) :
    ∃ before, chain = before ++ [k] := by
  cases h with
  | start h => exact ⟨[], rfl⟩
  | step h hk => exact ⟨_, rfl⟩

theorem mem_through_arrivals {w : List Node} : w ∈ (p.arrivals contents).through contents k ↔
    ∃ chain, p.Route chain k ∧ w = chain.flatMap contents := by
  constructor
  · intro h
    obtain ⟨u, ⟨chain, hroute, rfl⟩, v, rfl, rfl⟩ := Language.mem_mul.1 h
    exact ⟨chain ++ [k], hroute, by simp⟩
  · rintro ⟨chain, hroute, rfl⟩
    obtain ⟨before, rfl⟩ := hroute.eq_concat
    exact Language.mem_mul.2 ⟨_, ⟨before, hroute, rfl⟩, contents k, rfl, by simp⟩

theorem mem_routesTo_iff {ends : List Segment} {w : List Node} : w ∈ p.routesTo contents ends ↔
    ∃ s ∈ ends, s.isReachable = true ∧ w ∈ (p.arrivals contents).through contents s.id := by
  simp only [mem_through_arrivals]
  rfl

/-- What arrives at a segment, with its own names, arrives wherever an edge leads from it. -/
theorem through_arrivals_le (h : p.Leads j k) :
    (p.arrivals contents).through contents j ≤ p.arrivals contents k := by
  intro w hw
  obtain ⟨chain, hroute, rfl⟩ := mem_through_arrivals.1 hw
  exact ⟨chain, .step hroute h, rfl⟩

theorem arrivals_eq_zero (hk : p.initial? ≠ some k) (h : ∀ j, ¬ p.Leads j k) :
    p.arrivals contents k = 0 := by
  refine le_antisymm (fun w hw => ?_) bot_le
  obtain ⟨chain, hroute, -⟩ := hw
  generalize hl : chain ++ [k] = l at hroute
  cases hroute with
  | start hi => exact absurd hi hk
  | step _ hlead => exact absurd hlead (h _)

open Walk Event Arrivals

variable {f : Node} {events : List Event} {paths : ℕ}

/-- The courses through a node's code are among the routes through its path. -/
theorem Walked.sound (h : p.Walked f events paths)
    (hs : f.programFlow.isStructured false = true) :
    let contents : Contents := (Trail.empty.entered · events)
    f.programFlow.courses none ≤ p.routesTo contents p.current ∧
      f.programFlow.courses (some .returnOut) ≤ p.routesTo contents p.returned ∧
        f.programFlow.courses (some .raiseOut) ≤ p.routesTo contents p.thrown := by
  intro contents
  let q := (f.walked paths).2
  let x : Point := ⟨(entry paths).current, []⟩
  let A := p.arrivals contents
  have dead : ∀ s, .segment s ∈ own 0 (f.walked paths).1 → s.isReachable = false → A s.id = 0 := by
    intro s hs hd
    obtain ⟨hne, hlead⟩ := h.dead s hs hd
    refine arrivals_eq_zero (fun hi => hne ?_) hlead
    exact (Option.some.inj (h.initial.symm.trans hi)).symm
  have admits : ∀ e ∈ own 0 (f.walked paths).1, A.Admits contents e := by
    intro e he
    have mine := h.belongs e he
    cases e with
    | segment s =>
      exact fun j hj => through_arrivals_le ((h.leads j s.id).2 ⟨_, he, mine.symm, rfl, hj⟩)
    | backEdge source target =>
      exact through_arrivals_le ((h.leads source.id target.id).2
        ⟨_, he, mine.symm, h.returns source target he, rfl, rfl⟩)
    | _ => trivial
  have solves : A.Solves contents x (own 0 (f.walked paths).1) := ⟨h.told, admits, dead⟩
  have meets : A.Meets (entry paths) x := ⟨rfl, by simp [entry]⟩
  let exits (k : Jump) : Language Node := p.routesTo contents (q.left k)
  have leaves : A.Exits contents (alone paths) q exits := by
    refine ⟨fun k s hs hr w hw => mem_routesTo_iff.2 ⟨s, hs, hr, hw⟩, fun t ht => ?_⟩
    simp [alone] at ht
  have here : (1 : Language Node) ≤ A.upTo x := by
    intro w hw
    obtain rfl : w = [] := hw
    rw [upTo_start]
    exact ⟨[], .start h.initial, rfl⟩
  have bounded := (Flow.walk_sound hs (by simp) meets solves leaves).of_le here
  have within (o : Option Jump) {l : Language Node} (hl : 1 * f.programFlow.courses o ≤ l) :
      f.programFlow.courses o ≤ l := by
    rwa [one_mul] at hl
  have ends : A.Meets q (x.after (own 0 (f.walked paths).1)) :=
    meets.after (f.walked_moves paths) solves
  have told : contents (x.after (own 0 (f.walked paths).1)).segment.id =
      (x.after (own 0 (f.walked paths).1)).names := by
    rw [ends.current]
    exact h.last
  have last : A.upTo (x.after (own 0 (f.walked paths).1)) = A.through contents q.current.id := by
    rw [upTo_eq_through told, ends.current]
  refine ⟨within none ?_, ?_, ?_⟩
  · rw [h.current]
    refine bounded.through.trans (last.trans_le (through_le ends.dead fun hr w hw => ?_))
    exact mem_routesTo_iff.2 ⟨q.current, List.mem_singleton_self _, hr, hw⟩
  · rw [h.returned]
    exact within _ (bounded.leaves .returnOut)
  · rw [h.thrown]
    exact within _ (bounded.leaves .raiseOut)

/-- The routes through the path of a node's code are among the courses through the code. -/
theorem Walked.complete (h : p.Walked f events paths)
    (hs : f.programFlow.isStructured false = true) :
    let contents : Contents := (Trail.empty.entered · events)
    p.routesTo contents p.current ≤ f.programFlow.courses none ∧
      p.routesTo contents p.returned ≤ f.programFlow.courses (some .returnOut) ∧
        p.routesTo contents p.thrown ≤ f.programFlow.courses (some .raiseOut) := by
  classical
  intro contents
  let q := (f.walked paths).2
  let x : Point := ⟨(entry paths).current, []⟩
  let c := f.programFlow.courses
  let first := (entry paths).current.id
  let A : Arrivals := fun k => if k = first then 1 else 0
  have bounded : Bounded 1 c (c none) (fun k => c (some k)) :=
    ⟨(one_mul _).le, fun k => (one_mul _).le⟩
  have starts (B : Arrivals) (hB : Arrivals.Agree (entry paths).segments A B) : B first = 1 :=
    (hB first (Nat.le_refl 1)).trans (if_pos rfl)
  have fits : A.Settled (entry paths).segments
      (Fits contents (alone paths) 1 (fun k => c (some k)) (entry paths) x) := by
    refine fun B hB => ⟨?_, fun k s hk => ?_, fun t ht => ?_⟩
    · exact (upTo_start _).trans_le (starts B hB).le
    · cases k <;> exact absurd hk List.not_mem_nil
    · simp [alone] at ht
  obtain ⟨B, toB, settled⟩ := Flow.walk_complete hs rfl h.told bounded fits
  obtain ⟨admits, keeps⟩ := settled B (.refl _ B)
  -- Along a route nothing is evaluated but what the arrivals allow.
  have routes {chain : List SegmentId} {k : SegmentId} (hroute : p.Route chain k) :
      chain.flatMap contents ∈ B.through contents k := by
    induction hroute with
    | @start k hk =>
      obtain rfl : first = k := Option.some.inj (h.initial.symm.trans hk)
      exact Language.mem_mul.2 ⟨[], by rw [starts B toB]; rfl, contents first, rfl, by simp⟩
    | @step chain j k hroute hlead ih =>
      have arrives : chain.flatMap contents ∈ B k := by
        obtain ⟨e, he, hdraws⟩ := (h.leads j k).1 hlead
        have admitted := admits e he
        cases e with
        | segment s =>
          obtain ⟨-, rfl, hj⟩ := hdraws
          exact admitted j hj ih
        | backEdge source target =>
          obtain ⟨-, -, rfl, rfl⟩ := hdraws
          exact admitted ih
        | _ => exact hdraws.elim
      exact Language.mem_mul.2 ⟨_, arrives, contents k, rfl, by simp⟩
  have leaving (k : Jump) : p.routesTo contents (q.left k) ≤ c (some k) := by
    rintro w ⟨s, hs, -, chain, hroute, rfl⟩
    exact keeps.keeps.left k s hs (routes hroute)
  have moved := f.walked_moves paths
  have running : (x.after (own 0 (f.walked paths).1)).segment = q.current := moved.current x rfl
  have told : contents (x.after (own 0 (f.walked paths).1)).segment.id =
      (x.after (own 0 (f.walked paths).1)).names := by
    rw [running]
    exact h.last
  have ends : B.through contents q.current.id ≤ c none := by
    rw [← running, ← upTo_eq_through told]
    exact keeps.here
  refine ⟨?_, ?_, ?_⟩
  · rw [h.current]
    rintro w ⟨s, hs, -, chain, hroute, rfl⟩
    obtain rfl := List.mem_singleton.1 hs
    exact ends (routes hroute)
  · rw [h.returned]
    exact leaving .returnOut
  · rw [h.thrown]
    exact leaving .raiseOut

/-- The graph of structured code is exact: the courses through the code that end with it, return or
raise are what is evaluated on the routes from the first segment of its path to the reachable ones
among those at its end, at a `return` and at a `raise`. -/
theorem routes_eq_courses {t : Tree} (hg : t.root.isGrammatical = true) {n : Node}
    (hn : n ∈ t.nodes) {p : CodePath} (hp : p ∈ ofEvents n.events)
    (hc : p.owner.isClause = false) (hs : p.owner.runsStructured = true) :
    let contents : Contents := (Trail.empty.entered · n.events)
    p.routesTo contents p.current = p.owner.ownCourses none ∧
      p.routesTo contents p.returned = p.owner.ownCourses (some .returnOut) ∧
        p.routesTo contents p.thrown = p.owner.ownCourses (some .raiseOut) := by
  intro contents
  have mem : n ∈ (GrammaticalTree.mk t hg).nodes := hn
  have owner := Node.isGrammatical_of_mem hg (owner_mem mem hp)
  obtain ⟨paths, walked⟩ := exists_walked mem hp
  obtain ⟨structured, same⟩ := Node.programFlow_runs owner hc hs
  obtain ⟨ends, returns, raises⟩ := walked.complete structured
  obtain ⟨ends', returns', raises'⟩ := walked.sound structured
  rw [← same]
  exact ⟨ends.antisymm ends', returns.antisymm returns', raises.antisymm raises'⟩

end CodePath

namespace Drain

def turn : List Node :=
  [.mk 7 none (.ifStmt (.mk 8 none (.name "full" .load)) [.mk 9 none .breakStmt] []),
    .mk 10 none (.ifStmt (.mk 11 none (.name "bad" .load))
      [.mk 12 none (.returnStmt (some (.mk 13 none (.name "item" .load))))] [])]

def function : Node :=
  .mk 1 none (.function false "drain"
    (.mk 2 none (.parameterList ⟨[], [.mk 3 none (.parameter "queue" none)], none, [], [], none, []⟩))
    [.mk 4 none (.forLoop false (.mk 5 none (.name "item" .store))
      (.mk 6 none (.name "queue" .load)) turn
      [.mk 14 none (.exprStmt (.mk 15 none (.name "flush" .load)))])] [] none)

/-- A function that takes from a queue until it is full:

    def drain(queue):
        for item in queue:
            if full:
                break
            if bad:
                return item
        else:
            flush
-/
def root : Node := .mk 0 none (.module [function])

def tree : Tree := ⟨root, root.edges, rfl, pairwise_of_strictlyAscending (by cbv)⟩

end Drain

/-- The routes through `drain` to its end and to its `return`. -/
theorem CodePath.routes_eq_courses_drain :
    let contents : Contents := (Trail.empty.entered · Drain.root.events)
    ∃ p ∈ ofEvents Drain.root.events, p.owner = Drain.function ∧
      p.owner.isClause = false ∧ p.owner.runsStructured = true ∧
        p.routesTo contents p.current = Drain.function.ownCourses none ∧
          p.routesTo contents p.returned = Drain.function.ownCourses (some .returnOut) := by
  intro contents
  have grammatical : Drain.tree.root.isGrammatical = true := by cbv
  have mem : Drain.root ∈ Drain.tree.nodes := Drain.root.mem_preorder_self
  have owners : (ofEvents Drain.root.events).map (·.owner) = [Drain.root, Drain.function] := by cbv
  obtain ⟨p, hp, howner⟩ := List.mem_map.1
    (owners ▸ List.mem_cons_of_mem _ List.mem_cons_self :
      Drain.function ∈ (ofEvents Drain.root.events).map (·.owner))
  have clause : p.owner.isClause = false := by rw [howner]; rfl
  have structured : p.owner.runsStructured = true := by rw [howner]; cbv
  obtain ⟨ends, returns, -⟩ := routes_eq_courses grammatical mem hp clause structured
  rw [howner] at ends returns
  exact ⟨p, hp, howner, clause, structured, ends, returns⟩

end LostUpdate
