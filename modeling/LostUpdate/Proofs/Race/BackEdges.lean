import LostUpdate.Proofs.Race.Totals
import LostUpdate.Proofs.Walk.BackEdges

namespace LostUpdate

/-- Lists are equally long if their elements stand for one another one by one. -/
theorem length_eq_of_matching {α β : Type} {R : α → β → Prop} {l : List α} {m : List β} (hl : l.Nodup)
    (hm : m.Nodup) (left : ∀ a ∈ l, ∃ b ∈ m, R a b) (right : ∀ b ∈ m, ∃ a ∈ l, R a b)
    (functional : ∀ a b c, R a b → R a c → b = c) (injective : ∀ a b c, R a c → R b c → a = b) :
    l.length = m.length := by
  classical
  rw [← List.toFinset_card_of_nodup hl, ← List.toFinset_card_of_nodup hm]
  refine Nat.le_antisymm (Finset.card_le_card_of_forall_subsingleton R ?_ ?_)
    (Finset.card_le_card_of_forall_subsingleton' R ?_ ?_)
  · simpa using left
  · exact fun b _ a ha c hc => injective a c b ha.2 hc.2
  · simpa using right
  · exact fun a _ b hb c hc => functional a b c hb.2 hc.2

/-- What only nodes of a tree have, the nodes of a list have, each listed once. -/
theorem Tree.exists_listed (t : Tree) {P : Node → Prop} (h : ∀ x, P x → x ∈ t.nodes) :
    ∃ l : List Node, l.Nodup ∧ ∀ x, x ∈ l ↔ P x := by
  classical
  refine ⟨t.nodes.filter (P ·), (nodup_preorder t.root.mem_preorder_self).filter _, fun x => ?_⟩
  simpa using h x

namespace Node

open Event

/-- `x` is a `continue` that a loop of some code path binds, and can be reached. -/
def ReachedContinue (events : List Event) (x : Node) : Prop :=
  ∃ p ∈ CodePath.ofEvents events, ∃ L l s, p.owner.Runs (fun _ _ => True) L ∧ L.loop? = some l ∧
    l.Binds .continueLoop x ∧ EndedBy events s x ∧ s.isReachable = true

/-- `L` is a loop of some code path, and the end of its body can be reached. -/
def ReachedEnd (events : List Event) (L : Node) : Prop :=
  ∃ p ∈ CodePath.ofEvents events, ∃ l s, p.owner.Runs (fun _ _ => True) L ∧ L.loop? = some l ∧
    l.BodyEndsAt events s ∧ s.isReachable = true

/-- A loop goes back from the place `y`, which can be reached, along the edge `e`. -/
def GoesBack (events : List Event) (y : Node) (e : SegmentId × SegmentId) : Prop :=
  ∃ p ∈ CodePath.ofEvents events, ∃ L l s target, p.owner.Runs (fun _ _ => True) L ∧
    L.loop? = some l ∧ L.TurnsAt events y s ∧ s.isReachable = true ∧ l.StartsAt events target ∧
      (s.id, target.id) = e

variable {t : GrammaticalTree} {n y z : Node} {d e : SegmentId × SegmentId}

section Program

variable (hn : n ∈ t.nodes)

include hn

theorem exists_goesBack_iff :
    (∃ e, GoesBack n.events y e) ↔ ReachedContinue n.events y ∨ ReachedEnd n.events y := by
  constructor
  · rintro ⟨e, p, hp, L, l, s, target, hruns, hl, turns, alive, -, -⟩
    rcases (turnsAt_iff hl).1 turns with ⟨rfl, hs⟩ | ⟨hx, hs⟩
    · exact .inr ⟨p, hp, l, s, hruns, hl, hs, alive⟩
    · exact .inl ⟨p, hp, L, l, s, hruns, hl, hx, hs, alive⟩
  · rintro (⟨p, hp, L, l, s, hruns, hl, hx, hs, alive⟩ | ⟨p, hp, l, s, hruns, hl, hs, alive⟩)
    · obtain ⟨first, behind, joins⟩ := CodePath.exists_joins hn hp hruns hl
      exact ⟨_, p, hp, L, l, s, first, hruns, hl, .jump hl hx hs, alive, joins.starts.1, rfl⟩
    · obtain ⟨first, behind, joins⟩ := CodePath.exists_joins hn hp hruns hl
      exact ⟨_, p, hp, y, l, s, first, hruns, hl, .bodyEnd hl hs, alive, joins.starts.1, rfl⟩

theorem GoesBack.injective (hy : GoesBack n.events y e) (hz : GoesBack n.events z e) : y = z := by
  obtain ⟨p, hp, L, l, s, first, hL, hl, turns, -, hs, rfl⟩ := hy
  obtain ⟨q, hq, M, m, r, second, hM, hm, again, -, hr, same⟩ := hz
  obtain ⟨sources, targets⟩ := Prod.mk.inj same
  obtain rfl := Tree.eq_of_startsAt (CodePath.mem_nodes_of_runs hn hp hL)
    (CodePath.mem_nodes_of_runs hn hq hM) hl hm hs hr targets.symm
  obtain ⟨start, behind, joins⟩ := CodePath.exists_joins hn hp hL hl
  exact joins.apart y z s r turns again sources.symm

theorem GoesBack.functional (hd : GoesBack n.events y d) (he : GoesBack n.events y e) : d = e := by
  obtain ⟨p, hp, L, l, s, first, hL, hl, turns, alive, hs, rfl⟩ := hd
  obtain ⟨q, hq, M, m, r, second, hM, hm, again, -, hr, rfl⟩ := he
  rcases (turnsAt_iff hl).1 turns with ⟨rfl, ends⟩ | ⟨hx, ends⟩ <;>
    rcases (turnsAt_iff hm).1 again with ⟨rfl, endsToo⟩ | ⟨hw, endsToo⟩
  · obtain rfl := Option.some.inj (hm.symm.trans hl)
    obtain rfl := GrammaticalTree.bodyEndsAt_unique hn ends endsToo
    obtain rfl := GrammaticalTree.startsAt_unique hn hs hr
    rfl
  · exact absurd hw.jump (by simp [loopJump?_of_loop? hl])
  · exact absurd hx.jump (by simp [loopJump?_of_loop? hm])
  · obtain rfl := GrammaticalTree.endedBy_unique hn ends endsToo
    have turned := CodePath.turnedBy_of_binds hn hp hL hl hx ends alive hs
    have turnedToo := CodePath.turnedBy_of_binds hn hq hM hm hw ends alive hr
    obtain rfl := GrammaticalTree.turnedBy_unique hn turned turnedToo
    rfl

/-- The edges back of all code paths lead back from the places where loops go back. -/
theorem mem_flatMap_loopedEdges_iff :
    e ∈ (CodePath.ofEvents n.events).flatMap (·.loopedEdges) ↔ ∃ y, GoesBack n.events y e := by
  obtain ⟨j, k⟩ := e
  simp only [List.mem_flatMap]
  constructor
  · rintro ⟨p, hp, hmem⟩
    obtain ⟨L, s, target, hruns, ⟨alive, ⟨l, hl, hs⟩, y, turns⟩, rfl, rfl⟩ :=
      (CodePath.mem_loopedEdges_iff hn hp).1 hmem
    exact ⟨y, p, hp, L, l, s, target, hruns, hl, turns, alive, hs, rfl⟩
  · rintro ⟨y, p, hp, L, l, s, target, hruns, hl, turns, alive, hs, same⟩
    obtain ⟨rfl, rfl⟩ := Prod.mk.inj same
    exact ⟨p, hp, (CodePath.mem_loopedEdges_iff hn hp).2
      ⟨L, s, target, hruns, ⟨alive, ⟨l, hl, hs⟩, y, turns⟩, rfl, rfl⟩⟩

theorem mem_nodes_of_reachedContinue (h : ReachedContinue n.events y) : y ∈ t.nodes := by
  obtain ⟨p, hp, L, l, -, hruns, hl, ⟨-, c, hc, part⟩, -, -⟩ := h
  have hL := CodePath.mem_nodes_of_runs hn hp hruns
  have child := Tree.mem_nodes_of_mem_children hL (body_subset_children hl hc)
  exact Tree.mem_nodes_trans child (mem_preorder_of_partOf part (t.isGrammatical_of_mem child))

theorem mem_nodes_of_reachedEnd (h : ReachedEnd n.events y) : y ∈ t.nodes := by
  obtain ⟨p, hp, l, -, hruns, -⟩ := h
  exact CodePath.mem_nodes_of_runs hn hp hruns

/-- The `continue`s and the ends of bodies from which loops go back, each once. -/
theorem exists_places : ∃ continues ends : List Node, continues.Nodup ∧ ends.Nodup ∧
    (∀ x, x ∈ continues ↔ ReachedContinue n.events x) ∧
    (∀ L, L ∈ ends ↔ ReachedEnd n.events L) ∧
    ((CodePath.ofEvents n.events).map (·.loopedEdges.length)).sum =
      continues.length + ends.length := by
  obtain ⟨continues, once, inContinues⟩ := t.exists_listed fun x =>
    mem_nodes_of_reachedContinue (y := x) hn
  obtain ⟨ends, onceToo, inEnds⟩ := t.exists_listed fun x => mem_nodes_of_reachedEnd (y := x) hn
  refine ⟨continues, ends, once, onceToo, inContinues, inEnds, ?_⟩
  have apart : List.Disjoint continues ends := fun x hx hend => by
    obtain ⟨-, -, -, l, -, -, -, ⟨jump, -⟩, -⟩ := (inContinues x).1 hx
    obtain ⟨-, -, m, -, -, hm, -⟩ := (inEnds x).1 hend
    simp [loopJump?_of_loop? hm] at jump
  have member (x : Node) : x ∈ continues ++ ends ↔ ∃ e, GoesBack n.events x e := by
    rw [exists_goesBack_iff hn, List.mem_append, inContinues, inEnds]
  rw [← List.length_flatMap, ← List.length_append]
  refine (length_eq_of_matching (R := GoesBack n.events) (once.append onceToo apart)
    (CodePath.nodup_flatMap_loopedEdges n.events_allowed.1) (fun x hx => ?_) (fun e he => ?_)
    (fun x d e => GoesBack.functional hn) fun x y e => GoesBack.injective hn).symm
  · obtain ⟨e, hback⟩ := (member x).1 hx
    exact ⟨e, (mem_flatMap_loopedEdges_iff hn).2 ⟨x, hback⟩, hback⟩
  · obtain ⟨x, hback⟩ := (mem_flatMap_loopedEdges_iff hn).1 he
    exact ⟨x, (member x).2 ⟨e, hback⟩, hback⟩

end Program

end Node

/-- Jumps bind to the right loop, and none of them is lost. In the graph of each code path every loop
has its edges back and what it leads on to, as `CodePath.Joins` says; there are no looped edges but
those of its loops, and none is there twice. Different places go back along different edges. So the
edges back that an analysis counts are as many as the `continue`s of loops that can be reached and
the ends of bodies that can be reached. -/
theorem CodePath.jumps_bind {t : Tree} {n : Node} (hg : t.root.isGrammatical = true)
    (hn : n ∈ t.nodes) :
    (∀ p ∈ ofEvents n.events,
      (∀ L l, p.owner.Runs (fun _ _ => True) L → L.loop? = some l →
        ∃ first behind, p.Joins n.events L l first behind) ∧
      (∀ j k, (j, k) ∈ p.loopedEdges ↔ ∃ L s target, p.owner.Runs (fun _ _ => True) L ∧
        L.TurnsBack n.events s target ∧ s.id = j ∧ target.id = k) ∧
      p.loopedEdges.Nodup) ∧
    (∀ y z e, Node.GoesBack n.events y e → Node.GoesBack n.events z e → y = z) ∧
    ∀ (c : Subject) (tracker : Tracker), c.analyze n = .ok tracker →
      ∃ continues ends : List Node, continues.Nodup ∧ ends.Nodup ∧
        (∀ x, x ∈ continues ↔ Node.ReachedContinue n.events x) ∧
        (∀ L, L ∈ ends ↔ Node.ReachedEnd n.events L) ∧
        tracker.stats.backEdges = continues.length + ends.length := by
  have mem : n ∈ (GrammaticalTree.mk t hg).nodes := hn
  refine ⟨fun p hp => ⟨fun L l hruns hl => exists_joins mem hp hruns hl,
    fun j k => mem_loopedEdges_iff mem hp, nodup_loopedEdges n.events_allowed.1 hp⟩,
    fun y z e => Node.GoesBack.injective mem, fun c tracker h => ?_⟩
  rw [Subject.backEdges_analyze h]
  exact Node.exists_places mem

namespace Sift

def resuming : Node := .mk 8 none .continueStmt

def leaving : Node := .mk 9 none .breakStmt

def ending : Node := .mk 10 none .breakStmt

def inner : Node :=
  .mk 3 none (.forLoop false (.mk 4 none (.name "part" .store)) (.mk 5 none (.name "parts" .load))
    [.mk 6 none (.ifStmt (.mk 7 none (.name "part" .load)) [resuming] []), leaving] [ending])

def outer : Node := .mk 1 none (.whileLoop (.mk 2 none (.name "more" .load)) [inner] [])

/-- A loop in a loop, each with a jump out of the inner one:

    while more:
        for part in parts:
            if part:
                continue
            break
        else:
            break
-/
def root : Node := .mk 0 none (.module [outer])

def tree : Tree := ⟨root, root.edges, rfl, pairwise_of_strictlyAscending (by cbv)⟩

theorem isGrammatical : tree.root.isGrammatical = true := by cbv

theorem root_mem : root ∈ tree.nodes := root.mem_preorder_self

def subject : Subject := ⟨((Scoping.ofTree tree).toOption).getD ⟨tree, []⟩, none, []⟩

def again : Loop :=
  ⟨.mk 4 none (.name "part" .store),
    [.mk 6 none (.ifStmt (.mk 7 none (.name "part" .load)) [resuming] []), leaving], [ending]⟩

def whole : Loop := ⟨.mk 2 none (.name "more" .load), [inner], []⟩

theorem exists_path : ∃ p ∈ CodePath.ofEvents root.events, p.owner = root := by
  have owners : (CodePath.ofEvents root.events).map (·.owner) = [root] := by cbv
  exact List.mem_map.1 (owners ▸ List.mem_cons_self)

theorem runs_outer : root.Runs (fun _ _ => True) outer :=
  .inside (c := outer) trivial List.mem_cons_self List.mem_cons_self .self

theorem runs_inner : root.Runs (fun _ _ => True) inner :=
  .inside (c := outer) trivial List.mem_cons_self List.mem_cons_self
    (.inside (c := inner) trivial (by simp [outer, Node.inPlace, Node.isFunctionLike,
      Form.isFunctionLike, Node.form, Node.children, Form.children]) List.mem_cons_self .self)

theorem binds_ending : whole.Binds .breakLoop ending :=
  ⟨rfl, inner, List.mem_cons_self, .inside (c := ending)
    (by simp [Node.Unlooped, Node.aroundBody, inner, Node.form])
    (by simp [inner, Node.inPlace, Node.isFunctionLike, Form.isFunctionLike, Node.form,
      Node.children, Form.children]) List.mem_cons_self .self⟩

theorem binds_resuming : again.Binds .continueLoop resuming := by
  refine ⟨rfl, _, List.mem_cons_self, .inside (c := resuming) ?_ ?_ List.mem_cons_self .self⟩
  all_goals simp [Node.Unlooped, Node.aroundBody, Node.inPlace, Node.isFunctionLike,
    Form.isFunctionLike, Node.form, Node.children, Form.children]

end Sift

/-- The `continue` of `sift` leads back to the inner loop, its last `break` out of the outer one, and
two edges back are counted. -/
theorem CodePath.jumps_bind_sift :
    Sift.tree.root.isGrammatical = true ∧ Sift.root ∈ Sift.tree.nodes ∧
    (∃ p ∈ ofEvents Sift.root.events, p.owner = Sift.root ∧
      (∃ first behind, p.Joins Sift.root.events Sift.inner Sift.again first behind ∧
        ∃ s, Event.EndedBy Sift.root.events s Sift.resuming ∧ (s.id, first.id) ∈ p.loopedEdges) ∧
      ∃ first behind, p.Joins Sift.root.events Sift.outer Sift.whole first behind ∧
        ∃ s, Event.EndedBy Sift.root.events s Sift.ending ∧ p.Leads s.id behind.id) ∧
    ∃ tracker, Sift.subject.analyze Sift.root = .ok tracker ∧ tracker.stats.backEdges = 2 ∧
      ∃ continues ends : List Node, Sift.resuming ∈ continues ∧
        (∀ L, L ∈ ends ↔ Node.ReachedEnd Sift.root.events L) ∧
        continues.length + ends.length = 2 := by
  obtain ⟨graphs, -, counts⟩ := jumps_bind Sift.isGrammatical Sift.root_mem
  obtain ⟨p, hp, howner⟩ := Sift.exists_path
  obtain ⟨loops, -, -⟩ := graphs p hp
  rw [howner] at loops
  obtain ⟨first, behind, joins⟩ := loops Sift.inner Sift.again Sift.runs_inner rfl
  obtain ⟨start, after, encloses⟩ := loops Sift.outer Sift.whole Sift.runs_outer rfl
  have resumes : Event.EndedBy Sift.root.events ⟨⟨.ordinal 1, 6⟩, [⟨.ordinal 1, 5⟩], true⟩
      Sift.resuming := ⟨Sift.root.events.take 21, ⟨⟨.ordinal 1, 7⟩, [], false⟩,
    Sift.root.events.drop 23, by cbv, by cbv⟩
  have ends : Event.EndedBy Sift.root.events ⟨⟨.ordinal 1, 11⟩, [⟨.ordinal 1, 4⟩], true⟩
      Sift.ending := ⟨Sift.root.events.take 31, ⟨⟨.ordinal 1, 12⟩, [], false⟩,
    Sift.root.events.drop 33, by cbv, by cbv⟩
  have counted : (Sift.subject.analyze Sift.root).map (·.stats.backEdges) = .ok 2 := by cbv
  obtain ⟨tracker, htracker, two⟩ := exists_ok_of_map counted
  obtain ⟨continues, bodies, -, -, inContinues, inBodies, sum⟩ := counts Sift.subject tracker htracker
  refine ⟨Sift.isGrammatical, Sift.root_mem, ⟨p, hp, howner, ⟨first, behind, joins, _, resumes, ?_⟩,
    start, after, encloses, _, ends, ?_⟩, tracker, htracker, two, continues, bodies, ?_, inBodies,
    sum.symm.trans two⟩
  · exact (joins.back _).2 ⟨_, _, .jump rfl Sift.binds_resuming resumes, rfl, rfl⟩
  · exact (encloses.forth _).2 ⟨_, _, .jump rfl Sift.binds_ending ends, rfl, rfl⟩
  · exact (inContinues _).2 ⟨p, hp, Sift.inner, Sift.again, _, howner ▸ Sift.runs_inner, rfl,
      Sift.binds_resuming, resumes, rfl⟩

end LostUpdate
