import LostUpdate.Proofs.Walk.Jumps

namespace LostUpdate

namespace Loop

open Event

/-- The part after the loop `L` ends in `s`, which runs up to the segment that comes behind the loop,
and in which the last statement of the part is left. -/
structure ElseEndsAt (events : List Event) (L : Node) (l : Loop) (s : Segment) : Prop where
  ended : EndedBy events s L
  last : ∀ x, l.orelse.getLast? = some x → LeftIn events x s

/-- The flow of the loop, without what runs before it once. -/
def flow (l : Loop) : Flow :=
  .loop l.head.flow (.sequence (l.body.map Node.flow)) (.sequence (l.orelse.map Node.flow))

end Loop

namespace Node

open LostUpdate.Flow Walk Event

variable {events done : List Event} {around : Surroundings} {p : Spot} {l : Loop} {x L : Node}
  {k : Jump}

theorem brings_of_isClause (h : x.isClause = false) : x.brings = [x] := by
  simp [brings, h]

theorem isFunctionLike_of_loop? (hl : L.loop? = some l) : L.isFunctionLike = false := by
  cases hform : L.form <;> simp_all [loop?, isFunctionLike, Form.isFunctionLike]

theorem isClause_of_loop? (hl : L.loop? = some l) : L.isClause = false := by
  cases hform : L.form <;> simp_all [loop?, isClause]

theorem loopJump?_of_loop? (hl : L.loop? = some l) : L.loopJump? = none := by
  cases hform : L.form <;> simp_all [loop?, loopJump?]

section Grammatical

variable (h : L.isGrammatical = true)

include h

theorem isClause_of_mem_loop (hl : L.loop? = some l) : ∀ c ∈ L.children, c.isClause = false := by
  intro c hc
  by_contra clause
  obtain ⟨collector, elements, clauses, hn⟩ := exists_comprehension h hc (by simpa using clause)
  simp [loop?, hn] at hl

/-- The flow of a loop: what runs once, if anything does, and then the loop. -/
theorem exists_loopFlow (hl : L.loop? = some l) :
    ∃ f before, f.Walks before ∧
      (∀ around p, L.innerFlow.walk around p = (Flow.seq f l.flow).walk around p) ∧
      (∀ c, c ∈ L.aroundBody ↔ c ∈ before ++ ([l.head] ++ l.orelse)) ∧
      ∀ c, c ∈ L.inPlace ↔ c ∈ before ++ ([l.head] ++ l.body ++ l.orelse) := by
  have plain := isClause_of_mem_loop h hl
  rw [inPlace_of_plain (isFunctionLike_of_loop? hl)]
  cases L with
  | mk i s form =>
    cases form
    case whileLoop test body orelse =>
      obtain rfl : (⟨test, body, orelse⟩ : Loop) = l := Option.some.inj hl
      refine ⟨.idle, [], .idle, fun around p => ?_, fun c => ?_, fun c => ?_⟩
      · rw [innerFlow.eq_def]
        rfl
      · simp [aroundBody, Node.form]
      · simp [children, Node.form, Form.children]
    case forLoop isAsync target iterable body orelse =>
      obtain rfl : (⟨target, body, orelse⟩ : Loop) = l := Option.some.inj hl
      have once : Walks iterable.flow [iterable] :=
        .of_isClause (plain iterable (by simp [children, Node.form, Form.children]))
      refine ⟨_, _, once, fun around p => ?_, fun c => ?_, fun c => ?_⟩
      · rw [innerFlow.eq_def]
        rfl
      · simp [aroundBody, Node.form]
      · simp only [children, Node.form, Form.children, List.mem_cons, List.mem_append,
          List.not_mem_nil, or_false]
        tauto
    all_goals simp [loop?, Node.form] at hl

end Grammatical

theorem startSegment_fst (path : PathId) (previous : List Segment) (p : Spot) :
    (startSegment path previous p).1 = [.segment (startSegment path previous p).2.current] :=
  rfl

/-- Where the walk of a loop starts, its head does. -/
theorem startsAt_loopStart (hevents : done ++ (l.flow.walk around p).1 <+: events) :
    l.StartsAt events (loopStart around p).current := by
  obtain ⟨later, hlater⟩ := hevents
  rw [Loop.flow, walk_loop, walk_flow, startSegment_fst] at hlater
  exact ⟨done, _, hlater.symm.trans (by simp only [List.append_assoc]; rfl)⟩

section Spots

variable (h : At done around p)

include h

theorem bodyEndsAt_loopEnd (hevents : done ++ (l.flow.walk around p).1 <+: events) :
    l.BodyEndsAt events
      (loopEnd around l.head.flow (Flow.sequence (l.body.map flow)) p).current := by
  rw [Loop.flow, walk_loop] at hevents
  refine ⟨fun x hx => ?_, fun empty => ?_⟩
  · exact leftIn_last (at_loopTurn l.head.flow h) hx (List.IsPrefix.trans (by simp) hevents)
  · obtain ⟨later, hlater⟩ := hevents
    have turn : (loopEnd around l.head.flow (Flow.sequence (l.body.map flow)) p).current =
        (startSegment around.path [(loopFork around l.head.flow p).current]
          (loopFork around l.head.flow p)).2.current := by
      rw [empty]
      rfl
    rw [walk_flow, startSegment_fst around.path _ (loopFork around l.head.flow p)] at hlater
    rw [turn]
    exact ⟨done ++ (startSegment around.path [p.current] p).1 ++
      .enter l.head :: (l.head.innerFlow.walk around (loopStart around p)).1, _,
      hlater.symm.trans (by simp only [List.append_assoc, List.cons_append, List.nil_append]; rfl)⟩

theorem elseEndsAt_loopElse
    (hevents : done ++ ((l.flow.walk around p).1 ++ [.exit L]) <+: events) :
    l.ElseEndsAt events L (loopElse around l.head.flow (Flow.sequence (l.body.map flow))
      (Flow.sequence (l.orelse.map flow)) p).current := by
  rw [Loop.flow, walk_loop] at hevents
  have exit := at_loopExit l.head.flow (Flow.sequence (l.body.map flow)) h
  refine ⟨?_, fun x hx => leftIn_last exit hx (List.IsPrefix.trans (by simp) hevents)⟩
  obtain ⟨later, hlater⟩ := hevents
  have ended := exit.walk (Flow.sequence (l.orelse.map flow))
  refine ⟨_, (loopAfter around l.head.flow (Flow.sequence (l.body.map flow))
    (Flow.sequence (l.orelse.map flow)) p).current, later, ?_, ended.segment?⟩
  rw [← hlater]
  simp only [List.append_assoc, List.cons_append, List.nil_append]
  rfl

end Spots

theorem binds_iff_loose (hplain : ∀ c ∈ l.body, c.isClause = false) :
    l.Binds k x ↔ Loose l.body k x := by
  have same : (∃ c ∈ l.body, PartOf Unlooped x c) ↔ Placed Unlooped l.body x :=
    exists_congr fun c => and_congr_right fun hc => by simp [brings_of_isClause (hplain c hc)]
  exact ⟨fun ⟨hj, part⟩ => ⟨hj, same.1 part⟩, fun ⟨hj, placed⟩ => ⟨hj, same.2 placed⟩⟩

end Node

namespace Walk

open Node LostUpdate.Flow Event

variable {events done : List Event} {around : Surroundings} {p : Spot} {l : Loop} {L : Node}
  {s t : Segment}

/-- The parts of a loop with their jumps. -/
structure CatchesLoop (events : List Event) (around : Surroundings) (l : Loop) (p : Spot) :
    Prop where
  head : Catches events around [l.head] (loopStart around p)
    (l.head.flow.walk around (loopStart around p)).1 (loopFork around l.head.flow p)
  body : Catches events (insideLoop around p) l.body (loopTurn around l.head.flow p)
    ((sequence (l.body.map Node.flow)).walk (insideLoop around p)
      (loopTurn around l.head.flow p)).1
    (loopEnd around l.head.flow (sequence (l.body.map Node.flow)) p)
  orelse : Catches events around l.orelse
    (loopExit around l.head.flow (sequence (l.body.map Node.flow)) p)
    ((sequence (l.orelse.map Node.flow)).walk around
      (loopExit around l.head.flow (sequence (l.body.map Node.flow)) p)).1
    (loopElse around l.head.flow (sequence (l.body.map Node.flow))
      (sequence (l.orelse.map Node.flow)) p)

theorem mem_own_goBack {target : Segment} : .backEdge s t ∈ own 0 (goBack target p).1 ↔
    s.isReachable = true ∧ t = target ∧ s = p.current := by
  unfold goBack
  split_ifs with alive
  · simp only [own, List.mem_singleton, Event.backEdge.injEq]
    exact ⟨fun ⟨hs, ht⟩ => ⟨hs ▸ alive, ht, hs⟩, fun ⟨_, ht, hs⟩ => ⟨hs, ht⟩⟩
  · simp only [own, List.not_mem_nil, false_iff]
    rintro ⟨reachable, -, rfl⟩
    exact alive reachable

/-- An edge back in a loop is one of its parts, or leads from the end of the body to the head. -/
theorem mem_own_loop : .backEdge s t ∈ own 0 (l.flow.walk around p).1 ↔
    .backEdge s t ∈ own 0 (l.head.flow.walk around (loopStart around p)).1 ∨
    .backEdge s t ∈ own 0 ((sequence (l.body.map Node.flow)).walk (insideLoop around p)
      (loopTurn around l.head.flow p)).1 ∨
    (s.isReachable = true ∧ t = (loopStart around p).current ∧
      s = (loopEnd around l.head.flow (sequence (l.body.map Node.flow)) p).current) ∨
    .backEdge s t ∈ own 0 ((sequence (l.orelse.map Node.flow)).walk around
      (loopExit around l.head.flow (sequence (l.body.map Node.flow)) p)).1 := by
  have quiet (path : PathId) (previous : List Segment) (q : Spot) :
      .backEdge s t ∉ own 0 (startSegment path previous q).1 := by
    simp [startSegment, own]
  rw [Loop.flow, own_walk_loop]
  simp only [List.mem_append, quiet, mem_own_goBack, false_or, or_false]

namespace CatchesLoop

theorem broken (h : CatchesLoop events around l p) :
    s ∈ ((l.flow.walk around p).2).broken ↔
      s ∈ p.broken ∨ ∃ x, Loose ([l.head] ++ l.orelse) .breakLoop x ∧ EndedBy events s x := by
  have inElse := h.orelse.broken s
  have inHead := h.head.broken s
  change s ∈ (loopElse _ _ _ _ _).broken ↔ _
  rw [inElse]
  change s ∈ (loopFork _ _ _).broken ∨ _ ↔ _
  rw [inHead, or_assoc]
  refine or_congr_right ?_
  simp only [loose_append, or_and_right, exists_or]

theorem back (h : CatchesLoop events around l p) :
    .backEdge s t ∈ own 0 (l.flow.walk around p).1 ↔
      (s.isReachable = true ∧ around.continuation = some t ∧
        ∃ x, Loose ([l.head] ++ l.orelse) .continueLoop x ∧ EndedBy events s x) ∨
      (∃ M, Placed (fun _ _ => True) ([l.head] ++ l.body ++ l.orelse) M ∧
        M.TurnsBack events s t) ∨
      (s.isReachable = true ∧ t = (loopStart around p).current ∧
        (s = (loopEnd around l.head.flow (sequence (l.body.map Node.flow)) p).current ∨
          ∃ x, Loose l.body .continueLoop x ∧ EndedBy events s x)) := by
  have target : (insideLoop around p).continuation = some t ↔ t = (loopStart around p).current := by
    simp [insideLoop, eq_comm]
  have regroup (A C T E K₁ K₂ K₃ M₁ M₂ M₃ : Prop) :
      (A ∧ C ∧ K₁ ∨ M₁) ∨ (A ∧ T ∧ K₂ ∨ M₂) ∨ (A ∧ T ∧ E) ∨ (A ∧ C ∧ K₃ ∨ M₃) ↔
        A ∧ C ∧ (K₁ ∨ K₃) ∨ ((M₁ ∨ M₂) ∨ M₃) ∨ A ∧ T ∧ (E ∨ K₂) := by
    grind
  rw [mem_own_loop, h.head.back, h.body.back, h.orelse.back, target, regroup]
  simp only [loose_append, placed_append, or_and_right, exists_or]

theorem ended (h : CatchesLoop events around l p) {k : Jump} {x : Node}
    (hx : Loose ([l.head] ++ l.orelse) k x) : ∃ s, Jumps events around k x s ∧
      s.id.number < ((l.flow.walk around p).2).segments := by
  have turn : (loopFork around l.head.flow p).segments + 1 ≤
      (loopEnd around l.head.flow (sequence (l.body.map Node.flow)) p).segments :=
    h.body.moves.segments
  have rest : (loopEnd around l.head.flow (sequence (l.body.map Node.flow)) p).segments + 1 ≤
      (loopElse around l.head.flow (sequence (l.body.map Node.flow))
        (sequence (l.orelse.map Node.flow)) p).segments :=
    h.orelse.moves.segments
  have after : ((l.flow.walk around p).2).segments = (loopElse around l.head.flow
      (sequence (l.body.map Node.flow)) (sequence (l.orelse.map Node.flow)) p).segments + 1 :=
    rfl
  rcases loose_append.1 hx with hx | hx
  · obtain ⟨s, jumps, lower⟩ := h.head.ended k x hx
    exact ⟨s, jumps, by omega⟩
  · obtain ⟨s, jumps, lower⟩ := h.orelse.ended k x hx
    exact ⟨s, jumps, by omega⟩

end CatchesLoop

theorem catchesIn_row {row : List Node} (h : ∀ c ∈ row, CatchesIn events [c] c.flow) :
    CatchesIn events row (sequence (row.map Node.flow)) := by
  induction row with
  | nil => exact Walks.idle.catchesIn (by simp)
  | cons c row ih =>
    exact (h c List.mem_cons_self).seq (ih fun d hd => h d (List.mem_cons_of_mem _ hd))

theorem catchesLoop (hl : ∀ c ∈ [l.head] ++ l.body ++ l.orelse, CatchesIn events [c] c.flow)
    (here : At done around p) (hevents : done ++ (l.flow.walk around p).1 <+: events) :
    CatchesLoop events around l p := by
  simp only [List.forall_mem_append] at hl
  obtain ⟨⟨inHead, inBody⟩, inElse⟩ := hl
  rw [Loop.flow, walk_loop] at hevents
  refine ⟨inHead _ List.mem_cons_self (at_loopStart here) (List.IsPrefix.trans (by simp) hevents),
    catchesIn_row inBody (at_loopTurn l.head.flow here) (List.IsPrefix.trans (by simp) hevents),
    catchesIn_row inElse (at_loopExit l.head.flow _ here) (List.IsPrefix.trans (by simp) hevents)⟩

/-- The edges back of a loop, at the spot where it is walked. -/
theorem turnsBack_iff {t : GrammaticalTree} {n : Node} {s r : Segment} (hn : n ∈ t.nodes)
    (hl : L.loop? = some l) (hplain : ∀ c ∈ l.body, c.isClause = false)
    (here : At done around p) (hevents : done ++ (l.flow.walk around p).1 <+: n.events) :
    L.TurnsBack n.events s r ↔
      s.isReachable = true ∧ r = (loopStart around p).current ∧
        (s = (loopEnd around l.head.flow (sequence (l.body.map Node.flow)) p).current ∨
          ∃ x, Loose l.body .continueLoop x ∧ EndedBy n.events s x) := by
  have start := startsAt_loopStart hevents
  have ended := bodyEndsAt_loopEnd here hevents
  constructor
  · rintro ⟨alive, ⟨l', hl', starts⟩, y, turns⟩
    obtain rfl : l = l' := Option.some.inj (hl.symm.trans hl')
    refine ⟨alive, GrammaticalTree.startsAt_unique hn starts start, ?_⟩
    rcases (turnsAt_iff hl).1 turns with ⟨-, hs⟩ | ⟨hx, hs⟩
    · exact .inl (GrammaticalTree.bodyEndsAt_unique hn hs ended)
    · exact .inr ⟨y, (binds_iff_loose hplain).1 hx, hs⟩
  · rintro ⟨alive, rfl, rfl | ⟨x, hx, hs⟩⟩
    · exact ⟨alive, ⟨l, hl, start⟩, L, .bodyEnd hl ended⟩
    · exact ⟨alive, ⟨l, hl, start⟩, x, .jump hl ((binds_iff_loose hplain).2 hx) hs⟩

end Walk

namespace Node

open LostUpdate.Flow Walk Event

variable {events done now : List Event} {around : Surroundings} {p q : Spot} {l : Loop}
  {n c x : Node} {k : Jump} {s t : Segment}

theorem mem_inPlace_of_aroundBody (hc : c ∈ n.aroundBody) : c ∈ n.inPlace := by
  cases n with
  | mk i sp form =>
    cases form
    case whileLoop | forLoop =>
      rw [inPlace_of_plain rfl]
      simp only [aroundBody, Node.form, children, Form.children, List.mem_cons,
        List.mem_append] at hc ⊢
      tauto
    all_goals exact hc

/-- What runs with a node: the node itself, unless it is a clause, and what runs with its parts. -/
theorem placed_singleton {passes : Node → Node → Prop} (h : n.isGrammatical = true)
    (hpasses : n.isClause = true → ∀ c ∈ n.inPlace, passes n c) :
    Placed passes [n] x ↔ (x = n ∧ n.isClause = false) ∨
      ∃ c ∈ n.inPlace, passes n c ∧ ∃ d ∈ c.brings, PartOf passes x d := by
  simp only [Placed, List.mem_singleton, exists_eq_left]
  by_cases hclause : n.isClause = true
  · obtain ⟨target, iterable, conditions, isAsync, hn⟩ :=
      exists_clause (isClause_eq_true_iff.1 hclause)
    have hf : n.isFunctionLike = false := by simp [isFunctionLike, hn, Form.isFunctionLike]
    have plain := isClause_of_field h (k := .expression) (l := target :: iterable :: conditions)
      (by simp [hn, Form.fields]) (by simp)
    have below : n.children = target :: iterable :: conditions := by simp [children, hn, Form.children]
    rw [inPlace_of_plain hf, below] at hpasses ⊢
    simp only [brings, hclause, if_true, below, reduceCtorEq, and_false, false_or]
    refine exists_congr fun c => and_congr_right fun hc => ?_
    simp [plain c hc, hpasses hclause c hc]
  · have alone : n.brings = [n] := brings_of_isClause (by simpa using hclause)
    simp only [alone, List.mem_singleton, exists_eq_left]
    rw [partOf_iff]
    simp [hclause]

theorem aroundBody_of_loop?_eq_none (h : n.loop? = none) : n.aroundBody = n.inPlace := by
  cases n with
  | mk i sp form =>
    cases form
    case whileLoop | forLoop => simp [loop?, Node.form] at h
    all_goals rfl

theorem loose_singleton (h : n.isGrammatical = true) (hjump : n.loopJump? = none) :
    Loose [n] k x ↔ Loose n.aroundBody k x := by
  have placed : Placed Unlooped [n] x ↔ (x = n ∧ n.isClause = false) ∨
      ∃ c ∈ n.inPlace, Unlooped n c ∧ ∃ d ∈ c.brings, PartOf Unlooped x d := by
    refine placed_singleton h fun hclause c hc => ?_
    have hloop : n.loop? = none := by
      by_contra some
      obtain ⟨l, hl⟩ := Option.ne_none_iff_exists'.1 some
      simp [isClause_of_loop? hl] at hclause
    rwa [Unlooped, aroundBody_of_loop?_eq_none hloop]
  constructor
  · rintro ⟨hx, hplaced⟩
    rcases placed.1 hplaced with ⟨rfl, -⟩ | ⟨c, -, hc, rest⟩
    · simp [hjump] at hx
    · exact ⟨hx, c, hc, rest⟩
  · rintro ⟨hx, c, hc, rest⟩
    exact ⟨hx, placed.2 (.inr ⟨c, mem_inPlace_of_aroundBody hc, hc, rest⟩)⟩

theorem placed_loop (h : n.isGrammatical = true) (hx : x.loop? ≠ none) :
    Placed (fun _ _ => True) [n] x ↔ x = n ∨ Placed (fun _ _ => True) n.inPlace x := by
  rw [placed_singleton h fun _ _ _ => trivial]
  refine or_congr ⟨And.left, ?_⟩ (by simp [Placed])
  rintro rfl
  obtain ⟨l, hl⟩ := Option.ne_none_iff_exists'.1 hx
  exact ⟨rfl, isClause_of_loop? hl⟩

theorem loop?_of_turnsBack (h : x.TurnsBack events s t) : x.loop? ≠ none := by
  obtain ⟨l, hl, -⟩ := h.start
  simp [hl]

/-- What a node that is no loop and no jump does with the jumps of its parts. -/
theorem catches_of_parts (h : n.isGrammatical = true) (hloop : n.loop? = none)
    (hjump : n.loopJump? = none) (hc : Catches events around n.inPlace p now q) :
    Catches events around [n] p now q := by
  have loose (k : Jump) (x : Node) : Loose [n] k x ↔ Loose n.inPlace k x := by
    rw [loose_singleton h hjump, aroundBody_of_loop?_eq_none hloop]
  have loops (s t : Segment) : (∃ L, Placed (fun _ _ => True) [n] L ∧ L.TurnsBack events s t) ↔
      ∃ L, Placed (fun _ _ => True) n.inPlace L ∧ L.TurnsBack events s t := by
    refine exists_congr fun L => and_congr_left fun turns => ?_
    rw [placed_loop h (loop?_of_turnsBack turns), or_iff_right]
    rintro rfl
    exact loop?_of_turnsBack turns hloop
  refine ⟨hc.moves, fun s => ?_, fun s t => ?_, fun k x hx => hc.ended k x ((loose k x).1 hx)⟩
  · simpa only [loose] using hc.broken s
  · simpa only [loose, loops] using hc.back s t

theorem mem_own_flow : .backEdge s t ∈ own 0 (n.flow.walk around p).1 ↔
    .backEdge s t ∈ own 0 (n.innerFlow.walk around p).1 := by
  have enter := (walk_moves around (.enter n) p).level (walk around n.innerFlow p).1
  rw [walk_flow, ← List.cons_append, ← List.singleton_append]
  change _ ∈ own 0 ((walk around (.enter n) p).1 ++ (walk around n.innerFlow p).1 ++
    [Event.exit n]) ↔ _
  rw [((walk_moves around (.enter n) p).trans (walk_moves around n.innerFlow _)).level, enter]
  simp [walk, emit, own]

section Program

variable {t : GrammaticalTree} {m L : Node}

theorem catchesIn_loop (hm : m ∈ t.nodes)
    (h : L.isGrammatical = true) (hl : L.loop? = some l)
    (ih : ∀ c ∈ L.inPlace, CatchesIn m.events [c] c.flow) : CatchesIn m.events [L] L.flow := by
  obtain ⟨f, before, walks, same, around_iff, place_iff⟩ := exists_loopFlow h hl
  have plain := isClause_of_mem_loop h hl
  rw [← inPlace_of_plain (isFunctionLike_of_loop? hl)] at plain
  intro done around p here hevents
  obtain ⟨inBefore, inLoop⟩ : (∀ c ∈ before, c ∈ L.inPlace) ∧
      ∀ c ∈ [l.head] ++ l.body ++ l.orelse, c ∈ L.inPlace :=
    List.forall_mem_append.1 fun c hc => (place_iff c).2 hc
  let q := (walk around f p).2
  have inner : L.innerFlow.walk around p =
      ((walk around f p).1 ++ (walk around l.flow q).1, (walk around l.flow q).2) := same around p
  rw [walk_flow, inner] at hevents
  have entered : At (done ++ [.enter L]) around p := here.walk (.enter L)
  have once : Catches m.events around before p (walk around f p).1 q := by
    refine walks.catchesIn (fun c hc => ?_) entered (List.IsPrefix.trans (by simp) hevents)
    rw [placedFlow, if_neg (by simp [plain c (inBefore c hc)])]
    exact ih c (inBefore c hc)
  have spot := entered.walk f
  have within : done ++ [.enter L] ++ (walk around f p).1 ++ (walk around l.flow q).1 <+:
      m.events :=
    List.IsPrefix.trans (by simp) hevents
  have looped : CatchesLoop m.events around l q :=
    catchesLoop (fun c hc => ih c (inLoop c hc)) spot within
  have loose (k : Jump) (x : Node) :
      Loose [L] k x ↔ Loose before k x ∨ Loose ([l.head] ++ l.orelse) k x := by
    rw [loose_singleton h (loopJump?_of_loop? hl), loose_congr around_iff, loose_append]
  have loops (s t : Segment) :
      (∃ M, Placed (fun _ _ => True) [L] M ∧ M.TurnsBack m.events s t) ↔
        L.TurnsBack m.events s t ∨
        (∃ M, Placed (fun _ _ => True) before M ∧ M.TurnsBack m.events s t) ∨
        ∃ M, Placed (fun _ _ => True) ([l.head] ++ l.body ++ l.orelse) M ∧
          M.TurnsBack m.events s t := by
    have split (M : Node) (hM : M.TurnsBack m.events s t) :
        Placed (fun _ _ => True) [L] M ↔ M = L ∨ Placed (fun _ _ => True) before M ∨
          Placed (fun _ _ => True) ([l.head] ++ l.body ++ l.orelse) M := by
      rw [placed_loop h (loop?_of_turnsBack hM), placed_congr place_iff, placed_append]
    rw [exists_congr fun M => and_congr_left (split M)]
    simp only [or_and_right, exists_or, exists_eq_left]
  have turns (s r : Segment) := turnsBack_iff (s := s) (r := r) hm hl
    (fun c hc => plain c (inLoop c (by simp [hc]))) spot within
  have last : (walk around L.flow p).2 = (walk around l.flow q).2 := by rw [walk_flow, inner]
  refine ⟨walk_moves around L.flow p, fun s => ?_, fun s t => ?_, fun k x hx => ?_⟩
  · rw [last, looped.broken, once.broken, or_assoc]
    simp only [loose, or_and_right, exists_or]
  · have regroup (A C K₁ K₂ M₁ M₂ B : Prop) :
        (A ∧ C ∧ K₁ ∨ M₁) ∨ (A ∧ C ∧ K₂ ∨ M₂ ∨ B) ↔ A ∧ C ∧ (K₁ ∨ K₂) ∨ B ∨ M₁ ∨ M₂ := by
      grind
    rw [mem_own_flow, inner, once.moves.level, List.mem_append, once.back, looped.back, ← turns,
      regroup, loops]
    simp only [loose, or_and_right, exists_or]
  · rw [last]
    rcases (loose k x).1 hx with hx | hx
    · obtain ⟨s, jumps, lower⟩ := once.ended k x hx
      exact ⟨s, jumps, Nat.lt_of_lt_of_le lower (walk_moves around l.flow q).segments⟩
    · exact looped.ended hx

/-- A jump for the loop around has no parts. -/
theorem innerFlow_of_loopJump? (hx : x.loopJump? = some k) : x.innerFlow = .jump k ∧
    x.inPlace = [] ∧ x.loop? = none ∧ x.isClause = false ∧ (k = .breakLoop ∨ k = .continueLoop) := by
  cases x with
  | mk i sp form =>
    rw [innerFlow.eq_def]
    cases form
    case breakStmt =>
      obtain rfl : Jump.breakLoop = k := Option.some.inj hx
      exact ⟨rfl, rfl, rfl, rfl, .inl rfl⟩
    case continueStmt =>
      obtain rfl : Jump.continueLoop = k := Option.some.inj hx
      exact ⟨rfl, rfl, rfl, rfl, .inr rfl⟩
    all_goals cases hx

theorem endedBy_loopJump (hx : x.loopJump? = some k) (here : At done around p)
    (hevents : done ++ (x.flow.walk around p).1 <+: events) : EndedBy events p.current x := by
  obtain ⟨inner, -, -, -, hk⟩ := innerFlow_of_loopJump? hx
  have entered : At (done ++ [.enter x]) around p := here.walk (.enter x)
  let dead := (startSegment around.path [] p).2.current
  rw [walk_flow, inner] at hevents
  obtain ⟨later, rfl⟩ := hevents
  rcases hk with rfl | rfl
  · exact ⟨_, dead, later, by simp [walk, leave, startSegment, dead], entered.segment?⟩
  · cases hc : around.continuation with
    | none =>
      exact ⟨_, dead, later, by simp [walk, leave, startSegment, dead, hc], entered.segment?⟩
    | some target =>
      exact ⟨_, dead, later, by simp [walk, leave, startSegment, dead, hc, andThen, goBack],
        (entered.goBack hc).segment?⟩

/-- Where a `continue` is walked, it leads back to the loop around, if there is a way to it. -/
theorem turnedBy_loopJump (hx : x.loopJump? = some k) (hk : k = .continueLoop)
    (hevents : done ++ (x.flow.walk around p).1 <+: events) (alive : p.current.isReachable = true)
    (target : Segment) (ht : around.continuation = some target) : TurnedBy events target x := by
  subst hk
  obtain ⟨inner, -⟩ := innerFlow_of_loopJump? hx
  rw [walk_flow, inner] at hevents
  obtain ⟨later, rfl⟩ := hevents
  let dead := (startSegment around.path [] p).2.current
  exact ⟨done ++ [.enter x], p.current, dead, later,
    by simp [walk, leave, ht, startSegment, dead, andThen, goBack, alive]⟩

/-- A `break` is kept in mind, and a `continue` leads back, if there is a way to it. -/
theorem catchesIn_jump (hm : m ∈ t.nodes)
    (hx : x.loopJump? = some k) : CatchesIn m.events [x] x.flow := by
  intro done around p here hevents
  obtain ⟨inner, hparts, hloop, hclause, hk⟩ := innerFlow_of_loopJump? hx
  have ended := endedBy_loopJump hx here hevents
  have placed {passes : Node → Node → Prop} {y : Node} : Placed passes [x] y ↔ y = x := by
    simp [Placed, brings_of_isClause hclause, partOf_iff (n := x), hparts]
  have loose {j : Jump} {y : Node} : Loose [x] j y ↔ j = k ∧ y = x := by
    constructor
    · rintro ⟨hy, hplaced⟩
      obtain rfl := placed.1 hplaced
      exact ⟨Option.some.inj (hy.symm.trans hx), rfl⟩
    · rintro ⟨rfl, rfl⟩
      exact ⟨hx, placed.2 rfl⟩
  have once {s : Segment} : EndedBy m.events s x ↔ s = p.current :=
    ⟨fun hs => GrammaticalTree.endedBy_unique hm hs ended, fun same => same ▸ ended⟩
  have loops {s target : Segment} : ¬ ∃ L, Placed (fun _ _ => True) [x] L ∧
      L.TurnsBack m.events s target := by
    rintro ⟨L, hL, turns⟩
    obtain rfl := placed.1 hL
    exact loop?_of_turnsBack turns hloop
  have number : (x.flow.walk around p).2.segments = p.segments + 1 := by
    rw [walk_flow, inner]
    rcases hk with rfl | rfl
    · rfl
    · cases hc : around.continuation <;> simp [walk, leave, hc, startSegment, andThen, goBack]
  refine ⟨walk_moves around x.flow p, fun s => ?_, fun s target => ?_, fun j y hy => ?_⟩
  · simp only [loose, and_assoc, exists_and_left, exists_eq_left, once]
    rw [walk_flow, inner]
    rcases hk with rfl | rfl
    · simp [walk, leave, startSegment]
    · cases hc : around.continuation <;> simp [walk, leave, hc, startSegment, andThen, goBack]
  · rw [or_iff_left loops, mem_own_flow, inner]
    simp only [loose, and_assoc, exists_and_left, exists_eq_left, once]
    rcases hk with rfl | rfl
    · simp [walk, leave, startSegment, own]
    · cases hc : around.continuation with
      | none => simp [walk, leave, hc, startSegment, own]
      | some next =>
        simp only [walk, leave, hc, andThen]
        rw [(goBack_moves next p).level, List.mem_append, mem_own_goBack]
        simp [startSegment, own, eq_comm (a := next)]
  · obtain ⟨rfl, rfl⟩ := loose.1 hy
    rw [number]
    exact ⟨p.current, ⟨ended, congrArg SegmentId.path here.current_id, fun hk =>
      turnedBy_loopJump hx hk hevents⟩,
      Nat.lt_succ_of_le (Nat.le_of_eq (congrArg SegmentId.number here.current_id))⟩

theorem catchesIn_placedFlow (hm : m ∈ t.nodes) (h : n.isGrammatical = true) :
    CatchesIn m.events [n] n.placedFlow := by
  induction n, h using induct_parts with
  | step n h ih =>
    have part {c : Node} (hc : c ∈ n.inPlace) : CatchesIn m.events [c] c.placedFlow :=
      ih c (List.mem_append_left _ hc)
    cases hloop : n.loop? with
    | some l =>
      have plain := isClause_of_mem_loop h hloop
      rw [← inPlace_of_plain (isFunctionLike_of_loop? hloop)] at plain
      rw [placedFlow, if_neg (by simp [isClause_of_loop? hloop])]
      refine catchesIn_loop hm h hloop fun c hc => ?_
      have placed := part hc
      rwa [placedFlow, if_neg (by simp [plain c hc])] at placed
    | none =>
      cases hjump : n.loopJump? with
      | some k =>
        have plain : n.isClause = false := by
          cases hform : n.form <;> simp_all [loopJump?, isClause]
        rw [placedFlow, if_neg (by simp [plain])]
        exact catchesIn_jump hm hjump
      | none =>
        obtain ⟨f, hf, walks⟩ := exists_placedFlow h hloop hjump
        rw [hf]
        have framed := (Walks.enter n).seq (walks.seq (.exit n))
        rw [List.nil_append, List.append_nil] at framed
        exact fun _ _ _ here hevents => catches_of_parts h hloop hjump
          (framed.catchesIn (fun c hc => part hc) here hevents)

end Program

end Node

end LostUpdate
