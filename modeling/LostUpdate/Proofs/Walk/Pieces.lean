import LostUpdate.Proofs.Walk.Coverage

namespace LostUpdate

/-- `g` is a piece of a flow, inside the code of `around` when the flow is inside that of `owners`. -/
inductive Flow.Piece (around : List Node) (g : Flow) : List Node → Flow → Prop
  | self : Piece around g around g
  | first {owners f e} : Piece around g owners f → Piece around g owners (.seq f e)
  | second {owners f e} : Piece around g owners e → Piece around g owners (.seq f e)
  | arm {owners f arms fallsThrough} : f ∈ arms → Piece around g owners f →
      Piece around g owners (.choose fallsThrough arms)
  | link {owners f arms} : f ∈ arms → Piece around g owners f → Piece around g owners (.chain arms)
  | head {owners head body orelse} : Piece around g owners head →
      Piece around g owners (.loop head body orelse)
  | turn {owners head body orelse} : Piece around g owners body →
      Piece around g owners (.loop head body orelse)
  | leaving {owners head body orelse} : Piece around g owners orelse →
      Piece around g owners (.loop head body orelse)
  | attempted {owners body handlers orelse final} : Piece around g owners body →
      Piece around g owners (.attempt body handlers orelse final)
  | handler {owners f body handlers orelse final} : f ∈ handlers → Piece around g owners f →
      Piece around g owners (.attempt body handlers orelse final)
  | succeeded {owners body handlers orelse final} : Piece around g owners orelse →
      Piece around g owners (.attempt body handlers orelse final)
  | final {owners body handlers orelse final} : Piece around g owners final →
      Piece around g owners (.attempt body handlers orelse (some final))
  | inside {owners owner body} : Piece around g (owner :: owners) body →
      Piece around g owners (.codePath owner body)

/-- `P` holds of a flow if it holds of one of its parts. Nothing is said of attempts. -/
structure Flow.Rises (P : Flow → Prop) : Prop where
  first {f e : Flow} (h : P f) : P (.seq f e)
  second {f e : Flow} (h : P e) : P (.seq f e)
  arm {f : Flow} {arms : List Flow} {fallsThrough : Bool} (hf : f ∈ arms) (h : P f) :
    P (.choose fallsThrough arms)
  link {f : Flow} {arms : List Flow} (hf : f ∈ arms) (h : P f) : P (.chain arms)
  head {head body orelse : Flow} (h : P head) : P (.loop head body orelse)
  turn {head body orelse : Flow} (h : P body) : P (.loop head body orelse)
  leaving {head body orelse : Flow} (h : P orelse) : P (.loop head body orelse)

theorem Flow.Rises.sequence {P : Flow → Prop} (hP : Rises P) {f : Flow} {l : List Flow}
    (hf : f ∈ l) (h : P f) : P (.sequence l) := by
  induction l with
  | nil => simp at hf
  | cons e l ih =>
    rcases List.mem_cons.1 hf with rfl | hf
    · exact hP.first h
    · exact hP.second (ih hf)

namespace Flow.Piece

variable {around owners : List Node} {g f : Flow}

theorem trans {inner : List Node} {e : Flow} (h : Piece around g owners f)
    (he : Piece inner e around g) : Piece inner e owners f := by
  induction h with
  | self => exact he
  | first _ ih => exact .first ih
  | second _ ih => exact .second ih
  | arm hf _ ih => exact .arm hf ih
  | link hf _ ih => exact .link hf ih
  | head _ ih => exact .head ih
  | turn _ ih => exact .turn ih
  | leaving _ ih => exact .leaving ih
  | attempted _ ih => exact .attempted ih
  | handler hf _ ih => exact .handler hf ih
  | succeeded _ ih => exact .succeeded ih
  | final _ ih => exact .final ih
  | inside _ ih => exact .inside ih

theorem rises : Rises (Piece around g owners) :=
  ⟨.first, .second, .arm, .link, .head, .turn, .leaving⟩

theorem visits_attempt (owners : List Node) (body : Flow) (handlers : List Flow) (orelse : Flow)
    (final : Option Flow) : (attempt body handlers orelse final).visits owners =
      body.visits owners ++ (visitsEach owners handlers ++
        (orelse.visits owners ++ final.toList.flatMap (visits owners))) := by
  cases final <;> simp [visits]

theorem visits_block (h : Piece around g owners f) : g.visits around <:+: f.visits owners := by
  have each {f : Flow} {owners : List Node} {arms : List Flow} (hf : f ∈ arms) :
      f.visits owners <:+: visitsEach owners arms := by
    obtain ⟨before, after, rfl⟩ := List.append_of_mem hf
    rw [visitsEach_eq, List.flatMap_append, List.flatMap_cons, ← List.append_assoc]
    exact List.infix_append _ _ _
  induction h with
  | self => exact List.infix_rfl
  | first _ ih => exact ih.trans (List.prefix_append _ _).isInfix
  | second _ ih => exact ih.trans (List.suffix_append _ _).isInfix
  | arm hf _ ih => exact ih.trans (each hf)
  | link hf _ ih => exact ih.trans (each hf)
  | head _ ih =>
    rw [Flow.visits, List.append_assoc]
    exact ih.trans (List.prefix_append _ _).isInfix
  | turn _ ih => exact ih.trans (List.infix_append _ _ _)
  | leaving _ ih => exact ih.trans (List.suffix_append _ _).isInfix
  | attempted _ ih =>
    rw [visits_attempt]
    exact ih.trans (List.prefix_append _ _).isInfix
  | handler hf _ ih =>
    rw [visits_attempt, ← List.append_assoc]
    exact (ih.trans (each hf)).trans (List.infix_append _ _ _)
  | succeeded _ ih =>
    rw [visits_attempt, ← List.append_assoc, ← List.append_assoc]
    exact ih.trans (List.infix_append _ _ _)
  | final _ ih =>
    rw [visits_attempt]
    simp only [Option.toList_some, List.flatMap_cons, List.flatMap_nil, List.append_nil,
      ← List.append_assoc]
    exact ih.trans (List.suffix_append _ _).isInfix
  | inside _ ih => exact ih.trans (List.suffix_cons _ _).isInfix

end Flow.Piece

namespace Flow

/-- The events of walking `g` stand in one block among `events`. -/
def BlockIn (g : Flow) (events : List Event) : Prop :=
  ∃ around p, (g.walk around p).1 <:+: events

theorem BlockIn.mono {g : Flow} {inner events : List Event} (h : g.BlockIn inner)
    (hi : inner <:+: events) : g.BlockIn events := by
  obtain ⟨around, p, hblock⟩ := h
  exact ⟨around, p, hblock.trans hi⟩

theorem walkArms_block {f : Flow} {arms : List Flow} (hf : f ∈ arms) (around : Surroundings)
    (starts : List Segment) (p : Spot) :
    ∃ q, (f.walk around q).1 <:+: (walkArms around starts arms p).1 := by
  induction arms generalizing p with
  | nil => simp at hf
  | cons e arms ih =>
    simp only [walkArms]
    rcases List.mem_cons.1 hf with rfl | hf
    · exact ⟨_, List.infix_append _ _ _⟩
    · obtain ⟨q, hq⟩ := ih hf _
      exact ⟨q, hq.trans (List.suffix_append _ _).isInfix⟩

theorem walkChain_block {f : Flow} {arms : List Flow} (hf : f ∈ arms) (around : Surroundings)
    (p : Spot) : ∃ q, (f.walk around q).1 <:+: (walkChain around arms p).1 := by
  induction arms generalizing p with
  | nil => simp at hf
  | cons e arms ih =>
    simp only [walkChain]
    rcases List.mem_cons.1 hf with rfl | hf
    · exact ⟨_, List.infix_append _ _ _⟩
    · obtain ⟨q, hq⟩ := ih hf _
      exact ⟨q, hq.trans (List.suffix_append _ _).isInfix⟩

theorem infix_append_left {l m : List Event} (r : List Event) (h : l <:+: m) : l <:+: m ++ r :=
  h.trans (List.prefix_append _ _).isInfix

theorem infix_append_right {l m : List Event} (r : List Event) (h : l <:+: m) : l <:+: r ++ m :=
  h.trans (List.suffix_append _ _).isInfix

/-- Wherever a flow is walked, its pieces are. -/
theorem Piece.walk_block {around owners : List Node} {g f : Flow} (h : Piece around g owners f)
    (inside : Surroundings) (p : Spot) : g.BlockIn (f.walk inside p).1 := by
  induction h generalizing inside p with
  | self => exact ⟨inside, p, List.infix_rfl⟩
  | first _ ih => exact (ih inside p).mono (infix_append_left _ List.infix_rfl)
  | second _ ih => exact (ih inside _).mono (infix_append_right _ List.infix_rfl)
  | arm hf _ ih =>
    obtain ⟨q, hq⟩ := walkArms_block hf inside [p.current] p
    exact (ih inside q).mono (infix_append_left _ hq)
  | link hf _ ih =>
    obtain ⟨q, hq⟩ := walkChain_block hf inside p
    exact (ih inside q).mono (infix_append_left _ hq)
  | head _ ih =>
    simp only [walk, List.append_assoc]
    exact (ih inside _).mono (infix_append_right _ (infix_append_left _ List.infix_rfl))
  | turn _ ih =>
    simp only [walk, List.append_assoc]
    refine (ih _ _).mono (infix_append_right _ (infix_append_right _ (infix_append_right _
      (infix_append_left _ List.infix_rfl))))
  | leaving _ ih =>
    simp only [walk]
    exact (ih inside _).mono (infix_append_left _ (infix_append_right _ List.infix_rfl))
  | @attempted _ _ _ _ final _ ih =>
    cases final <;> simp only [walk, List.append_assoc] <;>
      exact (ih inside _).mono (infix_append_right _ (infix_append_left _ List.infix_rfl))
  | @handler _ _ _ _ _ final hf _ ih =>
    cases final <;> simp only [walk, List.append_assoc] <;>
      obtain ⟨q, hq⟩ := walkArms_block hf inside _ _ <;>
      exact (ih inside q).mono (infix_append_right _ (infix_append_right _
        (infix_append_left _ hq)))
  | @succeeded _ _ _ _ final _ ih =>
    cases final <;> simp only [walk] <;>
      exact (ih inside _).mono (infix_append_left _ (infix_append_right _ List.infix_rfl))
  | final _ ih =>
    simp only [walk, Walk.andThen]
    exact (ih inside _).mono (infix_append_right _ (infix_append_right _ List.infix_rfl))
  | inside _ ih =>
    simp only [walk, Walk.ownPath, List.cons_append]
    exact (ih _ _).mono ⟨[_, _], [_], rfl⟩

end Flow

namespace Node

open LostUpdate.Flow

/-- The nodes whose flow a part brings in. A clause has no flow of its own. -/
def brings (n : Node) : List Node := if n.isClause then n.children else [n]

section Rises

variable {P : Flow → Prop} (hP : Rises P)

include hP

theorem rises_flow {n : Node} (h : P n.innerFlow) : P n.flow := by
  rw [flow_eq n]
  exact hP.second (hP.first h)

theorem rises_map {g : Node → Flow} {c : Node} {l : List Node} (hc : c ∈ l) (h : P (g c)) :
    P (sequence (l.map g)) :=
  hP.sequence (List.mem_map_of_mem hc) h

theorem rises_placedFlow {c x : Node} (hx : x ∈ c.brings) (hp : P x.flow) : P c.placedFlow := by
  unfold brings at hx
  split_ifs at hx with hclause
  · obtain ⟨target, iterable, conditions, isAsync, hform⟩ :=
      exists_clause (isClause_eq_true_iff.1 hclause)
    rw [placedFlow, if_pos hclause, clauseFlow_eq hform]
    simp only [children, hform, Form.children, List.mem_cons] at hx
    rcases hx with rfl | rfl | hx
    · exact hP.second (hP.first (hP.second (hP.first hp)))
    · exact hP.second (hP.first (hP.first hp))
    · exact hP.second (hP.first (hP.second (hP.second (rises_map hP hx hp))))
  · obtain rfl := List.mem_singleton.1 hx
    rwa [placedFlow, if_neg hclause]

theorem rises_brings {c x : Node} (hx : x ∈ c.brings) (hp : P x.flow) : P c.flow := by
  by_cases hclause : c.isClause = true
  · obtain ⟨target, iterable, conditions, isAsync, hform⟩ :=
      exists_clause (isClause_eq_true_iff.1 hclause)
    refine rises_flow hP ?_
    rw [innerFlow_clause hform]
    rw [brings, if_pos hclause] at hx
    exact rises_map hP (by simpa [children, hform, Form.children] using hx) hp
  · obtain rfl : x = c := by simpa [brings, hclause] using hx
    exact hp

section Grammatical

variable {n c x : Node} (h : n.isGrammatical = true)

include h

/-- What holds of the flow of a part holds of the flow in which it stands. The parts of a `try` are
left to the one who asks. -/
theorem rises_innerFlow (hf : n.isFunctionLike = false) (hc : c ∈ n.children)
    (hx : x ∈ c.brings) (hp : P x.flow)
    (htry : ∀ isStar body handlers orelse final,
      n.form = .tryStmt isStar body handlers orelse final → P n.innerFlow) : P n.innerFlow := by
  have placed := rises_placedFlow hP hx hp
  have shape := innerFlow_shape h
  generalize n.innerFlow = f at shape htry ⊢
  rw [children] at hc
  cases shape with
  | function hn => simp [hn] at hf
  | row => exact rises_map hP hc placed
  | returnStmt | raiseStmt => exact hP.first (rises_map hP hc placed)
  | breakStmt hn | continueStmt hn | noLinks hn => simp [hn, Form.children] at hc
  | attempt hn | final hn => exact htry _ _ _ _ _ hn
  | entries hn complete =>
    rw [hn] at hc
    exact rises_map hP ((interleave_perm _ _ complete).mem_iff.2 hc) placed
  | @classDef name bases keywords body decorators hn =>
    simp only [hn, Form.children, List.mem_append] at hc
    by_cases hbody : c ∈ body
    · exact hP.second (rises_map hP hbody placed)
    · refine hP.first (rises_map hP ?_ placed)
      simp only [heading, hn, List.mem_append]
      tauto
  | turns hn =>
    simp only [hn, Form.children, List.mem_append] at hc
    rcases hc with hc | hc
    · exact hP.second (rises_map hP hc placed)
    · exact hP.first (rises_map hP hc placed)
  | branch hn =>
    simp only [hn, Form.children, List.mem_cons, List.mem_append] at hc
    rcases hc with rfl | hc | hc
    · exact hP.first placed
    · exact hP.second (hP.arm (by simp) (rises_map hP hc placed))
    · exact hP.second (hP.arm (List.mem_cons_of_mem _ List.mem_cons_self) (rises_map hP hc placed))
  | conditional hn =>
    simp only [hn, Form.children, List.mem_cons, List.not_mem_nil, or_false] at hc
    rcases hc with rfl | rfl | rfl
    · exact hP.first placed
    · exact hP.second (hP.arm (by simp) placed)
    · exact hP.second (hP.arm (List.mem_cons_of_mem _ List.mem_cons_self) placed)
  | links hn =>
    simp only [hn, Form.children, List.mem_cons] at hc
    rcases hc with rfl | hc
    · exact hP.first placed
    · exact hP.second (hP.link (List.mem_map_of_mem hc) placed)
  | cases hn =>
    simp only [hn, Form.children, List.mem_cons] at hc
    rcases hc with rfl | hc
    · exact hP.first placed
    · exact hP.second (hP.arm (List.mem_map_of_mem hc) placed)
  | whileLoop hn =>
    simp only [hn, Form.children, List.mem_cons, List.mem_append] at hc
    rcases hc with rfl | hc | hc
    · exact hP.head placed
    · exact hP.turn (rises_map hP hc placed)
    · exact hP.leaving (rises_map hP hc placed)
  | forLoop hn =>
    simp only [hn, Form.children, List.mem_cons, List.mem_append] at hc
    rcases hc with rfl | rfl | hc | hc
    · exact hP.second (hP.head placed)
    · exact hP.first placed
    · exact hP.second (hP.turn (rises_map hP hc placed))
    · exact hP.second (hP.leaving (rises_map hP hc placed))

theorem rises_bodyFlow (hf : n.isFunctionLike = true) (hc : c ∈ n.ownCode)
    (hx : x ∈ c.brings) (hp : P x.flow) : P n.bodyFlow := by
  have fits := isGrammatical.fits h
  rcases isFunctionLike_cases hf with ⟨isAsync, name, parameters, body, decorators, returns, hn⟩ |
    ⟨parameters, body, hn⟩ | ⟨elements, clauses, hn⟩
  · simp only [ownCode, hn] at hc
    rw [bodyFlow_function hn]
    exact rises_map hP hc (rises_brings hP hx hp)
  · simp only [ownCode, hn, List.mem_singleton] at hc
    subst hc
    rw [bodyFlow_lambda hn]
    exact rises_brings hP hx hp
  · obtain ⟨first, rest, target, iterable, conditions, isAsync, rfl, hfirst⟩ := exists_first h hn
    have hclauses : ∀ q ∈ rest, q.isClause = true := fun q hq => isClause_eq_true_iff.2
      (category_of_fits fits (l := first :: rest) (by simp [hn, Form.fields])
        (List.mem_cons_of_mem _ hq))
    rw [bodyFlow_generator hn, clauseFlow_eq hfirst, if_pos rfl]
    simp only [ownCode, hn, turn, hfirst, List.head?_cons, Option.toList_some, List.tail_cons,
      List.flatMap_cons, List.flatMap_nil, List.append_nil, List.mem_append, List.mem_cons] at hc
    rcases hc with ((rfl | hc) | hc) | hc
    · exact hP.first (hP.first (hP.second (hP.first (hP.second (hP.first
        (rises_brings hP hx hp))))))
    · exact hP.first (hP.first (hP.second (hP.first (hP.second (hP.second
        (rises_map hP hc (rises_brings hP hx hp)))))))
    · have placed := rises_placedFlow hP hx hp
      rw [placedFlow, if_pos (hclauses c hc)] at placed
      exact hP.first (hP.second (rises_map hP hc placed))
    · exact hP.second (rises_map hP hc (rises_brings hP hx hp))

theorem rises_inPlace (hc : c ∈ n.inPlace) (hx : x ∈ c.brings) (hp : P x.flow)
    (htry : ∀ isStar body handlers orelse final,
      n.form = .tryStmt isStar body handlers orelse final → P n.innerFlow) : P n.flow := by
  refine rises_flow hP ?_
  by_cases hf : n.isFunctionLike = true
  · rw [inPlace, if_pos hf] at hc
    rw [innerFlow_functionLike hf]
    exact hP.first (rises_map hP hc (rises_brings hP hx hp))
  · rw [Bool.not_eq_true] at hf
    rw [inPlace_of_plain hf] at hc
    exact rises_innerFlow hP h hf hc hx hp htry

end Grammatical

end Rises

theorem piece_codePath (os : List Node) {n : Node} (hf : n.isFunctionLike = true) :
    Piece os (.codePath n n.bodyFlow) os n.flow := by
  rw [flow_eq n, innerFlow_functionLike hf]
  exact .second (.first (.second .self))

section Grammatical

variable (os : List Node) {owners : List Node} {n c x q : Node} (h : n.isGrammatical = true)

include h

theorem piece_bodyFlow (hf : n.isFunctionLike = true) (hc : c ∈ n.ownCode)
    (hx : x ∈ c.brings) : Piece os x.flow os n.bodyFlow :=
  rises_bodyFlow Piece.rises h hf hc hx .self

theorem piece_inPlace (hc : c ∈ n.inPlace) (hx : x ∈ c.brings) :
    Piece os x.flow os n.flow := by
  refine rises_inPlace Piece.rises h hc hx .self fun isStar body handlers orelse final hn => ?_
  have hf : n.isFunctionLike = false := by simp [isFunctionLike, hn, Form.isFunctionLike]
  rw [inPlace_of_plain hf] at hc
  have piece : Piece os x.flow os c.flow := rises_brings Piece.rises hx .self
  rw [innerFlow_try hn]
  simp only [children, hn, Form.children, List.mem_append] at hc
  rcases hc with ((hc | hc) | hc) | hc
  · exact .attempted (rises_map Piece.rises hc piece)
  · exact .handler (List.mem_map_of_mem hc) piece
  · exact .succeeded (rises_map Piece.rises hc piece)
  · rw [if_neg (by simpa using List.ne_nil_of_mem hc)]
    exact .final (rises_map Piece.rises hc piece)

variable {os}

/-- A part is entered with its own flow or, if it is a clause, with those of its children. -/
theorem exists_brings (hv : (owners, Stop.enter q) ∈ n.flow.visits os) (hq : q.isClause = false) :
    ∃ x ∈ n.brings, x ∈ n.preorder ∧ (owners, Stop.enter q) ∈ x.flow.visits os := by
  by_cases hclause : n.isClause = true
  · obtain ⟨target, iterable, conditions, isAsync, hform⟩ :=
      exists_clause (isClause_eq_true_iff.1 hclause)
    have hf : n.isFunctionLike = false := by simp [isFunctionLike, hform, Form.isFunctionLike]
    have first : n.firstClause = [] := by simp [firstClause, hform]
    rw [(visits_flow os h).mem_iff, inPlace_of_plain hf, ownCode_of_plain hf, clauseVisits, first,
      ownVisits, if_neg (by simp [hf])] at hv
    simp only [List.flatMap_nil, List.append_nil, List.cons_append, List.nil_append,
      List.mem_cons, Prod.mk.injEq, Stop.enter.injEq, reduceCtorEq, and_false, false_or,
      List.mem_flatMap] at hv
    rcases hv with ⟨-, rfl⟩ | ⟨x, hx, hv⟩
    · simp [hclause] at hq
    · exact ⟨x, by rwa [brings, if_pos hclause], mem_preorder_of_mem_children hx, hv⟩
  · exact ⟨n, by simp [brings, hclause], n.mem_preorder_self, hv⟩

/-- What is entered is walked as a whole there. -/
theorem piece_of_enter (hv : (owners, Stop.enter q) ∈ n.flow.visits os)
    (hq : q.isClause = false) : Piece owners q.flow os n.flow := by
  induction n using induct_below generalizing os with
  | step n ih =>
    rw [(visits_flow os h).mem_iff] at hv
    simp only [List.mem_append, List.mem_flatMap] at hv
    have inside {c : Node} (hc : c ∈ n.inPlace ++ n.ownCode) {os : List Node}
        (hv : (owners, Stop.enter q) ∈ c.flow.visits os) :
        ∃ x ∈ c.brings, Piece owners q.flow os x.flow := by
      have below := mem_below_of_part h hc
      have grammatical := isGrammatical_of_part h hc
      obtain ⟨x, hx, hmem, hv⟩ := exists_brings grammatical hv hq
      obtain ⟨d, hd, hcd⟩ := List.mem_flatMap.1 below
      exact ⟨x, hx, ih x (List.mem_flatMap.2 ⟨d, hd, mem_preorder_trans hcd hmem⟩)
        (isGrammatical_of_mem grammatical hmem) hv⟩
    rcases hv with ((hv | hv) | ⟨c, hc, hv⟩) | ⟨c, hc, hv⟩
    · have own : q = n ∧ owners = os := by
        unfold ownVisits at hv
        split_ifs at hv <;> simp_all
      obtain ⟨rfl, rfl⟩ := own
      exact .self
    · obtain ⟨c, hc, hv⟩ := List.mem_flatMap.1 hv
      obtain rfl : q = c := by simp_all
      simp [isClause_of_firstClause h hc] at hq
    · obtain ⟨x, hx, piece⟩ := inside (List.mem_append_left _ hc) hv
      exact (piece_inPlace os h hc hx).trans piece
    · obtain ⟨x, hx, piece⟩ := inside (List.mem_append_right _ hc) hv
      have hf : n.isFunctionLike = true := by
        by_contra hf
        rw [Bool.not_eq_true] at hf
        simp [ownCode_of_plain hf] at hc
      exact (piece_codePath os hf).trans (.inside ((piece_bodyFlow (n :: os) h hf hc hx).trans piece))

theorem piece_of_enter_events (hv : (owners, Stop.enter q) ∈ Event.visits [] n.events)
    (hq : q.isClause = false) : Piece owners q.flow [n] n.programFlow := by
  simp only [visits_events, List.mem_cons, Prod.mk.injEq, reduceCtorEq, and_false, false_or] at hv
  rw [programFlow] at hv ⊢
  by_cases hf : n.isFunctionLike = true
  · rw [if_pos hf] at hv ⊢
    rw [(visits_bodyFlow [n] h hf).mem_iff] at hv
    simp only [List.mem_append, List.mem_flatMap] at hv
    rcases hv with hv | ⟨c, hc, hv⟩
    · obtain ⟨c, hc, hv⟩ := List.mem_flatMap.1 hv
      obtain rfl : q = c := by simp_all
      simp [isClause_of_firstClause h hc] at hq
    · have part : c ∈ n.inPlace ++ n.ownCode := List.mem_append_right _ hc
      have grammatical := isGrammatical_of_part h part
      obtain ⟨x, hx, hmem, hv⟩ := exists_brings grammatical hv hq
      exact (piece_bodyFlow [n] h hf hc hx).trans
        (piece_of_enter (isGrammatical_of_mem grammatical hmem) hv hq)
  · rw [if_neg hf] at hv ⊢
    exact piece_of_enter h hv hq

end Grammatical

end Node

end LostUpdate
