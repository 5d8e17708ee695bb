import LostUpdate.Proofs.Course.Program
import LostUpdate.Proofs.Walk.Finals

namespace LostUpdate

/-- Of two elements in order, both are in the first part, or both in the second, or one in each. -/
theorem pair_sublist_append {α : Type} {a b : α} {l m : List α} :
    [a, b].Sublist (l ++ m) ↔ [a, b].Sublist l ∨ a ∈ l ∧ b ∈ m ∨ [a, b].Sublist m := by
  constructor
  · intro h
    obtain ⟨first, second, hsplit, hl, hm⟩ := List.sublist_append_iff.1 h
    match first, second, hsplit with
    | [], _, rfl => exact .inr (.inr hm)
    | [_], [_], rfl => exact .inr (.inl ⟨hl.subset (by simp), hm.subset (by simp)⟩)
    | [_, _], [], rfl => exact .inl hl
  · rintro (h | ⟨ha, hb⟩ | h)
    · exact h.trans (List.sublist_append_left l m)
    · exact (List.singleton_sublist.2 ha).append (List.singleton_sublist.2 hb)
    · exact h.trans (List.sublist_append_right l m)

/-- Two elements in order come to be in the same order where one list of parts stands for another. -/
theorem pair_sublist_flatMap {α β γ : Type} {f : α → List β} {g : α → List γ} {a b : β}
    {a' b' : γ} {l : List α} (first : ∀ c ∈ l, a ∈ f c → a' ∈ g c)
    (second : ∀ c ∈ l, b ∈ f c → b' ∈ g c)
    (both : ∀ c ∈ l, [a, b].Sublist (f c) → [a', b'].Sublist (g c))
    (h : [a, b].Sublist (l.flatMap f)) : [a', b'].Sublist (l.flatMap g) := by
  induction l with
  | nil => simp at h
  | cons c l ih =>
    rw [List.flatMap_cons, pair_sublist_append] at h ⊢
    simp only [List.forall_mem_cons] at first second both
    rcases h with h | ⟨ha, hb⟩ | h
    · exact .inl (both.1 h)
    · obtain ⟨d, hd, hb⟩ := List.mem_flatMap.1 hb
      exact .inr (.inl ⟨first.1 ha, List.mem_flatMap.2 ⟨d, hd, second.2 d hd hb⟩⟩)
    · exact .inr (.inr (ih first.2 second.2 both.2 h))

namespace Node

open LostUpdate.Flow Walk

/-- Whether a form evaluates its parts one after the other and does nothing else. -/
def proceeds (n : Node) : Bool :=
  match n.form with
  | .globalDecl .. | .exprStmt .. | .assign .. | .augmented .. | .walrus .. | .binary ..
  | .unary .. | .dict .. | .set .. | .await .. | .yield .. | .yieldFrom .. | .compare .. | .call ..
  | .keyword .. | .formatted .. | .joined .. | .constant .. | .member .. | .subscript ..
  | .starred .. | .name .. | .list .. | .tuple .. | .slice .. => true
  | _ => false

/-- Whether a node is evaluated from first to last. -/
def isStraight (n : Node) : Bool := n.preorder.all proceeds

/-- The value that is evaluated before the targets into which it is stored. -/
def precedingValue? (n : Node) : Option Node :=
  match n.form with
  | .assign _ value | .walrus _ value => some value
  | _ => none

/-- The parts of a node in the order in which they are evaluated. -/
def operands (n : Node) : List Node :=
  match n.precedingValue? with
  | some value => value :: n.targets
  | none => n.steps

variable {n x s : Node}

theorem steps_of_precedingValue? {v : Node} (h : n.precedingValue? = some v) :
    n.steps = n.targets ++ [v] := by
  cases hform : n.form <;>
    simp_all [precedingValue?, steps, targets, children, Form.children]

theorem operands_perm (n : Node) : n.operands.Perm n.steps := by
  unfold operands
  cases h : n.precedingValue? with
  | none => exact .refl _
  | some v =>
    rw [steps_of_precedingValue? h]
    exact (List.perm_append_singleton v n.targets).symm

/-- A node and all that it evaluates, each after its own operands. A target is done with when it has
been stored to, an assignment when all is. -/
def evaluated (n : Node) : List Node :=
  (n.operands.attach.flatMap fun ⟨c, _⟩ => c.evaluated) ++ [n]
termination_by n
decreasing_by exact sizeOf_lt_of_mem_steps (n.operands_perm.subset ‹_›)

theorem evaluated_eq (n : Node) : n.evaluated = n.operands.flatMap evaluated ++ [n] := by
  rw [evaluated, List.flatMap_subtype (fun _ _ => rfl), List.unattach_attach]

/-- The events of a walk that stays in one segment. -/
def straightEvents (n : Node) : List Event :=
  .enter n :: (n.steps.attach.flatMap fun ⟨c, _⟩ => c.straightEvents) ++ [.exit n]
termination_by n
decreasing_by exact sizeOf_lt_of_mem_steps ‹_›

theorem straightEvents_eq (n : Node) :
    n.straightEvents = .enter n :: n.steps.flatMap straightEvents ++ [.exit n] := by
  rw [straightEvents, List.flatMap_subtype (fun _ _ => rfl), List.unattach_attach]

/-- `x` is evaluated before `s` but walked after it: `x` stands in the value of an assignment, and `s`
in one of the targets. -/
def Defers (n x s : Node) : Prop :=
  ∃ v, n.precedingValue? = some v ∧ x ∈ v.evaluated ∧ ∃ target ∈ n.targets, s ∈ target.evaluated

theorem proceeds_of_isStraight (h : n.isStraight = true) : n.proceeds = true :=
  List.all_eq_true.1 h n n.mem_preorder_self

theorem isStraight_of_mem (h : n.isStraight = true) (hx : x ∈ n.preorder) : x.isStraight = true :=
  List.all_eq_true.2 fun p hp => List.all_eq_true.1 h p (mem_preorder_trans hx hp)

theorem mem_children_of_mem_steps (h : n.proceeds = true) {c : Node} (hc : c ∈ n.steps) :
    c ∈ n.children := by
  have part := mem_inPlace_of_mem_steps hc
  have plain : n.isFunctionLike = false := by
    cases hform : n.form <;> simp_all [proceeds, isFunctionLike, Form.isFunctionLike]
  rwa [inPlace_of_plain plain] at part

/-- Between entering and leaving a node that proceeds, its parts are walked one after the other. -/
theorem innerFlow_of_proceeds (h : n.proceeds = true) :
    n.innerFlow = .sequence (n.steps.map flow) := by
  cases n with
  | mk i s f =>
    rw [innerFlow.eq_def]
    cases f
    case globalDecl | exprStmt | assign | augmented | walrus | binary | unary | dict | set | await |
      yield | yieldFrom | compare | call | keyword | formatted | joined | constant | member |
      subscript | starred | name | list | tuple | slice =>
      simp only [map_flow_attach]
      rfl
    all_goals simp [proceeds, form] at h

theorem walk_straight_sequence {l : List Node} {around : Surroundings} {p : Spot}
    (h : ∀ c ∈ l, c.flow.walk around p = (c.straightEvents, p)) :
    (sequence (l.map flow)).walk around p = (l.flatMap straightEvents, p) := by
  induction l with
  | nil => rfl
  | cons c l ih =>
    obtain ⟨here, rest⟩ := List.forall_mem_cons.1 h
    simp [Flow.sequence, walk, andThen, here, ih rest]

/-- Code that is evaluated from first to last is walked in one segment. -/
theorem walk_straight (h : n.isStraight = true) (around : Surroundings) (p : Spot) :
    n.flow.walk around p = (n.straightEvents, p) := by
  induction n using induct with
  | step n ih =>
    have proceeds := proceeds_of_isStraight h
    have parts : ∀ c ∈ n.steps, c.flow.walk around p = (c.straightEvents, p) := fun c hc =>
      have child := mem_children_of_mem_steps proceeds hc
      ih c child (isStraight_of_mem h (mem_preorder_of_mem_children child))
    rw [walk_flow, innerFlow_of_proceeds proceeds, walk_straight_sequence parts,
      straightEvents_eq, List.cons_append]

theorem enter_mem_straightEvents (n : Node) : .enter n ∈ n.straightEvents := by
  rw [straightEvents_eq]
  simp

theorem exit_mem_straightEvents (n : Node) : .exit n ∈ n.straightEvents := by
  rw [straightEvents_eq]
  simp

theorem straightEvents_of_mem_steps {c : Node} (h : c ∈ n.steps) {e : Event}
    (he : e ∈ c.straightEvents) : e ∈ n.straightEvents := by
  rw [straightEvents_eq]
  simp only [List.cons_append, List.mem_cons, List.mem_append, List.mem_flatMap]
  exact .inr (.inl ⟨c, h, he⟩)

theorem mem_straightEvents (h : x ∈ n.evaluated) :
    .enter x ∈ n.straightEvents ∧ .exit x ∈ n.straightEvents := by
  induction n using evaluated.induct with
  | case1 n ih =>
    rw [evaluated_eq] at h
    rcases List.mem_append.1 h with h | h
    · obtain ⟨c, hc, hx⟩ := List.mem_flatMap.1 h
      obtain ⟨henter, hexit⟩ := ih c hc hx
      have step := n.operands_perm.subset hc
      exact ⟨straightEvents_of_mem_steps step henter, straightEvents_of_mem_steps step hexit⟩
    · obtain rfl := List.mem_singleton.1 h
      exact ⟨x.enter_mem_straightEvents, x.exit_mem_straightEvents⟩

theorem mem_preorder_of_evaluated (h : n.isStraight = true) (hx : x ∈ n.evaluated) :
    x ∈ n.preorder := by
  induction n using induct with
  | step n ih =>
    rw [evaluated_eq] at hx
    rcases List.mem_append.1 hx with hx | hx
    · obtain ⟨c, hc, hx⟩ := List.mem_flatMap.1 hx
      have child := mem_children_of_mem_steps (proceeds_of_isStraight h)
        (n.operands_perm.subset hc)
      exact mem_preorder_child child
        (ih c child (isStraight_of_mem h (mem_preorder_of_mem_children child)) hx)
    · exact List.mem_singleton.1 hx ▸ n.mem_preorder_self

/-- What is evaluated first is walked first, unless an assignment defers it. -/
theorem entered_before (hd : ∀ p ∈ n.evaluated, ¬ p.Defers x s) (h : [x, s].Sublist n.evaluated) :
    [.enter x, .exit s].Sublist n.straightEvents := by
  induction n using evaluated.induct with
  | case1 n ih =>
    have below {c : Node} (hc : c ∈ n.operands) :
        [x, s].Sublist c.evaluated → [.enter x, .exit s].Sublist c.straightEvents :=
      ih c hc fun p hp => hd p (by
        rw [evaluated_eq]
        exact List.mem_append_left _ (List.mem_flatMap.2 ⟨c, hc, hp⟩))
    have enters (c : Node) (_ : c ∈ n.operands) (hx : x ∈ c.evaluated) :=
      (mem_straightEvents hx).1
    have exits (c : Node) (_ : c ∈ n.operands) (hs : s ∈ c.evaluated) :=
      (mem_straightEvents hs).2
    have self : n ∈ n.evaluated := by
      rw [evaluated_eq]
      simp
    rw [evaluated_eq, pair_sublist_append] at h
    rw [straightEvents_eq, List.cons_append]
    refine List.Sublist.cons _ (pair_sublist_append.2 ?_)
    rcases h with h | ⟨hx, hs⟩ | h
    · refine .inl ?_
      unfold operands at h enters exits below
      cases hv : n.precedingValue? with
      | none =>
        rw [hv] at h enters exits below
        exact pair_sublist_flatMap enters exits (fun c => below) h
      | some v =>
        rw [hv] at h enters exits below
        rw [List.flatMap_cons, pair_sublist_append] at h
        rw [steps_of_precedingValue? hv, List.flatMap_append, pair_sublist_append,
          List.flatMap_singleton]
        rcases h with h | ⟨hx, hs⟩ | h
        · exact .inr (.inr (below List.mem_cons_self h))
        · obtain ⟨target, htarget, hs⟩ := List.mem_flatMap.1 hs
          exact absurd ⟨v, hv, hx, target, htarget, hs⟩ (hd n self)
        · refine .inl (pair_sublist_flatMap (fun c hc => ?_) (fun c hc => ?_) (fun c hc => ?_) h)
          · exact enters c (List.mem_cons_of_mem v hc)
          · exact exits c (List.mem_cons_of_mem v hc)
          · exact below (List.mem_cons_of_mem v hc)
    · obtain rfl := List.mem_singleton.1 hs
      obtain ⟨c, hc, hmem⟩ := List.mem_flatMap.1 hx
      refine .inr (.inl ⟨List.mem_flatMap.2 ⟨c, s.operands_perm.subset hc, ?_⟩, by simp⟩)
      exact enters c hc hmem
    · exact absurd h.length_le (by simp)

end Node

end LostUpdate
