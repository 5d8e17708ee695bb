import LostUpdate.Proofs.Course.Program
import LostUpdate.Proofs.Walk.Pieces

namespace LostUpdate

namespace Flow

open Node

/-- The flow walks these nodes and nothing else but functions in code paths of their own, returns and
raises. Loops are left out. -/
inductive Walks : Flow → List Node → Prop
  | part (c : Node) : Walks c.placedFlow [c]
  | idle : Walks .idle []
  | enter (n : Node) : Walks (.enter n) []
  | exit (n : Node) : Walks (.exit n) []
  | returnOut : Walks (.jump .returnOut) []
  | raiseOut : Walks (.jump .raiseOut) []
  | codePath (owner : Node) (body : Flow) : Walks (.codePath owner body) []
  | seq {f g : Flow} {l m : List Node} (hf : Walks f l) (hg : Walks g m) : Walks (.seq f g) (l ++ m)
  | choose (fallsThrough : Bool) {ι : Type} {arms : List ι} {flow : ι → Flow}
      {parts : ι → List Node} (h : ∀ i ∈ arms, Walks (flow i) (parts i)) :
      Walks (.choose fallsThrough (arms.map flow)) (arms.flatMap parts)
  | chain {ι : Type} {arms : List ι} {flow : ι → Flow} {parts : ι → List Node}
      (h : ∀ i ∈ arms, Walks (flow i) (parts i)) :
      Walks (.chain (arms.map flow)) (arms.flatMap parts)
  | attempt {body orelse : Flow} {ι : Type} {arms : List ι} {flow : ι → Flow}
      {parts : ι → List Node} {l m : List Node} (hb : Walks body l)
      (h : ∀ i ∈ arms, Walks (flow i) (parts i)) (he : Walks orelse m) :
      Walks (.attempt body (arms.map flow) orelse none) (l ++ arms.flatMap parts ++ m)
  | final {body orelse final : Flow} {ι : Type} {arms : List ι} {flow : ι → Flow}
      {parts : ι → List Node} {l m r : List Node} (hb : Walks body l)
      (h : ∀ i ∈ arms, Walks (flow i) (parts i)) (he : Walks orelse m) (hf : Walks final r) :
      Walks (.attempt body (arms.map flow) orelse (some final)) (l ++ arms.flatMap parts ++ m ++ r)
  | congr {f : Flow} {l m : List Node} (h : ∀ c, c ∈ m ↔ c ∈ l) (hf : Walks f l) : Walks f m

namespace Walks

theorem of_isClause {c : Node} (h : c.isClause = false) : Walks c.flow [c] :=
  placedFlow_of_isClause h ▸ part c

theorem sequence {α : Type} {l : List α} {flow : α → Flow} {parts : α → List Node}
    (h : ∀ c ∈ l, Walks (flow c) (parts c)) : Walks (.sequence (l.map flow)) (l.flatMap parts) := by
  induction l with
  | nil => exact .idle
  | cons c l ih =>
    exact .seq (h c List.mem_cons_self) (ih fun d hd => h d (List.mem_cons_of_mem _ hd))

theorem row (l : List Node) : Walks (.sequence (l.map placedFlow)) l := by
  have each : Walks (.sequence (l.map placedFlow)) (l.flatMap fun c => [c]) :=
    sequence fun c _ => .part c
  rwa [List.flatMap_singleton'] at each

theorem plain {l : List Node} (h : ∀ c ∈ l, c.isClause = false) :
    Walks (.sequence (l.map flow)) l :=
  map_placedFlow h ▸ row l

end Walks

end Flow

/-- A loop: what runs before every turn, the body, and what follows when the head ends the loop. -/
structure Loop where
  head : Node
  body : List Node
  orelse : List Node

namespace Node

open LostUpdate.Flow

variable {n : Node}

def loop? (n : Node) : Option Loop :=
  match n.form with
  | .whileLoop test body orelse => some ⟨test, body, orelse⟩
  | .forLoop _ target _ body orelse => some ⟨target, body, orelse⟩
  | _ => none

/-- The jump of a statement that the loop around it takes. -/
def loopJump? (n : Node) : Option Jump :=
  match n.form with
  | .breakStmt => some .breakLoop
  | .continueStmt => some .continueLoop
  | _ => none

section Grammatical

variable (h : n.isGrammatical = true)

include h

/-- What stands in a field that is not for clauses is no clause. -/
theorem isClause_of_field {k : Category} {l : List Node} (hl : (k, l) ∈ n.form.fields)
    (hk : k ≠ .clause) : ∀ c ∈ l, c.isClause = false :=
  fun c hc => isClause_of_category <| by
    rwa [category_of_fits (isGrammatical.fits h) hl hc]

/-- The flow of a node that is no function, loop or jump of a loop walks its children. -/
theorem walks_innerFlow (hf : n.isFunctionLike = false) (hloop : n.loop? = none)
    (hjump : n.loopJump? = none) : n.innerFlow.Walks n.children := by
  have shape := innerFlow_shape h
  generalize n.innerFlow = f at shape ⊢
  have arms (fallsThrough : Bool) (l : List Node) :
      Walks (.choose fallsThrough (l.map placedFlow)) (l.flatMap fun c => [c]) :=
    .choose fallsThrough fun c _ => .part c
  have links (l : List Node) : Walks (.chain (l.map placedFlow)) (l.flatMap fun c => [c]) :=
    .chain fun c _ => .part c
  cases shape with
  | function hn => simp [hn] at hf
  | whileLoop hn | forLoop hn => simp [loop?, hn] at hloop
  | breakStmt hn | continueStmt hn => simp [loopJump?, hn] at hjump
  | row => exact .row n.children
  | returnStmt => exact .congr (fun c => by simp) ((Walks.row n.children).seq .returnOut)
  | raiseStmt => exact .congr (fun c => by simp) ((Walks.row n.children).seq .raiseOut)
  | @entries keys values hn complete =>
    rw [children, hn]
    exact .congr (fun c => (interleave_perm keys values complete).mem_iff.symm) (.row _)
  | @classDef name bases keywords body decorators hn =>
    refine .congr (fun c => ?_) ((Walks.row n.heading).seq (.row body))
    simp only [children, heading, hn, Form.children, List.mem_append]
    tauto
  | @turns collector elements clauses hn =>
    refine .congr (fun c => ?_) ((Walks.row clauses).seq (.row elements))
    simp only [children, hn, Form.children, List.mem_append]
    exact or_comm
  | @branch test body orelse hn =>
    have both : Walks (.choose false ([body, orelse].map fun l => sequence (l.map placedFlow)))
        ([body, orelse].flatMap fun l => l) := .choose false fun l _ => .row l
    refine .congr (fun c => ?_) ((Walks.part test).seq both)
    simp [children, hn, Form.children]
  | @conditional test body orelse hn =>
    refine .congr (fun c => ?_) ((Walks.part test).seq (arms false [body, orelse]))
    simp [children, hn, Form.children]
  | noLinks hn => exact .congr (fun c => by simp [children, hn, Form.children]) (links [])
  | @links op first rest hn =>
    refine .congr (fun c => ?_) ((Walks.part first).seq (links rest))
    simp [children, hn, Form.children]
  | @cases subject cases hn =>
    refine .congr (fun c => ?_) ((Walks.part subject).seq (arms true cases))
    simp [children, hn, Form.children]
  | @attempt isStar body handlers orelse hn =>
    refine .congr (fun c => ?_)
      ((Walks.row body).attempt (fun (c : Node) (_ : c ∈ handlers) => .part c) (.row orelse))
    simp [children, hn, Form.children]
  | @final isStar body handlers orelse rest first hn =>
    refine .congr (fun c => ?_) ((Walks.row body).final
      (fun (c : Node) (_ : c ∈ handlers) => .part c) (.row orelse) (.row (first :: rest)))
    simp [children, hn, Form.children]

/-- Between entering and leaving a node that is no loop and no jump of one, its parts are walked. -/
theorem exists_placedFlow (hloop : n.loop? = none) (hjump : n.loopJump? = none) :
    ∃ f, n.placedFlow = .seq (.enter n) (.seq f (.exit n)) ∧ f.Walks n.inPlace := by
  by_cases hclause : n.isClause = true
  · obtain ⟨target, iterable, conditions, isAsync, hn⟩ :=
      exists_clause (isClause_eq_true_iff.1 hclause)
    have hf : n.isFunctionLike = false := by simp [isFunctionLike, hn, Form.isFunctionLike]
    have plain := isClause_of_field h (k := .expression) (l := target :: iterable :: conditions)
      (by simp [hn, Form.fields]) (by simp)
    simp only [List.forall_mem_cons] at plain
    obtain ⟨inTarget, inIterable, inConditions⟩ := plain
    rw [placedFlow, if_pos hclause, clauseFlow_eq hn, if_neg (by simp)]
    refine ⟨_, rfl, .congr (fun c => ?_) ((Walks.of_isClause inIterable).seq
      ((Walks.of_isClause inTarget).seq (.plain inConditions)))⟩
    simp only [inPlace_of_plain hf, children, hn, Form.children, List.mem_cons, List.mem_append,
      List.not_mem_nil, or_false]
    tauto
  · rw [placedFlow, if_neg hclause, flow_eq]
    refine ⟨_, rfl, ?_⟩
    by_cases hf : n.isFunctionLike = true
    · have heading : ∀ c ∈ n.heading, c.isClause = false := fun c hc =>
        isClause_of_category (by simp [category_of_heading h hf hc])
      rw [innerFlow_functionLike hf, inPlace, if_pos hf]
      exact .congr (fun c => by simp) ((Walks.plain heading).seq (.codePath n _))
    · rw [Bool.not_eq_true] at hf
      rw [inPlace_of_plain hf]
      exact walks_innerFlow h hf hloop hjump

/-- The code of a function walks the parts that run in the function's code path. -/
theorem walks_bodyFlow (hf : n.isFunctionLike = true) : n.bodyFlow.Walks n.ownCode := by
  rcases isFunctionLike_cases hf with ⟨isAsync, name, parameters, body, decorators, returns, hn⟩ |
    ⟨parameters, body, hn⟩ | ⟨elements, clauses, hn⟩
  · rw [bodyFlow_function hn]
    have plain := isClause_of_field h (k := .statement) (l := body) (by simp [hn, Form.fields])
      (by simp)
    simpa [ownCode, hn] using Walks.plain plain
  · rw [bodyFlow_lambda hn]
    have plain := isClause_of_field h (k := .expression) (l := [body]) (by simp [hn, Form.fields])
      (by simp)
    simpa [ownCode, hn] using Walks.of_isClause (plain body List.mem_cons_self)
  · obtain ⟨first, rest, target, iterable, conditions, isAsync, rfl, hfirst⟩ := exists_first h hn
    have inRest : ∀ c ∈ rest, c.isClause = true := fun c hc => isClause_eq_true_iff.2
      (category_of_fits (isGrammatical.fits h) (l := first :: rest) (by simp [hn, Form.fields])
        (List.mem_cons_of_mem _ hc))
    have inElements := isClause_of_field h (k := .expression) (l := elements)
      (by simp [hn, Form.fields]) (by simp)
    have inner : first.isGrammatical = true :=
      isGrammatical_child h (by simp [children, hn, Form.children])
    have plain := isClause_of_field inner (k := .expression) (l := target :: iterable :: conditions)
      (by simp [hfirst, Form.fields]) (by simp)
    simp only [List.forall_mem_cons] at plain
    obtain ⟨inTarget, -, inConditions⟩ := plain
    rw [bodyFlow_generator hn, clauseFlow_eq hfirst, if_pos rfl, ← map_placedFlow_of_isClause inRest]
    have turn := (Walks.idle).seq ((Walks.of_isClause inTarget).seq (.plain inConditions))
    refine .congr (fun c => ?_) ((((Walks.enter first).seq (turn.seq (.exit first))).seq
      (.row rest)).seq (.plain inElements))
    simp [ownCode, hn, Node.turn, hfirst]

end Grammatical

end Node

end LostUpdate
