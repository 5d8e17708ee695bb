import LostUpdate.Proofs.Course.Program
import LostUpdate.Proofs.Walk.Bracketing
import LostUpdate.Proofs.Walk.Finals

namespace LostUpdate

/-- How control can leave a piece of code: at its end, or by a `break` for the loop around it. -/
structure Ends where
  completes : Bool
  breaks : Bool

namespace Ends

def straight : Ends := ⟨true, false⟩

/-- Left in another way. -/
def gone : Ends := ⟨false, false⟩

def broken : Ends := ⟨false, true⟩

/-- `b` runs only if `a` completes. -/
def andThen (a b : Ends) : Ends := ⟨a.completes && b.completes, a.breaks || a.completes && b.breaks⟩

def either (a b : Ends) : Ends := ⟨a.completes || b.completes, a.breaks || b.breaks⟩

/-- One after the other. -/
def all : List Ends → Ends
  | [] => straight
  | a :: l => a.andThen (all l)

def oneOf : List Ends → Ends
  | [] => gone
  | a :: l => a.either (oneOf l)

/-- The loop takes the breaks of its body. -/
def loop (body orelse : Ends) : Ends := ⟨orelse.completes || body.breaks, orelse.breaks⟩

@[simp] theorem completes_straight : straight.completes = true := rfl

@[simp] theorem breaks_straight : straight.breaks = false := rfl

@[simp] theorem straight_andThen (a : Ends) : straight.andThen a = a := by
  simp [andThen, straight]

@[simp] theorem andThen_straight (a : Ends) : a.andThen straight = a := by
  simp [andThen, straight]

@[simp] theorem gone_either (a : Ends) : gone.either a = a := by
  simp [either, gone]

@[simp] theorem either_gone (a : Ends) : a.either gone = a := by
  simp [either, gone]

theorem andThen_assoc (a b c : Ends) : (a.andThen b).andThen c = a.andThen (b.andThen c) := by
  simp only [andThen, Bool.and_assoc, Bool.or_assoc, Bool.and_or_distrib_left]

theorem all_append (l m : List Ends) : all (l ++ m) = (all l).andThen (all m) := by
  induction l with
  | nil => exact (straight_andThen _).symm
  | cons a l ih => rw [List.cons_append, all, all, ih, andThen_assoc]

theorem all_straight {l : List Ends} (h : ∀ a ∈ l, a = straight) : all l = straight := by
  induction l with
  | nil => rfl
  | cons a l ih =>
    rw [all, h a List.mem_cons_self, ih fun b hb => h b (List.mem_cons_of_mem _ hb),
      straight_andThen]

end Ends

namespace Node

/-- How control can leave a node, as far as no final part holds it back. A handler may take over
anywhere in the body of its `try`; of the cases of a `match` none need apply. -/
def ends (n : Node) : Ends :=
  match n with
  | .mk _ _ .breakStmt => .broken
  | .mk _ _ .continueStmt | .mk _ _ (.returnStmt _) | .mk _ _ (.raiseStmt ..) => .gone
  | .mk _ _ (.ifStmt _ body orelse) =>
    .either (.all (body.map ends)) (.all (orelse.map ends))
  | .mk _ _ (.whileLoop _ body orelse) | .mk _ _ (.forLoop _ _ _ body orelse) =>
    .loop (.all (body.map ends)) (.all (orelse.map ends))
  | .mk _ _ (.tryStmt _ body handlers orelse _) =>
    .either (.andThen (.all (body.map ends)) (.all (orelse.map ends))) (.oneOf (handlers.map ends))
  | .mk _ _ (.matchStmt _ cases) => .either .straight (.oneOf (cases.map ends))
  | .mk _ _ (.withStmt _ _ body) | .mk _ _ (.classDef _ _ _ body _) | .mk _ _ (.handler _ _ body)
  | .mk _ _ (.matchCase _ _ body) | .mk _ _ (.module body) | .mk _ _ (.interactive body) =>
    .all (body.map ends)
  | _ => .straight
termination_by n

/-- Whether no `try` among what runs where a node stands has a final part. -/
def hasNoFinal (n : Node) : Bool :=
  (match n.form with
    | .tryStmt _ _ _ _ final => final.isEmpty
    | _ => true) &&
    n.inPlace.attach.all fun ⟨c, _⟩ => c.hasNoFinal
termination_by n
decreasing_by
  rename_i h
  unfold inPlace at h
  split_ifs at h
  · exact sizeOf_lt_of_mem_heading h
  · exact sizeOf_lt_of_mem_children h

end Node

namespace Walk

theorem startSegment_reachable (path : PathId) (previous : List Segment) (p : Spot) :
    (startSegment path previous p).2.current.isReachable = previous.any (·.isReachable) := by
  rw [Bool.eq_iff_iff, startSegment_isReachable, List.any_eq_true]

theorem startSegment_broken (path : PathId) (previous : List Segment) (p : Spot) :
    (startSegment path previous p).2.broken = p.broken :=
  rfl

end Walk

namespace Flow

open Walk

/-- Wherever a flow is walked, its end can be reached if it starts where control can be and
completes, and `break` leaves it from where control can be if it does so by what the flow is. -/
structure EndsAs (f : Flow) (e : Ends) : Prop where
  current : ∀ around p, (walk around f p).2.current.isReachable =
    (p.current.isReachable && e.completes)
  broken : ∀ around p, (walk around f p).2.broken.any (·.isReachable) =
    (p.broken.any (·.isReachable) || p.current.isReachable && e.breaks)

variable {f g head body orelse : Flow} {a b e : Ends}

theorem endsAs_idle : idle.EndsAs .straight :=
  ⟨by simp [walk, stay], by simp [walk, stay]⟩

theorem endsAs_enter (n : Node) : (enter n).EndsAs .straight :=
  ⟨by simp [walk, emit], by simp [walk, emit]⟩

theorem endsAs_exit (n : Node) : (exit n).EndsAs .straight :=
  ⟨by simp [walk, emit], by simp [walk, emit]⟩

theorem endsAs_codePath (owner : Node) (body : Flow) : (codePath owner body).EndsAs .straight :=
  ⟨by simp [walk], by simp [walk]⟩

theorem endsAs_jump (kind : Jump) :
    (jump kind).EndsAs (if kind = .breakLoop then .broken else .gone) := by
  constructor
  all_goals
    intro around p
    cases kind
    case continueLoop => cases h : around.continuation <;>
      simp [walk, leave, h, andThen, goBack, startSegment, Segment.distinct, Ends.gone]
    all_goals simp [walk, leave, startSegment, Segment.distinct, Ends.gone, Ends.broken]

theorem EndsAs.seq (hf : f.EndsAs a) (hg : g.EndsAs b) : (seq f g).EndsAs (a.andThen b) := by
  refine ⟨fun around p => ?_, fun around p => ?_⟩
  · change (walk around g (walk around f p).2).2.current.isReachable = _
    rw [hg.current, hf.current, Bool.and_assoc]
    rfl
  · change (walk around g (walk around f p).2).2.broken.any _ = _
    rw [hg.broken, hf.broken, hf.current, Ends.andThen, Bool.and_or_distrib_left, Bool.or_assoc,
      Bool.and_assoc]

section Each

variable {α : Type} {l : List α} {flow : α → Flow} {ends : α → Ends}

theorem endsAs_sequence (h : ∀ c ∈ l, (flow c).EndsAs (ends c)) :
    (sequence (l.map flow)).EndsAs (.all (l.map ends)) := by
  induction l with
  | nil => exact endsAs_idle
  | cons c l ih =>
    exact (h c List.mem_cons_self).seq (ih fun d hd => h d (List.mem_cons_of_mem _ hd))

/-- Arms can be left as one of them can, from where they start. -/
theorem walkArms_ends (h : ∀ c ∈ l, (flow c).EndsAs (ends c)) (around : Surroundings)
    (starts : List Segment) (p : Spot) :
    (walkArms around starts (l.map flow) p).2.1.any (·.isReachable) =
        (starts.any (·.isReachable) && (Ends.oneOf (l.map ends)).completes) ∧
      (walkArms around starts (l.map flow) p).2.2.broken.any (·.isReachable) =
        (p.broken.any (·.isReachable) ||
          starts.any (·.isReachable) && (Ends.oneOf (l.map ends)).breaks) := by
  induction l generalizing p with
  | nil => simp [walkArms, Ends.oneOf, Ends.gone]
  | cons c l ih =>
    have first := h c List.mem_cons_self
    obtain ⟨completes, breaks⟩ := ih (fun d hd => h d (List.mem_cons_of_mem _ hd))
      (walk around (flow c) (startSegment around.path starts p).2).2
    simp only [List.map_cons, walkArms, List.any_cons, completes, breaks, first.current,
      first.broken, startSegment_reachable, Ends.oneOf, Ends.either]
    constructor
    · rw [Bool.and_or_distrib_left]
    · rw [Bool.and_or_distrib_left, Bool.or_assoc]
      rfl

theorem endsAs_choose (fallsThrough : Bool) (h : ∀ c ∈ l, (flow c).EndsAs (ends c)) :
    (choose fallsThrough (l.map flow)).EndsAs
      ((if fallsThrough then Ends.straight else .gone).either (.oneOf (l.map ends))) := by
  refine ⟨fun around p => ?_, fun around p => ?_⟩
  all_goals obtain ⟨completes, breaks⟩ := walkArms_ends h around [p.current] p
  · change (startSegment around.path _
      (walkArms around [p.current] (l.map flow) p).2.2).2.current.isReachable = _
    rw [startSegment_reachable, List.any_append, completes]
    cases fallsThrough
    · simp [Ends.either, Ends.gone]
    · simpa [Ends.either] using fun reachable _ => reachable
  · change (walkArms around [p.current] (l.map flow) p).2.2.broken.any _ = _
    rw [breaks]
    cases fallsThrough <;> simp [Ends.either, Ends.gone]

theorem EndsAs.branch (hf : f.EndsAs a) (hg : g.EndsAs b) :
    (choose false [f, g]).EndsAs (a.either b) := by
  have each : ∀ c ∈ [(f, a), (g, b)], Flow.EndsAs (Prod.fst c) (Prod.snd c) := by simp [hf, hg]
  simpa [Ends.oneOf] using endsAs_choose false each

/-- A chain of arms that run straight on does so. -/
theorem endsAs_chain (h : ∀ c ∈ l, (flow c).EndsAs .straight) :
    (chain (l.map flow)).EndsAs .straight := by
  have links (around : Surroundings) (p : Spot) :
      (walkChain around (l.map flow) p).2.1.any (·.isReachable) = p.current.isReachable ∧
      (walkChain around (l.map flow) p).2.2.broken.any (·.isReachable) =
        p.broken.any (·.isReachable) := by
    induction l generalizing p with
    | nil => simp [walkChain]
    | cons c l ih =>
      have first := h c List.mem_cons_self
      obtain ⟨completes, breaks⟩ := ih (fun d hd => h d (List.mem_cons_of_mem _ hd))
        (walk around (flow c) (startSegment around.path [p.current] p).2).2
      simp only [List.map_cons, walkChain, List.any_cons, completes, breaks, first.current,
        first.broken, startSegment_reachable]
      simp [startSegment]
  refine ⟨fun around p => ?_, fun around p => ?_⟩
  · change (startSegment around.path _ (walkChain around (l.map flow) p).2.2).2.current.isReachable = _
    rw [startSegment_reachable, (links around p).1]
    simp
  · change (walkChain around (l.map flow) p).2.2.broken.any _ = _
    rw [(links around p).2]
    simp

end Each

theorem EndsAs.loop (hh : head.EndsAs .straight) (hb : body.EndsAs b) (he : orelse.EndsAs e) :
    (loop head body orelse).EndsAs (.loop b e) := by
  have fork (around : Surroundings) (p : Spot) :
      (loopFork around head p).current.isReachable = p.current.isReachable ∧
      (loopFork around head p).broken.any (·.isReachable) = p.broken.any (·.isReachable) := by
    rw [loopFork, hh.current, hh.broken, loopStart, startSegment_reachable]
    simp [startSegment]
  have broken (around : Surroundings) (p : Spot) :
      (loopEnd around head body p).broken.any (·.isReachable) =
        (p.current.isReachable && b.breaks) := by
    rw [loopEnd, hb.broken]
    simp [loopTurn, startSegment_reachable, fork]
  refine ⟨fun around p => ?_, fun around p => ?_⟩
  · change (loopAfter around head body orelse p).current.isReachable = _
    rw [loopAfter, startSegment_reachable, List.any_cons, broken, loopElse, he.current, loopExit,
      startSegment_reachable]
    simp [fork, Ends.loop, Bool.and_or_distrib_left]
  · change (loopElse around head body orelse p).broken.any _ = _
    rw [loopElse, he.broken, loopExit, startSegment_reachable]
    simp [startSegment, fork, Ends.loop]

/-- Handlers start where control can be just if their `try` does. -/
theorem tryRisks_reachable (around : Surroundings) (body : Flow) (p : Spot) :
    (tryRisks around body p).any (·.isReachable) = p.current.isReachable := by
  have risks := (tryEnd_lands (walk_lands around body (tryBody around p))).1
  rw [Bool.eq_iff_iff, List.any_eq_true]
  refine ⟨fun ⟨s, hs, hr⟩ => risks s hs hr, fun hp => ⟨_, List.mem_cons_self, ?_⟩⟩
  simp [tryStart, startSegment_reachable, hp]

theorem EndsAs.attempt {α : Type} {l : List α} {flow : α → Flow} {ends : α → Ends}
    (hb : body.EndsAs b) (hl : ∀ c ∈ l, (flow c).EndsAs (ends c)) (he : orelse.EndsAs e) :
    (attempt body (l.map flow) orelse none).EndsAs
      ((b.andThen e).either (.oneOf (l.map ends))) := by
  have ended (around : Surroundings) (p : Spot) :
      (tryEnd around body p).current.isReachable = (p.current.isReachable && b.completes) ∧
      (tryEnd around body p).broken.any (·.isReachable) =
        (p.broken.any (·.isReachable) || p.current.isReachable && b.breaks) := by
    rw [tryEnd, hb.current, hb.broken]
    simp [tryBody, tryStart, startSegment_reachable, startSegment_broken]
  have handled (around : Surroundings) (p : Spot) :=
    walkArms_ends hl around (tryRisks around body p) (tryCatch around body p)
  refine ⟨fun around p => ?_, fun around p => ?_⟩
  · change (startSegment around.path (tryEnds around body (l.map flow) orelse p)
      (tryLeft around body (l.map flow) orelse p)).2.current.isReachable = _
    rw [startSegment_reachable, tryEnds, List.any_cons, tryElse, he.current, tryGoOn,
      startSegment_reachable, tryHandled, (handled around p).1, tryRisks_reachable]
    simp [ended, Ends.andThen, Ends.either, Bool.and_or_distrib_left, Bool.and_assoc]
  · change (tryElse around body (l.map flow) orelse p).broken.any _ = _
    rw [tryElse, he.broken, tryGoOn, startSegment_reachable, startSegment_broken, tryHandled,
      (handled around p).2, tryRisks_reachable, tryCatch]
    simp [ended, Ends.andThen, Ends.either, Bool.and_or_distrib_left, Bool.and_assoc, Bool.or_assoc]
    exact congrArg _ (congrArg _ (Bool.or_comm _ _))

end Flow

/-- The categories whose nodes run straight on. -/
def Category.runsOn : Category → Bool
  | .statement | .handler | .matchCase | .program => false
  | _ => true

namespace Node

open LostUpdate.Flow

variable {n c : Node}

theorem ends_of_form {f : Form Node} (hn : n.form = f) : n.ends = (mk n.id n.span f).ends := by
  subst hn
  cases n
  rfl

theorem ends_of_category (h : n.form.category.runsOn = true) : n.ends = .straight := by
  cases n with
  | mk i s f =>
    rw [ends.eq_def]
    cases f <;> simp_all [form, Form.category, Form.isExpression, Category.runsOn]

theorem ends_of_functionLike (h : n.isFunctionLike = true) : n.ends = .straight := by
  cases n with
  | mk i s f =>
    rw [ends.eq_def]
    cases f <;> simp_all [isFunctionLike, Form.isFunctionLike, form]

/-- What stands in a field for no statements runs straight on. -/
theorem ends_of_field (h : n.fits = true) {k : Category} {l : List Node}
    (hl : (k, l) ∈ n.form.fields) (hk : k.runsOn = true) : ∀ c ∈ l, c.ends = .straight :=
  fun c hc => ends_of_category (by rwa [category_of_fits h hl hc])

theorem ends_of_children (h : n.fits = true) (hn : ∀ f ∈ n.form.fields, f.1.runsOn = true) :
    ∀ c ∈ n.children, c.ends = .straight := by
  intro c hc
  rw [children, ← n.form.flatMap_fields] at hc
  obtain ⟨⟨k, l⟩, hl, hc⟩ := List.mem_flatMap.1 hc
  exact ends_of_field h hl (hn _ hl) c hc

theorem endsAs_straight {g : Node → Flow} {l : List Node} (h : ∀ c ∈ l, (g c).EndsAs c.ends)
    (hl : ∀ c ∈ l, c.ends = .straight) : (sequence (l.map g)).EndsAs .straight := by
  rw [← Ends.all_straight (l := l.map ends) (by simpa using hl)]
  exact endsAs_sequence h

/-- Parts in a row end as the statements among them do, which are the last. -/
theorem ends_of_row (h : n.fits = true) (hn : n.form.isRow = true) :
    n.ends = .all (n.children.map ends) := by
  have straight {k : Category} {l : List Node} (hl : (k, l) ∈ n.form.fields)
      (hk : k.runsOn = true) : ∀ c ∈ l, c.ends = .straight := ends_of_field h hl hk
  have statements {before body : List Node} (hb : ∀ c ∈ before, c.ends = .straight) :
      Ends.all ((before ++ body).map ends) = .all (body.map ends) := by
    rw [List.map_append, Ends.all_append, Ends.all_straight (by simpa using hb),
      Ends.straight_andThen]
  cases n with
  | mk i s f =>
    rw [ends.eq_def]
    cases f
    case function | lambda | comprehension | classDef | ifStmt | conditional | boolean | matchStmt
        | whileLoop | forLoop | tryStmt | breakStmt | continueStmt | returnStmt | raiseStmt
        | dict => cases hn
    case module | interactive => rfl
    case withStmt isAsync items body =>
      exact (statements (straight (k := .withItem) (by simp [form, Form.fields]) rfl)).symm
    case handler exception name body =>
      exact (statements (straight (k := .expression) (by simp [form, Form.fields]) rfl)).symm
    case matchCase pattern guard body =>
      have parts : ∀ c ∈ pattern :: guard.toList, c.ends = .straight := List.forall_mem_cons.2
        ⟨straight (k := .pattern) (l := [pattern]) (by simp [form, Form.fields]) rfl pattern
          List.mem_cons_self, straight (k := .expression) (by simp [form, Form.fields]) rfl⟩
      exact (statements parts).symm
    -- The parts of all other forms in a row run straight on.
    all_goals
      have all := ends_of_children h (by simp [form, Form.fields, Category.runsOn])
      exact (Ends.all_straight (List.forall_mem_map.2 all)).symm

theorem EndsAs.around {f : Flow} {e : Ends} (h : f.EndsAs e) (n : Node) :
    (Flow.seq (.enter n) (.seq f (.exit n))).EndsAs e := by
  have whole := (endsAs_enter n).seq (h.seq (endsAs_exit n))
  rwa [Ends.straight_andThen, Ends.andThen_straight] at whole

theorem hasNoFinal_part (h : n.hasNoFinal = true) (hc : c ∈ n.inPlace) : c.hasNoFinal = true := by
  rw [hasNoFinal.eq_def] at h
  simp only [Bool.and_eq_true, List.all_eq_true] at h
  exact h.2 ⟨c, hc⟩ (List.mem_attach _ _)

theorem final_eq_nil {isStar : Bool} {body handlers orelse final : List Node}
    (h : n.hasNoFinal = true) (hn : n.form = .tryStmt isStar body handlers orelse final) :
    final = [] := by
  rw [hasNoFinal.eq_def, hn] at h
  simpa using (Bool.and_eq_true_iff.1 h).1

/-- What stands in a field for expressions runs straight on. -/
theorem EndsAs.of_expression {l : List Node} (h : n.fits = true)
    (hl : (.expression, l) ∈ n.form.fields) (ih : ∀ c ∈ l, c.placedFlow.EndsAs c.ends) :
    ∀ c ∈ l, c.placedFlow.EndsAs .straight := fun c hc => by
  rw [← ends_of_field h hl rfl c hc]
  exact ih c hc

section Grammatical

variable (h : n.isGrammatical = true)

include h

theorem innerFlow_endsAs (hfinal : n.hasNoFinal = true)
    (ih : ∀ c ∈ n.inPlace, c.placedFlow.EndsAs c.ends) : n.innerFlow.EndsAs n.ends := by
  have fits := isGrammatical.fits h
  have shape := innerFlow_shape h
  generalize n.innerFlow = g at shape ⊢
  have step : ∀ c ∈ n.steps, c.placedFlow.EndsAs c.ends :=
    fun c hc => ih c (mem_inPlace_of_mem_steps hc)
  have all (hn : ∀ f ∈ n.form.fields, f.1.runsOn = true) : ∀ c ∈ n.children, c.ends = .straight :=
    ends_of_children fits hn
  cases shape with
  | row hn =>
    rw [inPlace_of_plain (isFunctionLike_of_isRow hn)] at ih
    rw [ends_of_row fits hn]
    exact endsAs_sequence ih
  | function hf =>
    rw [inPlace, if_pos hf] at ih
    rw [ends_of_functionLike hf]
    exact (endsAs_straight ih fun c hc =>
      ends_of_category (by rw [category_of_heading h hf hc]; rfl)).seq (endsAs_codePath n _)
  | entries hn =>
    simp only [steps, hn] at step
    rw [ends_of_category (by rw [hn]; rfl)]
    refine endsAs_straight step fun c hc => all ?_ c ?_
    · simp [hn, Form.fields, Category.runsOn]
    · rw [children, hn]
      exact mem_children_of_mem_interleave hc
  | turns hn hf =>
    replace all := all (by simp [hn, Form.fields, Category.runsOn])
    simp only [inPlace_of_plain hf, children, hn, Form.children, List.forall_mem_append] at ih all
    rw [ends_of_category (by rw [hn]; rfl)]
    exact (endsAs_straight ih.2 all.2).seq (endsAs_straight ih.1 all.1)
  | breakStmt hn | continueStmt hn =>
    rw [ends_of_form hn, ends.eq_def]
    exact endsAs_jump _
  | returnStmt hn | raiseStmt hn =>
    replace all := all (by simp [hn, Form.fields, Category.runsOn])
    simp only [steps, hn] at step
    rw [ends_of_form hn, ends.eq_def]
    exact (endsAs_straight step all).seq (endsAs_jump _)
  | noLinks hn =>
    rw [ends_of_category (by rw [hn]; rfl)]
    have none : ∀ c ∈ ([] : List Node), c.placedFlow.EndsAs .straight := by simp
    exact endsAs_chain none
  | links hn =>
    rw [ends_of_category (by rw [hn]; rfl)]
    simp only [steps, hn, children, Form.children] at step
    have parts := EndsAs.of_expression fits (by simp [hn, Form.fields]) step
    simp only [List.forall_mem_cons] at parts
    exact parts.1.seq (endsAs_chain parts.2)
  | conditional hn =>
    rw [ends_of_category (by rw [hn]; rfl)]
    simp only [steps, hn, children, Form.children] at step
    have parts := EndsAs.of_expression fits (by simp [hn, Form.fields]) step
    simp only [List.forall_mem_cons] at parts
    obtain ⟨inTest, inBody, inElse, -⟩ := parts
    exact inTest.seq (inBody.branch inElse)
  | classDef hn =>
    have heading : ∀ c ∈ n.heading, c.ends = .straight := by
      simp only [Node.heading, hn, List.forall_mem_append]
      exact ⟨⟨ends_of_field fits (k := .expression) (by simp [hn, Form.fields]) rfl,
        ends_of_field fits (k := .expression) (by simp [hn, Form.fields]) rfl⟩,
        ends_of_field fits (k := .keyword) (by simp [hn, Form.fields]) rfl⟩
    simp only [steps, hn, List.forall_mem_append] at step
    have whole := (endsAs_straight step.1 heading).seq (endsAs_sequence step.2)
    rw [Ends.straight_andThen] at whole
    rwa [ends_of_form hn, ends.eq_def]
  | @branch test body orelse hn =>
    simp only [steps, hn, children, Form.children, List.forall_mem_cons,
      List.forall_mem_append] at step
    obtain ⟨inTest, inBody, inElse⟩ := step
    have first := EndsAs.of_expression fits (l := [test]) (by simp [hn, Form.fields])
      (by simpa using inTest) test List.mem_cons_self
    have whole := first.seq ((endsAs_sequence inBody).branch (endsAs_sequence inElse))
    rw [Ends.straight_andThen] at whole
    rwa [ends_of_form hn, ends.eq_def]
  | @cases subject cases hn =>
    simp only [steps, hn, children, Form.children, List.forall_mem_cons] at step
    obtain ⟨inSubject, inCases⟩ := step
    have first := EndsAs.of_expression fits (l := [subject]) (by simp [hn, Form.fields])
      (by simpa using inSubject) subject List.mem_cons_self
    have whole := first.seq (endsAs_choose true inCases)
    rw [Ends.straight_andThen] at whole
    rwa [ends_of_form hn, ends.eq_def]
  | @whileLoop test body orelse hn =>
    simp only [steps, hn, children, Form.children, List.forall_mem_cons,
      List.forall_mem_append] at step
    obtain ⟨inTest, inBody, inElse⟩ := step
    have head := EndsAs.of_expression fits (l := [test]) (by simp [hn, Form.fields])
      (by simpa using inTest) test List.mem_cons_self
    have whole := head.loop (endsAs_sequence inBody) (endsAs_sequence inElse)
    rwa [ends_of_form hn, ends.eq_def]
  | @forLoop isAsync target iterable body orelse hn =>
    simp only [steps, hn, children, Form.children, List.forall_mem_cons,
      List.forall_mem_append] at step
    obtain ⟨inTarget, inIterable, inBody, inElse⟩ := step
    have parts := EndsAs.of_expression fits (l := [target, iterable]) (by simp [hn, Form.fields])
      (by simpa using ⟨inTarget, inIterable⟩)
    simp only [List.forall_mem_cons] at parts
    obtain ⟨head, first, -⟩ := parts
    have whole := first.seq (head.loop (endsAs_sequence inBody) (endsAs_sequence inElse))
    rw [Ends.straight_andThen] at whole
    rwa [ends_of_form hn, ends.eq_def]
  | attempt hn =>
    simp only [steps, hn, children, Form.children, List.forall_mem_append] at step
    obtain ⟨⟨⟨inBody, inHandlers⟩, inElse⟩, -⟩ := step
    have whole := (endsAs_sequence inBody).attempt inHandlers (endsAs_sequence inElse)
    rwa [ends_of_form hn, ends.eq_def]
  | final hn => exact absurd (final_eq_nil hfinal hn) (by simp)

theorem clauseFlow_endsAs (hn : n.isClause = true)
    (ih : ∀ c ∈ n.children, c.placedFlow.EndsAs c.ends) : (n.clauseFlow false).EndsAs n.ends := by
  have category := isClause_eq_true_iff.1 hn
  obtain ⟨target, iterable, conditions, isAsync, hform⟩ := exists_clause category
  have parts : ∀ c ∈ iterable :: target :: conditions, c.flow.EndsAs .straight := fun c hc => by
    have hexpr : c.form.category = .expression :=
      category_of_fits (isGrammatical.fits h) (l := target :: iterable :: conditions)
        (by simp [hform, Form.fields]) (by simp only [List.mem_cons] at hc ⊢; tauto)
    rw [← placedFlow_of_category (by simp [hexpr]), ← ends_of_category (n := c) (by rw [hexpr]; rfl)]
    exact ih c (by simp only [children, hform, Form.children, List.mem_cons] at hc ⊢; tauto)
  simp only [List.forall_mem_cons] at parts
  obtain ⟨inIterable, inTarget, inConditions⟩ := parts
  rw [clauseFlow_eq hform, ends_of_category (by rw [category]; rfl)]
  have rest : (Flow.sequence (conditions.map flow)).EndsAs .straight := by
    rw [← Ends.all_straight (l := conditions.map fun _ => .straight) (by simp)]
    exact endsAs_sequence inConditions
  exact EndsAs.around (inIterable.seq (inTarget.seq rest)) n

/-- The flow of a node ends as the node does. -/
theorem placedFlow_endsAs (hfinal : n.hasNoFinal = true) : n.placedFlow.EndsAs n.ends := by
  induction n, h using induct_parts with
  | step n h ih =>
    have part {c : Node} (hc : c ∈ n.inPlace) : c.placedFlow.EndsAs c.ends :=
      ih c (List.mem_append_left _ hc) (hasNoFinal_part hfinal hc)
    by_cases hclause : n.isClause = true
    · rw [placedFlow, if_pos hclause]
      refine clauseFlow_endsAs h hclause fun c hc => part ?_
      rwa [inPlace_of_plain]
      cases hform : n.form <;> simp_all [isClause, isFunctionLike, Form.isFunctionLike]
    rw [placedFlow, if_neg hclause, flow_eq]
    refine EndsAs.around ?_ n
    exact innerFlow_endsAs h hfinal fun c hc => part hc

end Grammatical

/-- The lists of statements that a node holds and runs where it stands. -/
def statementLists (n : Node) : List (List Node) :=
  match n.form with
  | .module body | .interactive body | .classDef _ _ _ body _ | .withStmt _ _ body
  | .handler _ _ body | .matchCase _ _ body => [body]
  | .ifStmt _ body orelse | .whileLoop _ body orelse | .forLoop _ _ _ body orelse => [body, orelse]
  | .tryStmt _ body _ orelse final => [body, orelse, final]
  | _ => []

/-- `l` is the body of the function `f` or a list of statements that runs as a part of its code. -/
def RunsStatements (f : Node) (l : List Node) : Prop :=
  (∃ isAsync name parameters decorators returns,
    f.form = .function isAsync name parameters l decorators returns) ∨
  ∃ y, f.Runs (fun _ _ => True) y ∧ l ∈ y.statementLists

variable {f : Node} {l : List Node}

theorem field_of_statementLists (hl : l ∈ n.statementLists) :
    (.statement, l) ∈ n.form.fields := by
  unfold statementLists at hl
  split at hl <;> simp_all [Form.fields]

/-- Statements of a node are walked where it is. -/
theorem holds_statements (hl : l ∈ n.statementLists) :
    Holds [] (sequence (l.map flow)) n.flow := by
  let g := sequence (l.map flow)
  have rises : Rises (Holds [] g) := Holds.rises (List.nil_subset _) g
  have self : Holds [] g g := .self [] g
  have after (before : List Node) : Holds [] g (sequence ((before ++ l).map flow)) := by
    induction before with
    | nil => exact self
    | cons c before ih => exact rises.second ih
  refine rises_flow rises ?_
  cases n with
  | mk i s f =>
    rw [innerFlow.eq_def]
    cases f
    case ifStmt test body orelse =>
      simp only [statementLists, form, List.mem_cons, List.not_mem_nil, or_false] at hl
      rcases hl with rfl | rfl
      · exact rises.second (rises.arm List.mem_cons_self self)
      · exact rises.second (rises.arm (List.mem_cons_of_mem _ List.mem_cons_self) self)
    case whileLoop test body orelse =>
      simp only [statementLists, form, List.mem_cons, List.not_mem_nil, or_false] at hl
      rcases hl with rfl | rfl
      · exact rises.turn self
      · exact rises.leaving self
    case forLoop isAsync target iterable body orelse =>
      simp only [statementLists, form, List.mem_cons, List.not_mem_nil, or_false] at hl
      rcases hl with rfl | rfl
      · exact rises.second (rises.turn self)
      · exact rises.second (rises.leaving self)
    case tryStmt isStar body handlers orelse final =>
      simp only [statementLists, form, List.mem_cons, List.not_mem_nil, or_false] at hl
      rcases hl with rfl | rfl | rfl
      · exact .attempted self (by simp)
      · exact .succeeded self
      · cases l with
        | nil =>
          exact fun done around p here => ⟨[], around, p, _, rfl, by simpa using here, rfl, by simp⟩
        | cons c l => exact .final self
    case classDef name bases keywords body decorators =>
      obtain rfl := List.mem_singleton.1 hl
      exact rises.second self
    case withStmt isAsync items body =>
      obtain rfl := List.mem_singleton.1 hl
      simp only [map_flow_attach]
      exact after items
    case handler exception name body =>
      obtain rfl := List.mem_singleton.1 hl
      simp only [map_flow_attach]
      exact after exception.toList
    case matchCase pattern guard body =>
      obtain rfl := List.mem_singleton.1 hl
      simp only [map_flow_attach]
      exact after (pattern :: guard.toList)
    case module body | interactive body =>
      obtain rfl := List.mem_singleton.1 hl
      simp only [map_flow_attach]
      exact after []
    all_goals simp [statementLists, form] at hl

theorem holds_runsStatements (h : f.isGrammatical = true) (hl : f.RunsStatements l) :
    Holds [] (sequence (l.map flow)) f.programFlow := by
  rcases hl with ⟨isAsync, name, parameters, decorators, returns, hf⟩ | ⟨y, hy, hl⟩
  · have body : f.programFlow = sequence (l.map flow) := by
      rw [programFlow, if_pos (by simp [isFunctionLike, hf, Form.isFunctionLike]),
        bodyFlow_function hf]
    rw [body]
    exact .self [] _
  · exact (holds_statements hl).trans (holds_runs (List.nil_subset _) (by simp [HandsOn]) hy h)

/-- Statements run as a part of a code are nodes of it. -/
theorem mem_preorder_of_runsStatements (h : f.isGrammatical = true) (hl : f.RunsStatements l) :
    ∀ c ∈ l, c ∈ f.preorder ∧ c.form.category = .statement := by
  obtain ⟨y, hy, field⟩ : ∃ y ∈ f.preorder, (.statement, l) ∈ y.form.fields := by
    rcases hl with ⟨isAsync, name, parameters, decorators, returns, hf⟩ | ⟨y, hy, hl⟩
    · exact ⟨f, f.mem_preorder_self, by simp [hf, Form.fields]⟩
    · exact ⟨y, mem_preorder_of_runs hy h, field_of_statementLists hl⟩
  intro c hc
  have child : c ∈ y.children := by
    rw [children, ← y.form.flatMap_fields]
    exact List.mem_flatMap.2 ⟨_, field, hc⟩
  exact ⟨mem_preorder_trans hy (mem_preorder_of_mem_children child),
    category_of_fits (isGrammatical.fits (isGrammatical_of_mem h hy)) field hc⟩

end Node

namespace CodePath

open Node Walk Event

variable {t : Tree} {n : Node} {p : CodePath} {l : List Node}

/-- Statements that run in a code path, without final parts among them. If control can be where they
start, it can be where they end just if they can complete. If not, no segment starts in the path
while they are walked that control can reach. Reach is a matter of one path: the other segments that
start then are those of functions inside, each with a code path that starts there afresh, so the first
of these can be reached even where the statements cannot. -/
theorem completes_iff (hg : t.root.isGrammatical = true) (hn : n ∈ t.nodes)
    (hp : p ∈ ofEvents n.events) (hl : p.owner.RunsStatements l)
    (hfinal : ∀ c ∈ l, c.hasNoFinal = true) :
    ∃ done around q later,
      n.events = done ++ (((Flow.sequence (l.map flow)).walk around q).1 ++ later) ∧
      At done around q ∧ around.path = p.id ∧
      (q.current.isReachable = true →
        (((Flow.sequence (l.map flow)).walk around q).2.current.isReachable = true ↔
          (Ends.all (l.map ends)).completes = true)) ∧
      (q.current.isReachable = false →
        ∀ s, .segment s ∈ ((Flow.sequence (l.map flow)).walk around q).1 → s.id.path = p.id →
          s.isReachable = false) ∧
      ∀ s, .segment s ∈ ((Flow.sequence (l.map flow)).walk around q).1 → s.id.path ≠ p.id →
        ∃ f upper, .pathStart s.id.path f upper ∈
          ((Flow.sequence (l.map flow)).walk around q).1 := by
  have inTree : n ∈ (GrammaticalTree.mk t hg).nodes := hn
  have owner := isGrammatical_of_mem hg (owner_mem inTree hp)
  obtain ⟨done, around, q, ⟨later, hevents⟩, here, hpath, -⟩ :=
    exists_at_of_holds inTree hp (List.nil_subset _) (holds_runsStatements owner hl)
  have mem : ∀ c ∈ l, c ∈ p.owner.preorder ∧ c.form.category = .statement := fun c hc =>
    mem_preorder_of_runsStatements owner hl c hc
  refine ⟨done, around, q, later, by rw [← hevents, List.append_assoc], here, hpath, fun alive => ?_,
    fun dead s hs hid => ?_, fun s hs hid => ?_⟩
  · have parts : ∀ c ∈ l, c.flow.EndsAs c.ends := fun c hc => by
      rw [← placedFlow_of_category (by simp [mem c hc])]
      exact placedFlow_endsAs (isGrammatical_of_mem owner (mem c hc).1) (hfinal c hc)
    rw [(Flow.endsAs_sequence parts).current, alive, Bool.true_and]
  · have quiet := Flow.walk_dead around (Flow.sequence (l.map flow))
      (⟨dead, .refl _, .refl _, .refl _⟩ : q.IsDead q)
    exact quiet.events _ (mem_segments.1 (here.mem_own _ hs (hid.trans hpath.symm)))
  · have framed : (Flow.sequence (l.map flow)).Framed :=
      .sequence fun c hc => flow_framed (isGrammatical_of_mem owner (mem c hc).1)
    have allowed := n.events_allowed.1
    rw [← hevents, List.append_assoc] at allowed
    obtain ⟨rest, path, hopened, -, ha⟩ := here.stands
    have opened : (Trail.empty.after done).opened.map (·.id) = path.id :: rest.map (·.id) := by
      rw [hopened]
      rfl
    have bracketed := framed.walk_bracketed around q
    refine (bracketed.path_of_segment ?_ opened hs).resolve_left fun same => ?_
    · exact (Trail.allowsAll_append.1 (Trail.allowsAll_append.1 allowed).2).1
    · exact hid (same.trans (ha.path_eq.symm.trans hpath))

end CodePath

namespace Scan

def guarded : Node :=
  .mk 5 none (.tryStmt false
    [.mk 6 none (.ifStmt (.mk 7 none (.name "found" .load)) [.mk 8 none .breakStmt] []),
      .mk 9 none (.returnStmt none)]
    [.mk 10 none (.handler (some (.mk 11 none (.name "Error" .load))) none
      [.mk 12 none .continueStmt])] [] [])

def body : List Node :=
  [.mk 3 none (.whileLoop (.mk 4 none (.name "more" .load)) [guarded]
    [.mk 13 none (.raiseStmt none none)]),
    .mk 14 none (.exprStmt (.mk 15 none (.name "tick" .load)))]

def function : Node :=
  .mk 1 none (.function false "scan" (.mk 2 none (.parameterList ⟨[], [], none, [], [], none, []⟩))
    body [] none)

/-- A function whose loop can only be left by a `break` inside of a `try`:

    def scan():
        while more:
            try:
                if found:
                    break
                return
            except Error:
                continue
        else:
            raise
        tick
-/
def root : Node := .mk 0 none (.module [function])

def tree : Tree := ⟨root, root.edges, rfl, pairwise_of_strictlyAscending (by cbv)⟩

theorem isGrammatical : tree.root.isGrammatical = true := by cbv

theorem root_mem : root ∈ tree.nodes := root.mem_preorder_self

theorem exists_path : ∃ p ∈ CodePath.ofEvents root.events, p.owner = function := by
  have owners : (CodePath.ofEvents root.events).map (·.owner) = [root, function] := by cbv
  exact List.mem_map.1 (owners ▸ List.mem_cons_of_mem _ List.mem_cons_self :
    function ∈ (CodePath.ofEvents root.events).map (·.owner))

/-- Statements are walked from where control can be, if the segment that runs when the first of them
is entered can be reached. -/
theorem isReachable_of_enter {l : List Node} {c : Node} {k : ℕ} (hl : l.head? = some c)
    (hk : root.events = root.events.take k ++ .enter c :: root.events.drop (k + 1))
    (alive : (Trail.empty.after (root.events.take k)).segment?.map (·.isReachable) = some true)
    {done later : List Event} {around : Surroundings} {q : Spot}
    (h : root.events = done ++ (((Flow.sequence (l.map Node.flow)).walk around q).1 ++ later))
    (here : Walk.At done around q) : q.current.isReachable = true := by
  obtain ⟨rest, rfl⟩ := List.head?_eq_some_iff.1 hl
  have distinct : (Event.nodes Stop.entered? root.events).Nodup :=
    GrammaticalTree.nodup_events (t := ⟨tree, isGrammatical⟩) root_mem Stop.shows_entered?
  rw [List.map_cons, Node.flow_eq] at h
  rw [hk] at distinct
  obtain ⟨same, -, -⟩ := split_unique distinct (hk.symm.trans h) rfl rfl
  rw [same, here.segment?] at alive
  simpa using alive

end Scan

/-- The body of `scan` completes, and the body of its loop does not. -/
theorem CodePath.completes_iff_scan : ∃ p ∈ ofEvents Scan.root.events, p.owner = Scan.function ∧
    (∃ around q, ((Flow.sequence (Scan.body.map Node.flow)).walk around q).1 <:+: Scan.root.events ∧
      q.current.isReachable = true ∧
        ((Flow.sequence (Scan.body.map Node.flow)).walk around q).2.current.isReachable = true) ∧
    ∃ around q, ((Flow.sequence ([Scan.guarded].map Node.flow)).walk around q).1 <:+:
        Scan.root.events ∧ q.current.isReachable = true ∧
      ¬ ((Flow.sequence ([Scan.guarded].map Node.flow)).walk around q).2.current.isReachable =
        true := by
  obtain ⟨p, hp, howner⟩ := Scan.exists_path
  have whole : p.owner.RunsStatements Scan.body := howner ▸ .inl ⟨_, _, _, _, _, rfl⟩
  have inLoop : p.owner.RunsStatements [Scan.guarded] := by
    rw [howner]
    exact .inr ⟨_, ⟨_, List.mem_cons_self, _, List.mem_cons_self, .self⟩, List.mem_cons_self⟩
  obtain ⟨done, around, q, later, hevents, here, -, completes, -⟩ :=
    completes_iff Scan.isGrammatical Scan.root_mem hp whole
      (List.all_eq_true.1 (by cbv : Scan.body.all Node.hasNoFinal = true))
  obtain ⟨done', around', q', later', hevents', here', -, completes', -⟩ :=
    completes_iff Scan.isGrammatical Scan.root_mem hp inLoop
      (List.all_eq_true.1 (by cbv : [Scan.guarded].all Node.hasNoFinal = true))
  have alive : q.current.isReachable = true :=
    Scan.isReachable_of_enter (k := 6) rfl (by cbv) (by cbv) hevents here
  have alive' : q'.current.isReachable = true :=
    Scan.isReachable_of_enter (k := 11) rfl (by cbv) (by cbv) hevents' here'
  have stuck : (Ends.all ([Scan.guarded].map Node.ends)).completes = false := by cbv
  refine ⟨p, hp, howner, ⟨around, q, ⟨done, later, ?_⟩, alive, (completes alive).2 (by cbv)⟩,
    around', q', ⟨done', later', ?_⟩, alive', ?_⟩
  · rw [hevents, List.append_assoc]
  · rw [hevents', List.append_assoc]
  · rw [completes' alive', stuck]
    exact Bool.false_ne_true

end LostUpdate
