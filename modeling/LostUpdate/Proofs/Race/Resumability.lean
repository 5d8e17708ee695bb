import LostUpdate.Proofs.Scope.Correspondence
import LostUpdate.Proofs.Scope.Facts
import LostUpdate.Syntax.Resumable

namespace LostUpdate

namespace Node

def isYield (n : Node) : Bool :=
  match n.form with
  | .yield .. | .yieldFrom .. => true
  | _ => false

/-- Functions, generator expressions and classes. -/
def isDefinition (n : Node) : Bool :=
  match n.form with
  | .function .. | .lambda .. | .comprehension .generator .. | .classDef .. => true
  | _ => false

/-- Functions without `async`, which are resumable if they are generators. -/
def isSynchronous (n : Node) : Bool :=
  match n.form with
  | .function false .. | .lambda .. => true
  | _ => false

/-- `y` is in `n`, and in no definition that is in `n`, but perhaps as that definition itself. -/
inductive Exposes : Node → Node → Prop
  | self (n : Node) : Exposes n n
  | step {n c y : Node} : n.isDefinition = false → c ∈ n.children → Exposes c y → Exposes n y

section Exposure

variable {n y : Node}

theorem isDefinition_of_isFunctionLike (h : n.isFunctionLike = true) : n.isDefinition = true := by
  rcases isFunctionLike_cases h with ⟨_, _, _, _, _, _, hn⟩ | ⟨_, _, hn⟩ | ⟨_, _, hn⟩ <;>
    simp [isDefinition, hn]

theorem isFunctionLike_of_not_isDefinition (h : n.isDefinition = false) :
    n.isFunctionLike = false := by
  by_contra hf
  rw [Bool.not_eq_false] at hf
  simp [isDefinition_of_isFunctionLike hf] at h

theorem isClause_of_isDefinition (h : n.isDefinition = true) :
    n.isSignature = false ∧ n.isClause = false := by
  cases hform : n.form <;> simp_all [isDefinition, isSignature, isClause]

theorem isClause_of_isYield (h : n.isYield = true) :
    n.isSignature = false ∧ n.isClause = false := by
  cases hform : n.form <;> simp_all [isYield, isSignature, isClause]

theorem mem_preorder_of_exposes (h : n.Exposes y) : y ∈ n.preorder := by
  induction h with
  | self n => exact n.mem_preorder_self
  | step _ hc _ ih => exact mem_preorder_child hc ih

/-- The search finds what is exposed. -/
theorem containsYield_iff : n.containsYield = true ↔ ∃ y, n.Exposes y ∧ y.isYield = true := by
  induction n using induct with
  | step n ih =>
    have below : (n.children.attach.any fun c => c.1.containsYield) = true ↔
        ∃ c ∈ n.children, ∃ y, Exposes c y ∧ y.isYield = true := by
      simp only [List.any_eq_true, List.mem_attach, true_and, Subtype.exists]
      exact ⟨fun ⟨c, hc, h⟩ => ⟨c, hc, (ih c hc).1 h⟩, fun ⟨c, hc, h⟩ => ⟨c, hc, (ih c hc).2 h⟩⟩
    have unfolded : n.containsYield =
        (n.isYield || !n.isDefinition && n.children.attach.any fun c => c.1.containsYield) := by
      rw [containsYield]
      cases hform : n.form
      case comprehension collector elements clauses =>
        cases collector <;> simp [isYield, isDefinition, hform]
      all_goals simp [isYield, isDefinition, hform]
    rw [unfolded, Bool.or_eq_true, Bool.and_eq_true, Bool.not_eq_true', below]
    constructor
    · rintro (hy | ⟨hd, c, hc, y, hexposes, hy⟩)
      · exact ⟨n, .self n, hy⟩
      · exact ⟨y, .step hd hc hexposes, hy⟩
    · rintro ⟨y, hexposes, hy⟩
      cases hexposes with
      | self => exact .inl hy
      | step hd hc hexposes => exact .inr ⟨hd, _, hc, y, hexposes, hy⟩

theorem isFunctionLike_of_isSynchronous (h : n.isSynchronous = true) : n.isFunctionLike = true := by
  cases hform : n.form <;> simp_all [isSynchronous, isFunctionLike, Form.isFunctionLike]

theorem mem_children_of_isSynchronous (h : n.isSynchronous = true) {c : Node} (hc : c ∈ n.ownCode) :
    c ∈ n.children := by
  cases hform : n.form <;> simp_all [isSynchronous, ownCode, children, Form.children]

theorem isResumable_of_isSynchronous (h : n.isSynchronous = true) :
    n.isResumable = n.ownCode.any containsYield := by
  cases hform : n.form
  case function isAsync name parameters body decorators returns =>
    cases isAsync <;> simp_all [isSynchronous, isResumable, ownCode]
  all_goals simp_all [isSynchronous, isResumable, ownCode]

/-- What is in `n` is exposed, or hidden by a definition that is. -/
theorem exposes_or_hidden (h : y ∈ n.preorder) : n.Exposes y ∨
    ∃ d, n.Exposes d ∧ d.isDefinition = true ∧ y ∈ d.children.flatMap preorder := by
  induction n using induct with
  | step n ih =>
    rw [preorder_eq, List.mem_cons] at h
    rcases h with rfl | h
    · exact .inl (.self y)
    · by_cases hd : n.isDefinition = true
      · exact .inr ⟨n, .self n, hd, h⟩
      · rw [Bool.not_eq_true] at hd
        obtain ⟨c, hc, hy⟩ := List.mem_flatMap.1 h
        rcases ih c hc hy with hexposes | ⟨d, hexposes, hdefinition, hy⟩
        · exact .inl (.step hd hc hexposes)
        · exact .inr ⟨d, .step hd hc hexposes, hdefinition, hy⟩

/-- What is exposed is entered by the code that enters `n`. -/
theorem enter_of_exposes (h : n.Exposes y) (hg : n.isGrammatical = true)
    (hs : y.isSignature = false) (hc : y.isClause = false) (os : List Node) :
    (os, Stop.enter y) ∈ n.flow.visits os := by
  induction h with
  | self n =>
    rw [(visits_flow os hg).mem_iff]
    simp [ownVisits]
  | @step n c y hd hchild _ ih =>
    rw [(visits_flow os hg).mem_iff,
      inPlace_of_plain (isFunctionLike_of_not_isDefinition hd)]
    have inner := ih (isGrammatical_child hg hchild) hs hc
    simp only [List.mem_append, List.mem_flatMap]
    exact .inl (.inr ⟨c, hchild, inner⟩)

/-- What is entered while `f` is the innermost function stands in the code of `f`, unless `f` is the
innermost already where the walk starts. -/
theorem mem_ownCode_of_enter (hg : n.isGrammatical = true) {os outer : List Node} {f x : Node}
    (hv : (f :: outer, Stop.enter x) ∈ n.flow.visits os) (hx : x.isClause = false) :
    os = f :: outer ∨ x ∈ f.ownCode.flatMap preorder := by
  induction n, hg using induct_parts generalizing os with
  | step n hg ih =>
    rw [(visits_flow os hg).mem_iff] at hv
    simp only [List.mem_append, List.mem_flatMap] at hv
    rcases hv with ((hv | hv) | ⟨c, hc, hv⟩) | ⟨c, hc, hv⟩
    · left
      unfold ownVisits at hv
      split_ifs at hv <;> simp_all
    · obtain ⟨q, hq, hv⟩ := List.mem_flatMap.1 hv
      obtain rfl : x = q := by simp_all
      simp [isClause_of_firstClause hg hq] at hx
    · exact ih c (List.mem_append_left _ hc) hv
    · have part := List.mem_append_right n.inPlace hc
      rcases ih c part hv with hos | hmem
      · obtain ⟨rfl, -⟩ := List.cons.inj hos
        have grammatical := isGrammatical_of_part hg part
        exact .inr (List.mem_flatMap.2
          ⟨c, hc, mem_preorder_of_visit Stop.shows_entered? grammatical hv rfl⟩)
      · exact .inr hmem

end Exposure

end Node

namespace Tree

variable {t : Tree} {f x d y c : Node}

/-- A definition that holds what is exposed in `c`, but is not it, holds `c` as well. -/
theorem mem_below_of_exposes (hc : c ∈ t.nodes) (h : c.Exposes y) (hd : d ∈ t.nodes)
    (hdefinition : d.isDefinition = true) (hy : y ∈ d.children.flatMap Node.preorder) :
    c ∈ d.children.flatMap Node.preorder := by
  induction h with
  | self => exact hy
  | @step n e y hplain hchild _ ih =>
    have below := ih (mem_nodes_of_mem_children hc hchild) hy
    rcases eq_or_mem_below_of_parent hd hc hchild below with rfl | hbelow
    · simp [hplain] at hdefinition
    · exact hbelow

end Tree

namespace GrammaticalTree

open LostUpdate.Tree

variable {t : GrammaticalTree} {f x d y c : Node}

/-- What a function's code path enters stands in the code of the function. -/
theorem mem_ownCode (h : t.EntersIn f x) (hr : t.root.isFunctionLike = false)
    (hl : f.isFunctionLike = true) (hx : x.isClause = false) :
    x ∈ f.ownCode.flatMap Node.preorder := by
  obtain ⟨outer, hv⟩ := h
  rw [Node.visits_events_of_plain hr, List.mem_cons] at hv
  rcases Node.mem_ownCode_of_enter t.isGrammatical (hv.resolve_left (by simp)) hx with hos | hmem
  · obtain ⟨rfl, -⟩ := List.cons.inj hos
    simp [hl] at hr
  · exact hmem

/-- What is entered by the walk of a node is entered where the program walks that node. -/
theorem entersIn_of_visit (hr : t.root.isFunctionLike = false)
    (hclause : d.isClause = false) {owners : List Node} (outer : List Node)
    (hd : (owners, Stop.enter d) ∈ t.root.flow.visits [t.root])
    (hy : (f :: outer, Stop.enter y) ∈ d.flow.visits owners) : t.EntersIn f y := by
  refine ⟨outer, ?_⟩
  rw [Node.visits_events_of_plain hr]
  exact List.mem_cons_of_mem _ ((Node.piece_of_enter t.isGrammatical hd hclause).visits_block.subset hy)

section Parts

variable (hr : t.root.isFunctionLike = false) (hd : d ∈ t.nodes)
  (hy : c.Exposes y) (hplain : y.isSignature = false ∧ y.isClause = false)

include hd hy hplain

/-- What is exposed in a part of a node is entered with the part. -/
theorem enter_part (hc : c ∈ d.inPlace ++ d.ownCode) (os : List Node) :
    (os, Stop.enter y) ∈ c.flow.visits os := by
  have grammatical := t.isGrammatical_of_mem hd
  have below := Node.mem_preorder_of_below (Node.mem_below_of_part grammatical hc)
  exact Node.enter_of_exposes hy (Node.isGrammatical_of_mem grammatical below) hplain.1 hplain.2 os

include hr

/-- What is exposed in the code of a function is entered in its code path. -/
theorem entersIn_of_ownCode (hl : d.isFunctionLike = true) (hc : c ∈ d.ownCode) :
    t.EntersIn d y := by
  have plain := Node.isClause_of_isDefinition (Node.isDefinition_of_isFunctionLike hl)
  obtain ⟨outer, henter, -⟩ := Node.mem_visits_flow [t.root] t.isGrammatical hd plain.1
  refine entersIn_of_visit hr plain.2 outer henter ?_
  rw [(Node.visits_flow outer (t.isGrammatical_of_mem hd)).mem_iff]
  exact List.mem_append_right _ (List.mem_flatMap.2
    ⟨c, hc, enter_part hd hy hplain (List.mem_append_right _ hc) (d :: outer)⟩)

/-- What is exposed in the heading of a definition, or in the body of a class, is entered in the code
path in which the definition stands. -/
theorem entersIn_of_inPlace (h : t.EntersIn f d) (hclause : d.isClause = false)
    (hc : c ∈ d.inPlace) : t.EntersIn f y := by
  obtain ⟨outer, hv⟩ := h
  rw [Node.visits_events_of_plain hr, List.mem_cons] at hv
  refine entersIn_of_visit hr hclause outer (hv.resolve_left (by simp)) ?_
  rw [(Node.visits_flow (f :: outer) (t.isGrammatical_of_mem hd)).mem_iff]
  simp only [List.mem_append, List.mem_flatMap]
  exact .inl (.inr ⟨c, hc, enter_part hd hy hplain (List.mem_append_left _ hc) (f :: outer)⟩)

end Parts

/-- A function without `async` is resumable if its code path enters a `yield` outside of the
definitions that it enters. One that it enters in the heading of a definition, or in the body of a
class, does not count. -/
theorem isResumable_iff (hr : t.root.isFunctionLike = false)
    (hf : f ∈ t.nodes) (hs : f.isSynchronous = true) :
    f.isResumable = true ↔ ∃ y, y.isYield = true ∧ t.EntersIn f y ∧
      ∀ d ∈ t.nodes, d.isDefinition = true → t.EntersIn f d →
        y ∉ d.children.flatMap Node.preorder := by
  have hl := Node.isFunctionLike_of_isSynchronous hs
  rw [Node.isResumable_of_isSynchronous hs, List.any_eq_true]
  simp only [Node.containsYield_iff]
  constructor
  · rintro ⟨c, hc, y, hexposes, hy⟩
    refine ⟨y, hy, entersIn_of_ownCode hr hf hexposes (Node.isClause_of_isYield hy) hl hc,
      fun d hd hdefinition hv hmem => ?_⟩
    have child := Node.mem_children_of_isSynchronous hs hc
    have below := mem_below_of_exposes (mem_nodes_of_mem_children hf child) hexposes hd hdefinition
      hmem
    -- the definition is around the function and in its code at once
    have around : f ∈ d.preorder := by
      rcases eq_or_mem_below_of_parent hd hf child below with rfl | hbelow
      · exact f.mem_preorder_self
      · exact Node.mem_preorder_of_below hbelow
    obtain ⟨c', hc', hinside⟩ := List.mem_flatMap.1
      (mem_ownCode hv hr hl (Node.isClause_of_isDefinition hdefinition).2)
    have inside : d ∈ f.children.flatMap Node.preorder :=
      List.mem_flatMap.2 ⟨c', Node.mem_children_of_isSynchronous hs hc', hinside⟩
    have smaller := Node.sizeOf_lt_of_mem_below inside
    have larger := Node.sizeOf_le_of_mem_preorder around
    omega
  · rintro ⟨y, hy, hv, hfree⟩
    obtain ⟨c, hc, hmem⟩ := List.mem_flatMap.1
      (mem_ownCode hv hr hl (Node.isClause_of_isYield hy).2)
    rcases Node.exposes_or_hidden hmem with hexposes | ⟨d, hexposes, hdefinition, hbelow⟩
    · exact ⟨c, hc, y, hexposes, hy⟩
    · have mem := mem_nodes_trans (mem_nodes_of_mem_children hf
        (Node.mem_children_of_isSynchronous hs hc)) (Node.mem_preorder_of_exposes hexposes)
      have entered := entersIn_of_ownCode hr hf hexposes
        (Node.isClause_of_isDefinition hdefinition) hl hc
      exact absurd hbelow (hfree d mem hdefinition entered)

end GrammaticalTree

end LostUpdate
