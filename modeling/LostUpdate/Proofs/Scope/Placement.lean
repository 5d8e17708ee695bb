import LostUpdate.Proofs.Scope.Nesting
import LostUpdate.Proofs.Walk.Moments

namespace LostUpdate

/-- An annotated declaration of the bare name `x`, without a value. -/
def Node.Declares (n x : Node) : Prop :=
  x.isName = true ∧ ∃ hint simple, n.form = .annotated x hint none simple

/-- Uses and function scopes with the functions around them, innermost first. The functions around
each open scope are on the stack, `base` are those around the program. -/
def placed (base : List Node) : List (List Node) → List Directive → List (List Node × Node)
  | _, [] => []
  | stack, .use o :: ds => (stack.headD base, o.identifier) :: placed base stack ds
  | stack, .openScope .function block :: ds =>
    (stack.headD base, block) :: placed base ((block :: stack.headD base) :: stack) ds
  | stack, .openScope _ _ :: ds => placed base (stack.headD base :: stack) ds
  | stack, .closeScope :: ds => placed base stack.tail ds
  | stack, _ :: ds => placed base stack ds

/-- Directives that place the same wherever they stand, and close what they open. -/
def Places (ds : List Directive) (sites : List Node → List (List Node × Node)) : Prop :=
  ∀ base stack rest, placed base stack (ds ++ rest) =
    sites (stack.headD base) ++ placed base stack rest

/-- Directives that only bind or declare names. -/
def Directive.isSilent : Directive → Bool
  | .bind .. | .hoist .. | .declareGlobal _ | .declareNonlocal _ => true
  | _ => false

namespace Places

variable {ds es : List Directive} {f g : List Node → List (List Node × Node)}

theorem of_silent (h : ∀ d ∈ ds, d.isSilent = true) : Places ds fun _ => [] := by
  intro base stack rest
  induction ds with
  | nil => rfl
  | cons d ds ih =>
    have later := ih fun e he => h e (List.mem_cons_of_mem _ he)
    have silent := h d List.mem_cons_self
    cases d <;> simp_all [Directive.isSilent, placed]

theorem use (o : NameUse) : Places [.use o] fun os => [(os, o.identifier)] := by
  intro base stack rest
  rfl

theorem append (h : Places ds f) (h' : Places es g) :
    Places (ds ++ es) fun os => f os ++ g os := by
  intro base stack rest
  rw [List.append_assoc, h, h', List.append_assoc]

/-- A scope that is no function leaves its uses with the code around it. -/
theorem inline {kind : ScopeKind} (hk : kind ≠ .function) (block : Node) (h : Places ds f) :
    Places (.openScope kind block :: (ds ++ [.closeScope])) f := by
  intro base stack rest
  have opens : placed base stack (.openScope kind block :: (ds ++ [.closeScope] ++ rest)) =
      placed base (stack.headD base :: stack) (ds ++ [.closeScope] ++ rest) := by
    cases kind with
    | function => exact absurd rfl hk
    | _ => rfl
  rw [List.cons_append, opens, List.append_assoc, h]
  rfl

theorem function (block : Node) (h : Places ds f) :
    Places (.openScope .function block :: (ds ++ [.closeScope])) fun os =>
      (os, block) :: f (block :: os) := by
  intro base stack rest
  rw [List.cons_append, List.append_assoc]
  show (stack.headD base, block) :: placed base _ _ = _
  rw [h]
  rfl

end Places

/-- A name that is entered or a function that starts. -/
def Stop.site? : List Node × Stop → Option (List Node × Node)
  | (os, .enter x) => if x.isName then some (os, x) else none
  | (os, .start f) => some (os, f)
  | _ => none

namespace Node

/-- The names entered and functions started by the walk of some nodes, inside the code of `os`. -/
def sites (os : List Node) (l : List Node) : List (List Node × Node) :=
  l.flatMap fun c => (c.flow.visits os).filterMap Stop.site?

theorem sites_append (os : List Node) (l m : List Node) :
    sites os (l ++ m) = sites os l ++ sites os m :=
  List.flatMap_append

theorem not_isName_of_isFunctionLike {n : Node} (h : n.isFunctionLike = true) :
    n.isName = false := by
  cases hform : n.form <;> simp_all [isName, isFunctionLike, Form.isFunctionLike]

theorem not_isName_of_isClause {n : Node} (h : n.isClause = true) : n.isName = false := by
  cases hform : n.form <;> simp_all [isName, isClause]

/-- The sites of a node: itself, and those of its parts where they run. -/
theorem sites_node (os : List Node) {n : Node} (h : n.isGrammatical = true) :
    (sites os [n]).Perm ((if n.isName || n.isFunctionLike then [(os, n)] else []) ++
      sites os n.inPlace ++ sites (n :: os) n.ownCode) := by
  have parts := (visits_flow os h).filterMap Stop.site?
  have own : (n.ownVisits os).filterMap Stop.site? =
      if n.isName || n.isFunctionLike then [(os, n)] else [] := by
    unfold ownVisits
    by_cases hf : n.isFunctionLike = true
    · rw [if_pos hf]
      simp [hf, not_isName_of_isFunctionLike hf, Stop.site?, List.filterMap_cons]
    · by_cases hn : n.isName = true <;> simp [hf, hn, Stop.site?, List.filterMap_cons]
  have clause : (n.clauseVisits (n :: os)).filterMap Stop.site? = [] := by
    rw [clauseVisits, List.filterMap_flatMap, List.flatMap_eq_nil_iff]
    intro q hq
    simp [Stop.site?, not_isName_of_isClause (isClause_of_firstClause h hq)]
  rw [List.filterMap_append, List.filterMap_append, List.filterMap_append, own, clause,
    List.append_nil, List.filterMap_flatMap, List.filterMap_flatMap] at parts
  simpa [sites] using parts

end Node

/-- Directives place what the walk of some nodes visits, but for names that are only declared. -/
def Agree (ds : List Directive) (l : List Node) : Prop :=
  ∃ used declared : List Node → List (List Node × Node), Places ds used ∧
    ∀ os, (Node.sites os l).Perm (used os ++ declared os) ∧
      ∀ e ∈ declared os, ∃ p, p.Declares e.2 ∧
        (e.1, Stop.enter p) ∈ l.flatMap fun c => c.flow.visits os

namespace Agree

variable {ds es : List Directive} {l m : List Node} {n : Node}

theorem of_silent (h : ∀ d ∈ ds, d.isSilent = true) : Agree ds [] := by
  refine ⟨fun _ => [], fun _ => [], .of_silent h, fun os => ⟨?_, ?_⟩⟩
  · exact List.Perm.refl _
  · intro e he
    simp at he

theorem append (h : Agree ds l) (h' : Agree es m) : Agree (ds ++ es) (l ++ m) := by
  obtain ⟨used, declared, hplaces, hsites⟩ := h
  obtain ⟨used', declared', hplaces', hsites'⟩ := h'
  refine ⟨_, fun os => declared os ++ declared' os, hplaces.append hplaces', fun os => ⟨?_, ?_⟩⟩
  · have first := (hsites os).1
    have second := (hsites' os).1
    classical
    rw [List.perm_iff_count] at first second ⊢
    intro e
    have h₁ := first e
    have h₂ := second e
    simp only [Node.sites_append, List.count_append] at h₁ h₂ ⊢
    omega
  · intro e he
    rw [List.flatMap_append]
    rcases List.mem_append.1 he with he | he
    · obtain ⟨p, hp, hv⟩ := (hsites os).2 e he
      exact ⟨p, hp, List.mem_append_left _ hv⟩
    · obtain ⟨p, hp, hv⟩ := (hsites' os).2 e he
      exact ⟨p, hp, List.mem_append_right _ hv⟩

theorem silent_append (hd : ∀ d ∈ ds, d.isSilent = true) (h : Agree es l) : Agree (ds ++ es) l :=
  (of_silent hd).append h

theorem append_silent (h : Agree ds l) (he : ∀ d ∈ es, d.isSilent = true) : Agree (ds ++ es) l := by
  have both := h.append (of_silent he)
  rwa [List.append_nil] at both

theorem flatMap {f : Node → List Directive} (h : ∀ c ∈ l, Agree (f c) [c]) :
    Agree (l.flatMap f) l := by
  induction l with
  | nil => exact of_silent (by simp)
  | cons c l ih =>
    have later := ih fun d hd => h d (List.mem_cons_of_mem _ hd)
    exact (h c List.mem_cons_self).append later

theorem perm (h : Agree ds l) (hl : l.Perm m) : Agree ds m := by
  obtain ⟨used, declared, hplaces, hsites⟩ := h
  refine ⟨used, declared, hplaces, fun os => ⟨?_, ?_⟩⟩
  · exact (hl.flatMap_right _).symm.trans (hsites os).1
  · intro e he
    obtain ⟨p, hp, hv⟩ := (hsites os).2 e he
    exact ⟨p, hp, (hl.flatMap_right _).subset hv⟩

theorem inline {kind : ScopeKind} (hk : kind ≠ .function) (block : Node) (h : Agree ds l) :
    Agree (.openScope kind block :: (ds ++ [.closeScope])) l := by
  obtain ⟨used, declared, hplaces, hsites⟩ := h
  exact ⟨used, declared, hplaces.inline hk block, hsites⟩

/-- A node that is no function and no name stands for its children. -/
theorem gather (hg : n.isGrammatical = true) (hn : n.isName = false)
    (hf : n.isFunctionLike = false) (h : Agree ds (n.children ++ l)) : Agree ds (n :: l) := by
  obtain ⟨used, declared, hplaces, hsites⟩ := h
  refine ⟨used, declared, hplaces, fun os => ⟨?_, ?_⟩⟩
  · have own := Node.sites_node os hg
    rw [Node.inPlace_of_plain hf, Node.ownCode_of_plain hf] at own
    simp only [hn, hf, Bool.or_self, Bool.false_eq_true, if_false, List.nil_append] at own
    have nothing : Node.sites (n :: os) [] = [] := rfl
    rw [nothing, List.append_nil] at own
    have all := (hsites os).1
    rw [Node.sites_append] at all
    have parts : Node.sites os (n :: l) = Node.sites os [n] ++ Node.sites os l :=
      Node.sites_append os [n] l
    rw [parts]
    exact (own.append_right _).trans all
  · intro e he
    obtain ⟨p, hp, hv⟩ := (hsites os).2 e he
    refine ⟨p, hp, ?_⟩
    rw [List.flatMap_append, List.mem_append] at hv
    rw [List.flatMap_cons, List.mem_append]
    apply hv.imp_left
    intro hv
    rw [(Node.visits_flow os hg).mem_iff, Node.inPlace_of_plain hf]
    simp only [List.mem_append]
    exact .inl (.inr hv)

theorem plain (hg : n.isGrammatical = true) (hn : n.isName = false)
    (hf : n.isFunctionLike = false) (h : Agree ds n.children) : Agree ds [n] :=
  gather hg hn hf (by rwa [List.append_nil])

/-- The code of a function is placed in it, its heading around it. -/
theorem function (hg : n.isGrammatical = true) (hf : n.isFunctionLike = true)
    (h : Agree ds n.heading) (h' : Agree es n.ownCode) :
    Agree (ds ++ .openScope .function n :: (es ++ [.closeScope])) [n] := by
  obtain ⟨used, declared, hplaces, hsites⟩ := h
  obtain ⟨used', declared', hplaces', hsites'⟩ := h'
  refine ⟨_, fun os => declared os ++ declared' (n :: os), hplaces.append (hplaces'.function n),
    fun os => ⟨?_, ?_⟩⟩
  · have own := Node.sites_node os hg
    have first := (hsites os).1
    have second := (hsites' (n :: os)).1
    simp only [Node.inPlace, hf, Bool.or_true, if_true] at own
    classical
    rw [List.perm_iff_count] at own first second ⊢
    intro e
    have h₀ := own e
    have h₁ := first e
    have h₂ := second e
    simp only [List.count_append, List.count_cons, List.count_nil] at h₀ h₁ h₂ ⊢
    omega
  · intro e he
    simp only [List.flatMap_singleton, (Node.visits_flow os hg).mem_iff, Node.inPlace, hf, if_true,
      List.mem_append]
    rcases List.mem_append.1 he with he | he
    · obtain ⟨p, hp, hv⟩ := (hsites os).2 e he
      exact ⟨p, hp, .inl (.inr hv)⟩
    · obtain ⟨p, hp, hv⟩ := (hsites' (n :: os)).2 e he
      exact ⟨p, hp, .inr hv⟩

end Agree

end LostUpdate
