import LostUpdate.Proofs.Walk.Blocks
import LostUpdate.Proofs.Scope.Occurrence
import Mathlib.Data.List.Pairwise

namespace LostUpdate

/-- The node that a visit is to. -/
def Stop.node : Stop → Node
  | enter n | exit n | start n => n

theorem Stop.Shows.node_eq {side : Stop → Option Node} (h : Shows side) {v : Stop} {q : Node}
    (hv : side v = some q) : q = v.node := by
  have mem : q ∈ [v.node] := by
    rw [← h v.node]
    cases v <;> simp [Stop.node] at hv ⊢ <;> simp [hv]
  exact List.mem_singleton.1 mem

namespace Node

variable {n c q : Node}

theorem isSignature_eq_true_iff :
    c.isSignature = true ↔ c.form.category = .parameterList ∨ c.form.category = .parameter := by
  cases c with
  | mk i s f => cases f <;> simp [form, Form.category, isSignature, Form.isExpression]

section Grammatical

variable (h : n.isGrammatical = true)

include h

theorem category_of_ownCode (hc : c ∈ n.ownCode) :
    c.form.category = .statement ∨ c.form.category = .expression ∨ c.form.category = .clause := by
  have field {p : Node} (hp : p.isGrammatical = true) {k : Category} {l : List Node}
      (hl : (k, l) ∈ p.form.fields) (hc : c ∈ l) : c.form.category = k :=
    category_of_fits (isGrammatical.fits hp) hl hc
  have hf : n.isFunctionLike = true := by
    by_contra hf
    rw [Bool.not_eq_true] at hf
    simp [ownCode_of_plain hf] at hc
  rcases isFunctionLike_cases hf with ⟨isAsync, name, parameters, body, decorators, returns, hn⟩ |
    ⟨parameters, body, hn⟩ | ⟨elements, clauses, hn⟩
  · simp only [ownCode, hn] at hc
    exact .inl (field h (l := body) (by simp [hn, Form.fields]) hc)
  · simp only [ownCode, hn] at hc
    exact .inr (.inl (field h (l := [body]) (by simp [hn, Form.fields]) hc))
  · obtain ⟨first, rest, target, iterable, conditions, isAsync, rfl, hfirst⟩ := exists_first h hn
    simp only [ownCode, hn, turn, hfirst, List.head?_cons, Option.toList_some, List.flatMap_cons,
      List.flatMap_nil, List.append_nil, List.tail_cons, List.mem_append] at hc
    rcases hc with (hc | hc) | hc
    · refine .inr (.inl (field (p := first) (l := target :: iterable :: conditions) ?_ ?_ ?_))
      · exact isGrammatical_child h (by simp [children, hn, Form.children])
      · simp [hfirst, Form.fields]
      · exact (List.mem_cons.1 hc).elim (· ▸ List.mem_cons_self) fun hc => by simp [hc]
    · exact .inr (.inr (field h (l := first :: rest) (by simp [hn, Form.fields])
        (List.mem_cons_of_mem _ hc)))
    · exact .inr (.inl (field h (l := elements) (by simp [hn, Form.fields]) hc))

/-- Parameter lists and parameters are parts of parameter lists only. -/
theorem isSignature_of_part (hs : n.isSignature = false) (hc : c ∈ n.inPlace ++ n.ownCode) :
    c.isSignature = false := by
  rw [← Bool.not_eq_true, isSignature_eq_true_iff]
  intro signature
  rcases List.mem_append.1 hc with hc | hc
  · by_cases hf : n.isFunctionLike = true
    · rw [inPlace, if_pos hf] at hc
      simp [category_of_heading h hf hc] at signature
    · rw [Bool.not_eq_true] at hf
      rw [inPlace_of_plain hf] at hc
      obtain ⟨l, hl, -⟩ := category_of_child h hc
      rcases signature with same | same <;> rw [same] at hl <;> cases hn : n.form <;>
        simp_all [isFunctionLike, Form.isFunctionLike, isSignature, Form.fields]
  · rcases category_of_ownCode h hc with same | same | same <;> simp [same] at signature

/-- A walk of what is no parameter list and no parameter visits none. -/
theorem isSignature_of_visit (hs : n.isSignature = false) {os : List Node}
    {v : List Node × Stop} (hv : v ∈ n.flow.visits os) : v.2.node.isSignature = false := by
  induction n, h using induct_parts generalizing os with
  | step n h ih =>
    have inside {c : Node} (hc : c ∈ n.inPlace ++ n.ownCode) {os : List Node}
        (hv : v ∈ c.flow.visits os) : v.2.node.isSignature = false :=
      ih c hc (isSignature_of_part h hs hc) hv
    rw [(visits_flow os h).mem_iff] at hv
    simp only [List.mem_append, List.mem_flatMap] at hv
    rcases hv with ((hv | hv) | ⟨c, hc, hv⟩) | ⟨c, hc, hv⟩
    · have own : v.2.node = n := by
        unfold ownVisits at hv
        split_ifs at hv <;> simp only [List.mem_cons, List.not_mem_nil, or_false] at hv <;>
          rcases hv with rfl | rfl | rfl <;> rfl
      rw [own, hs]
    · obtain ⟨c, hc, hv⟩ := List.mem_flatMap.1 hv
      have clause := isClause_eq_true_iff.1 (isClause_of_firstClause h hc)
      have own : v.2.node = c := by
        simp only [List.mem_cons, List.not_mem_nil, or_false] at hv
        rcases hv with rfl | rfl <;> rfl
      rw [own, ← Bool.not_eq_true, isSignature_eq_true_iff, clause]
      simp
    · exact inside (List.mem_append_left _ hc) hv
    · exact inside (List.mem_append_right _ hc) hv

end Grammatical

/-- The nodes in the body part of a function: what runs in its code path and in none around it. -/
def bodyPart (f : Node) : List Node := f.firstClause ++ f.ownCode.flatMap preorder

/-- `f` is the innermost function of `n` whose body part `q` is in. -/
structure Hosts (n f q : Node) : Prop where
  mem : f ∈ n.preorder
  holds : q ∈ f.bodyPart
  innermost : ∀ g ∈ n.preorder, q ∈ g.bodyPart → f ∈ g.preorder

theorem isFunctionLike_of_bodyPart {f : Node} (hq : q ∈ f.bodyPart) : f.isFunctionLike = true := by
  by_contra hf
  rw [Bool.not_eq_true] at hf
  have first : f.firstClause = [] := (List.append_eq_nil_iff.1 (framing_of_plain hf)).2
  simp [bodyPart, ownCode_of_plain hf, first] at hq

theorem mem_below_of_bodyPart {f : Node} (h : f.isGrammatical = true) (hq : q ∈ f.bodyPart) :
    q ∈ f.children.flatMap preorder := by
  rcases List.mem_append.1 hq with hq | hq
  · exact mem_below_of_mem_children (mem_children_of_mem_firstClause hq)
  · obtain ⟨c, hc, hq⟩ := List.mem_flatMap.1 hq
    obtain ⟨d, hd, hcd⟩ := List.mem_flatMap.1 (mem_below_of_part h (List.mem_append_right _ hc))
    exact List.mem_flatMap.2 ⟨d, hd, mem_preorder_trans hcd hq⟩

theorem sizeOf_lt_of_below (hq : q ∈ n.children.flatMap preorder) : sizeOf q < sizeOf n := by
  obtain ⟨c, hc, hq⟩ := List.mem_flatMap.1 hq
  exact Nat.lt_of_le_of_lt (sizeOf_le_of_mem_preorder hq) (sizeOf_lt_of_mem_children hc)

/-- A clause is walked in one block where its comprehension is, as a first clause of a generator
expression without its iterable. -/
theorem piece_clauseFlow (os : List Node) {g a : Node} (h : g.isGrammatical = true)
    (ha : a ∈ g.children) (hclause : a.isClause = true) :
    ∃ owners skips, (skips = true → a ∈ g.firstClause) ∧
      Flow.Piece owners (a.clauseFlow skips) os g.flow := by
  obtain ⟨collector, elements, clauses, hn⟩ := exists_comprehension h ha hclause
  have mem : a ∈ clauses := by
    simp only [children, hn, Form.children, List.mem_append] at ha
    refine ha.resolve_left fun hmem => ?_
    have expression : a.form.category = .expression :=
      category_of_fits (isGrammatical.fits h) (l := elements) (by simp [hn, Form.fields]) hmem
    simp [isClause_eq_true_iff.1 hclause] at expression
  have row {owners : List Node} {l : List Node} (hl : a ∈ l) :
      Flow.Piece owners (a.clauseFlow false) owners (.sequence (l.map (clauseFlow false))) :=
    Flow.Piece.rises.sequence (List.mem_map_of_mem hl) .self
  rw [flow_eq]
  by_cases hf : g.isFunctionLike = true
  · obtain rfl : collector = .generator := by
      cases collector <;> simp [isFunctionLike, hn, Form.isFunctionLike] at hf ⊢
    obtain ⟨first, rest, -, -, -, -, rfl, -⟩ := exists_first h hn
    rw [innerFlow_functionLike hf, bodyFlow_generator hn]
    rcases List.mem_cons.1 mem with rfl | mem
    · exact ⟨g :: os, true, by simp [firstClause, hn],
        .second (.first (.second (.inside (.first (.first .self)))))⟩
    · exact ⟨g :: os, false, by simp,
        .second (.first (.second (.inside (.first (.second (row mem))))))⟩
  · rw [Bool.not_eq_true] at hf
    rw [innerFlow_comprehension hn hf]
    exact ⟨os, false, by simp, .second (.first (.first (row mem)))⟩

end Node

namespace GrammaticalTree

open Node LostUpdate.Tree

variable {t : GrammaticalTree} {n c q f : Node}

theorem nodup_parts (hn : n ∈ t.nodes) :
    (n :: n.framing ++ (n.inPlace ++ n.ownCode).flatMap preorder).Nodup :=
  (preorder_parts (t.isGrammatical_of_mem hn)).nodup_iff.1 (nodup_preorder hn)

/-- What is in a part of a node is in no other part of it. -/
theorem part_unique (hn : n ∈ t.nodes) {d : Node} (hc : c ∈ n.inPlace ++ n.ownCode)
    (hd : d ∈ n.inPlace ++ n.ownCode) (hqc : q ∈ c.preorder) (hqd : q ∈ d.preorder) : c = d := by
  have apart := (List.nodup_flatMap.1 (List.nodup_append.1 (nodup_parts hn)).2.1).2
  have symmetric : Std.Symm (Function.onFun List.Disjoint preorder) := ⟨fun _ _ h _ hx hy => h hy hx⟩
  by_contra other
  exact apart.forall hc hd other hqc hqd

/-- A function that has in its body part what is in a part of `n` is `n` or in this part itself. -/
theorem eq_or_mem_part_of_bodyPart (hn : n ∈ t.nodes) (hc : c ∈ n.inPlace ++ n.ownCode)
    (hq : q ∈ c.preorder) {g : Node} (hgn : g ∈ n.preorder) (hqg : q ∈ g.bodyPart) :
    g = n ∨ g ∈ c.preorder := by
  have hg := t.isGrammatical_of_mem hn
  have function := not_framing_of_functionLike (isFunctionLike_of_bodyPart hqg)
  have below := mem_preorder_of_below (mem_below_of_bodyPart (Node.isGrammatical_of_mem hg hgn) hqg)
  have place := (preorder_parts hg).mem_iff.1 hgn
  simp only [List.cons_append, List.mem_cons, List.mem_append (s := n.framing),
    List.mem_flatMap] at place
  rcases place with rfl | framing | ⟨d, hd, hgd⟩
  · exact .inl rfl
  · rcases framing_cases hg framing with same | same <;> simp [same] at function
  · obtain rfl := part_unique hn hc hd hq (mem_preorder_trans hgd below)
    exact .inr hgd

/-- What is in a part that runs in place is not in the body part. -/
theorem not_mem_bodyPart (hn : n ∈ t.nodes) (hc : c ∈ n.inPlace) (hq : q ∈ c.preorder) :
    q ∉ n.bodyPart := by
  have distinct := nodup_parts hn
  rw [List.nodup_append] at distinct
  obtain ⟨-, parts, framing⟩ := distinct
  intro hbody
  rcases List.mem_append.1 hbody with hbody | hbody
  · exact framing q (by simp [Node.framing, hbody]) q
      (List.mem_flatMap.2 ⟨c, List.mem_append_left _ hc, hq⟩) rfl
  · rw [List.flatMap_append, List.nodup_append] at parts
    exact parts.2.2 q (List.mem_flatMap.2 ⟨c, hc, hq⟩) q hbody rfl

/-- The code in which a node is entered is that of the function that hosts it, or the one in which
the walk starts. -/
theorem host_of_enter (hn : n ∈ t.nodes) {os owners : List Node}
    (hv : (owners, Stop.enter q) ∈ n.flow.visits os) :
    (owners = os ∧ ∀ g ∈ n.preorder, q ∉ g.bodyPart) ∨
      ∃ f outer, owners = f :: outer ∧ n.Hosts f q := by
  induction n using induct_below generalizing os with
  | step n ih =>
    have hg := t.isGrammatical_of_mem hn
    have inside {c : Node} (hc : c ∈ n.inPlace ++ n.ownCode) {os : List Node}
        (hv : (owners, Stop.enter q) ∈ c.flow.visits os) : q ∈ c.preorder ∧
          ((owners = os ∧ ∀ g ∈ c.preorder, q ∉ g.bodyPart) ∨
            ∃ f outer, owners = f :: outer ∧ n.Hosts f q) := by
      have below := mem_below_of_part hg hc
      have mem := mem_preorder_of_part hg hc
      have hq := mem_preorder_of_visit Stop.shows_entered? (isGrammatical_of_part hg hc) hv rfl
      refine ⟨hq, (ih c below (mem_nodes_trans hn mem) hv).imp_right ?_⟩
      rintro ⟨f, outer, howners, hosts⟩
      refine ⟨f, outer, howners, mem_preorder_trans mem hosts.mem, hosts.holds, fun g hgn hqg => ?_⟩
      rcases eq_or_mem_part_of_bodyPart hn hc hq hgn hqg with rfl | hgc
      · exact mem_preorder_trans mem hosts.mem
      · exact hosts.innermost g hgc hqg
    have self (hq : q ∈ n.bodyPart) (only : ∀ g ∈ n.preorder, q ∈ g.bodyPart → g = n) : n.Hosts n q :=
      ⟨n.mem_preorder_self, hq, fun g hgn hqg => only g hgn hqg ▸ n.mem_preorder_self⟩
    rw [(visits_flow os hg).mem_iff] at hv
    simp only [List.mem_append, List.mem_flatMap] at hv
    rcases hv with ((hv | hv) | ⟨c, hc, hv⟩) | ⟨c, hc, hv⟩
    · left
      have own : owners = os ∧ q = n := by
        unfold ownVisits at hv
        split_ifs at hv <;> simp_all
      obtain ⟨rfl, rfl⟩ := own
      refine ⟨rfl, fun g hgn hqg => ?_⟩
      have smaller := sizeOf_lt_of_below (mem_below_of_bodyPart (Node.isGrammatical_of_mem hg hgn) hqg)
      have bound := sizeOf_le_of_mem_preorder hgn
      omega
    · obtain ⟨c, hc, hv⟩ := List.mem_flatMap.1 hv
      obtain ⟨rfl, rfl⟩ : owners = n :: os ∧ q = c := by simpa using hv
      refine .inr ⟨n, os, rfl, self (List.mem_append_left _ hc) fun g hgn hqg => ?_⟩
      have below := mem_below_of_bodyPart (Node.isGrammatical_of_mem hg hgn) hqg
      rcases eq_or_mem_below_of_parent (mem_nodes_trans hn hgn) hn
        (mem_children_of_mem_firstClause hc) below with same | above
      · exact same.symm
      · have smaller := sizeOf_lt_of_below above
        have bound := sizeOf_le_of_mem_preorder hgn
        omega
    · obtain ⟨hq, ⟨rfl, none⟩ | hosted⟩ := inside (List.mem_append_left _ hc) hv
      · refine .inl ⟨rfl, fun g hgn hqg => ?_⟩
        rcases eq_or_mem_part_of_bodyPart hn (List.mem_append_left _ hc) hq hgn hqg with rfl | hgc
        · exact not_mem_bodyPart hn hc hq hqg
        · exact none g hgc hqg
      · exact .inr hosted
    · obtain ⟨hq, ⟨rfl, none⟩ | hosted⟩ := inside (List.mem_append_right _ hc) hv
      · refine .inr ⟨n, os, rfl, self ?_ fun g hgn hqg => ?_⟩
        · exact List.mem_append_right _ (List.mem_flatMap.2 ⟨c, hc, hq⟩)
        · exact (eq_or_mem_part_of_bodyPart hn (List.mem_append_right _ hc) hq hgn hqg).resolve_right
            fun hgc => none g hgc hqg
      · exact .inr hosted

end GrammaticalTree

end LostUpdate
