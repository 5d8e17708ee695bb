import LostUpdate.Proofs.Scope.Agreement
import LostUpdate.Proofs.Scope.Facts

namespace LostUpdate

/-- What a directive says to the region that it is about. -/
def Directive.fact? : Directive → Option Fact
  | .bind x _ | .hoist x _ => some (.binds x)
  | .declareGlobal names => some (.declaresGlobal names)
  | .declareNonlocal names => some (.declaresNonlocal names)
  | .openScope .. => some .opens
  | .use _ | .closeScope => none

/-- Directives with the regions that they are about, innermost first, where the regions `bs` are open.
What comes when none is open is about the region of the program, `base`. -/
def located (base : Region) : List Region → List Directive → List (List Region × Directive)
  | _, [] => []
  | bs, .openScope kind block :: ds =>
    (⟨kind, block⟩ :: bs, .openScope kind block) :: located base (⟨kind, block⟩ :: bs) ds
  | bs, .closeScope :: ds => located base bs.tail ds
  | bs, .hoist x definition :: ds =>
    (bs.dropWhile (·.passesBindings), .hoist x definition) :: located base bs ds
  | bs, d :: ds => (if bs = [] then [base] else bs, d) :: located base bs ds

def told (l : List (List Region × Directive)) : List (List Region × Fact) :=
  l.filterMap fun (bs, d) => d.fact?.map fun f => (bs, f)

/-- An occurrence of a name stands in the regions `cs`, if `n` stands in `bs`. The target of `:=`
counts as standing where the whole does. -/
def Node.Uses (bs : List Region) (n : Node) (cs : List Region) (o : NameUse) : Prop :=
  (∃ context, o.identifier.form = .name o.name context) ∧
    ∃ p, Stands bs n cs p ∧ (p = o.identifier ∨ ∃ value, p.form = .walrus o.identifier value)

/-- Directives that say what `own` lists, and besides it what the nodes `l` say. -/
structure Account (ds : List Directive) (own : List Region → List (List Region × Fact))
    (l : List Node) : Prop where
  closed : ∀ base bs rest, located base bs (ds ++ rest) = located base bs ds ++ located base bs rest
  facts : ∀ base bs, bs ≠ [] →
    (told (located base bs ds)).Perm (own bs ++ l.flatMap (Node.facts bs))
  uses : ∀ base bs cs o, bs ≠ [] → (cs, Directive.use o) ∈ located base bs ds →
    ∃ c ∈ l, Node.Uses bs c cs o

/-- Directives that say what the nodes `l` say. -/
def Tells (ds : List Directive) (l : List Node) : Prop := Account ds (fun _ => []) l

theorem told_append (l m : List (List Region × Directive)) : told (l ++ m) = told l ++ told m :=
  List.filterMap_append

theorem Node.Uses.mono {bs cs : List Region} {n c : Node} {o : NameUse} (h : Node.Uses bs c cs o)
    (hc : c ∈ n.surface) : Node.Uses bs n cs o := by
  obtain ⟨hname, p, hp, ho⟩ := h
  exact ⟨hname, p, .surface hc hp, ho⟩

theorem Node.Uses.within {bs cs : List Region} {n c : Node} {o : NameUse}
    (h : Node.Uses (n.region :: bs) c cs o) (hc : c ∈ n.interior) : Node.Uses bs n cs o := by
  obtain ⟨hname, p, hp, ho⟩ := h
  exact ⟨hname, p, .interior hc hp, ho⟩

namespace Account

variable {ds es : List Directive} {own other : List Region → List (List Region × Fact)}
  {l m : List Node} {n : Node}

theorem nil : Account [] (fun _ => []) [] where
  closed _ _ _ := rfl
  facts _ _ _ := List.Perm.refl _
  uses _ _ _ _ _ h := by simp [located] at h

theorem fact {d : Directive} {f : Fact} (hd : d.fact? = some f) (hh : ∀ x p, d ≠ .hoist x p)
    (ho : ∀ kind p, d ≠ .openScope kind p) : Account [d] (fun bs => [(bs, f)]) [] where
  closed _ _ _ := by cases d <;> simp_all [located, Directive.fact?]
  facts base bs hbs := by cases d <;> simp_all [located, told, Directive.fact?]
  uses _ _ _ _ _ h := by cases d <;> simp_all [located, Directive.fact?]

theorem append (h : Account ds own l) (h' : Account es other m) :
    Account (ds ++ es) (fun bs => own bs ++ other bs) (l ++ m) where
  closed base bs rest := by
    rw [List.append_assoc, h.closed, h'.closed, h.closed base bs es, List.append_assoc]
  facts base bs hbs := by
    have first := h.facts base bs hbs
    have second := h'.facts base bs hbs
    rw [h.closed, told_append, List.flatMap_append]
    refine (first.append second).trans ?_
    rw [List.append_assoc, List.append_assoc]
    refine List.Perm.append_left _ ?_
    rw [← List.append_assoc, ← List.append_assoc]
    exact List.Perm.append_right _ List.perm_append_comm
  uses base bs cs o hbs ho := by
    rw [h.closed, List.mem_append] at ho
    rcases ho with ho | ho
    · obtain ⟨c, hc, hu⟩ := h.uses base bs cs o hbs ho
      exact ⟨c, List.mem_append_left _ hc, hu⟩
    · obtain ⟨c, hc, hu⟩ := h'.uses base bs cs o hbs ho
      exact ⟨c, List.mem_append_right _ hc, hu⟩

theorem perm (h : Account ds own l) (hown : ∀ bs, (own bs).Perm (other bs)) (hl : l.Perm m) :
    Account ds other m where
  closed := h.closed
  facts base bs hbs :=
    (h.facts base bs hbs).trans ((hown bs).append (hl.flatMap_right _))
  uses base bs cs o hbs ho := by
    obtain ⟨c, hc, hu⟩ := h.uses base bs cs o hbs ho
    exact ⟨c, hl.mem_iff.1 hc, hu⟩

theorem binds (l : List (String × Node)) : Account (l.map fun e => .bind e.1 e.2)
    (fun bs => l.map fun e => (bs, .binds e.1)) [] := by
  induction l with
  | nil => exact nil
  | cons e l ih => exact (fact (d := .bind e.1 e.2) rfl (by simp) (by simp)).append ih

/-- A node that opens no region says what its own directives and its parts say. -/
theorem node (h : Account ds own l) (hl : l = n.surface)
    (hown : ∀ bs, (own bs).Perm (n.ownFacts bs)) (hn : n.interior = []) : Tells ds [n] where
  closed := h.closed
  facts base bs hbs := by
    rw [List.flatMap_singleton, Node.facts_eq, hn, List.flatMap_nil, List.append_nil, ← hl]
    exact (h.facts base bs hbs).trans ((hown bs).append_right _)
  uses base bs cs o hbs ho := by
    obtain ⟨c, hc, hu⟩ := h.uses base bs cs o hbs ho
    exact ⟨n, List.mem_singleton_self n, hu.mono (hl ▸ hc)⟩

/-- What is said between the opening and the closing of a region is said in it. -/
theorem located_block (h : Account es other m) (base : Region) (bs : List Region) (kind : ScopeKind)
    (block : Node) (rest : List Directive) :
    located base bs (.openScope kind block :: (es ++ .closeScope :: rest)) =
      (⟨kind, block⟩ :: bs, .openScope kind block) ::
        (located base (⟨kind, block⟩ :: bs) es ++ located base bs rest) := by
  rw [located, h.closed]
  rfl

/-- A node that opens a region: its heading is told around the region, its interior in it. -/
theorem block {kind : ScopeKind} (h : Account ds own n.surface) (h' : Account es other n.interior)
    (hr : n.region = ⟨kind, n⟩)
    (hown : ∀ bs, (own bs ++ (n.region :: bs, .opens) :: other (n.region :: bs)).Perm
      (n.ownFacts bs)) : Tells (ds ++ .openScope kind n :: (es ++ [.closeScope])) [n] := by
  have split (base : Region) (bs : List Region) :
      located base bs (ds ++ .openScope kind n :: (es ++ [.closeScope])) = located base bs ds ++
        (n.region :: bs, .openScope kind n) :: located base (n.region :: bs) es := by
    rw [h.closed, located_block h', hr]
    simp [located]
  refine ⟨fun base bs rest => ?_, fun base bs hbs => ?_, fun base bs cs o hbs ho => ?_⟩
  · rw [split, List.append_assoc, h.closed, List.cons_append, List.append_assoc,
      List.singleton_append, located_block h', hr]
    simp
  · have first := h.facts base bs hbs
    have second := h'.facts base (n.region :: bs) (by simp)
    have all := hown bs
    have opening : told ((n.region :: bs, .openScope kind n) :: located base (n.region :: bs) es) =
        (n.region :: bs, .opens) :: told (located base (n.region :: bs) es) := rfl
    rw [List.flatMap_singleton, Node.facts_eq, split, told_append, opening]
    classical
    rw [List.perm_iff_count] at first second all ⊢
    intro e
    have h₁ := first e
    have h₂ := second e
    have h₃ := all e
    simp only [List.count_append, List.count_cons, List.count_nil] at h₁ h₂ h₃ ⊢
    omega
  · refine ⟨n, List.mem_singleton_self n, ?_⟩
    rw [split, List.mem_append, List.mem_cons] at ho
    rcases ho with ho | ho | ho
    · obtain ⟨c, hc, hu⟩ := h.uses base bs cs o hbs ho
      exact hu.mono hc
    · simp at ho
    · obtain ⟨c, hc, hu⟩ := h'.uses base _ cs o (by simp) ho
      exact hu.within hc

end Account

namespace Tells

variable {ds es : List Directive} {l m : List Node}

theorem append (h : Tells ds l) (h' : Tells es m) : Tells (ds ++ es) (l ++ m) := Account.append h h'

theorem flatMap {f : Node → List Directive} (h : ∀ c ∈ l, Tells (f c) [c]) :
    Tells (l.flatMap f) l := by
  induction l with
  | nil => exact Account.nil
  | cons c l ih =>
    have later := ih fun d hd => h d (List.mem_cons_of_mem _ hd)
    exact (h c List.mem_cons_self).append later

theorem perm (h : Tells ds l) (hl : l.Perm m) : Tells ds m :=
  Account.perm h (fun _ => List.Perm.refl _) hl

end Tells

end LostUpdate
