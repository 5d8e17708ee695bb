import LostUpdate.Race.SegmentStates
import Mathlib.Data.List.Forall2

namespace LostUpdate

/-- `more` is `few` with elements that satisfy `P` put in anywhere. -/
inductive Enriched {α : Type} (P : α → Prop) : List α → List α → Prop
  | nil : Enriched P [] []
  | keep (a : α) {few more : List α} (h : Enriched P few more) : Enriched P (a :: few) (a :: more)
  | add {a : α} (ha : P a) {few more : List α} (h : Enriched P few more) : Enriched P few (a :: more)

namespace SegmentStates

/-- What can be done with the states of segments, or asked about them. -/
inductive Operation (κ ν : Type)
  | start (k : κ) (previous : List κ)
  | read (ks : List κ) (v : ν)
  | suspend (ks : List κ)
  | isOutdated (ks : List κ) (v : ν)

/-- Whether an operation is a read or a suspension. -/
def Operation.Marks {κ ν : Type} : Operation κ ν → Prop
  | .read .. | .suspend .. => True
  | .start .. | .isOutdated .. => False

variable {κ ν : Type} [DecidableEq κ] [DecidableEq ν]

def apply (m : SegmentStates κ ν) : Operation κ ν → SegmentStates κ ν
  | .start k previous => m.start k previous
  | .read ks v => m.read ks v
  | .suspend ks => m.suspend ks
  | .isOutdated _ _ => m

/-- The answers to the questions of a run, in their order. -/
def answers (m : SegmentStates κ ν) : List (Operation κ ν) → List Bool
  | [] => []
  | .isOutdated ks v :: rest => m.isOutdated ks v :: m.answers rest
  | o :: rest => (m.apply o).answers rest

end SegmentStates

namespace ReadState

variable {ν : Type} [DecidableEq ν]

/-- `b` knows of all that `a` has read, and takes no less of it to be out of date. A suspension may
have emptied its `fresh` in the meantime. -/
structure Covered (a b : ReadState ν) : Prop where
  outdated : ∀ v ∈ a.outdated, v ∈ b.outdated
  fresh : ∀ v ∈ a.fresh, v ∈ b.fresh ∨ v ∈ b.outdated

namespace Covered

variable {a a' b b' : ReadState ν}

omit [DecidableEq ν] in
theorem refl (a : ReadState ν) : a.Covered a := ⟨fun _ h => h, fun _ h => .inl h⟩

theorem join (h : a.Covered b) (h' : a'.Covered b') : (a.join a').Covered (b.join b') := by
  constructor
  · intro v hv
    rw [mem_outdated_join] at hv ⊢
    exact hv.imp (h.outdated v) (h'.outdated v)
  · intro v hv
    rw [mem_fresh_join] at hv
    rw [mem_fresh_join, mem_outdated_join]
    cases hv with
    | inl hv => exact (h.fresh v hv).imp .inl .inl
    | inr hv => exact (h'.fresh v hv).imp .inr .inr

theorem read (h : a.Covered b) (w : ν) : (a.read w).Covered (b.read w) := by
  refine ⟨h.outdated, fun v hv => ?_⟩
  rw [mem_fresh_read] at hv
  rw [mem_fresh_read, outdated_read, or_assoc]
  exact hv.imp_right (h.fresh v)

theorem suspend (h : a.Covered b) : a.suspend.Covered b.suspend := by
  refine ⟨fun v hv => ?_, fun v hv => absurd hv List.not_mem_nil⟩
  rw [mem_outdated_suspend] at hv ⊢
  cases hv with
  | inl fresh => exact h.fresh v fresh
  | inr outdated => exact .inr (h.outdated v outdated)

/-- Reading more only adds to what is fresh. -/
theorem read_right (h : a.Covered b) (w : ν) : a.Covered (b.read w) := by
  refine ⟨h.outdated, fun v hv => ?_⟩
  rw [mem_fresh_read, outdated_read, or_assoc]
  exact .inr (h.fresh v hv)

/-- What a further suspension takes from `fresh` is out of date then. -/
theorem suspend_right (h : a.Covered b) : a.Covered b.suspend := by
  refine ⟨fun v hv => ?_, fun v hv => .inr ?_⟩
  · exact mem_outdated_suspend.2 (.inr (h.outdated v hv))
  · exact mem_outdated_suspend.2 (h.fresh v hv)

end Covered

end ReadState

namespace SegmentStates

variable {κ ν : Type} [DecidableEq κ] [DecidableEq ν] {m m' : SegmentStates κ ν}

/-- The same segments have started, and what `m'` knows of each covers what `m` knows of it. -/
def Covered (m m' : SegmentStates κ ν) : Prop :=
  ∀ k, Option.Rel ReadState.Covered (m.state? k) (m'.state? k)

namespace Covered

omit [DecidableEq ν] in
theorem refl (m : SegmentStates κ ν) : m.Covered m := by
  intro k
  cases m.state? k with
  | none => exact .none
  | some s => exact .some (.refl s)

/-- What flows together out of covered states is covered. -/
theorem foldr_join (h : m.Covered m') (previous : List κ) :
    ((previous.filterMap m.state?).foldr ReadState.join .empty).Covered
      ((previous.filterMap m'.state?).foldr ReadState.join .empty) := by
  induction previous with
  | nil => exact .refl _
  | cons k previous ih =>
    have here := h k
    rw [List.filterMap_cons, List.filterMap_cons]
    generalize m.state? k = before, m'.state? k = after at here
    cases here with
    | none => exact ih
    | some covered => exact covered.join ih

theorem start (h : m.Covered m') (k : κ) (previous : List κ) :
    (m.start k previous).Covered (m'.start k previous) := by
  intro j
  rw [state?_start, state?_start]
  split_ifs
  · exact .some (h.foldr_join previous)
  · exact h j

omit [DecidableEq ν] in
/-- Changes of the same segments that keep states covered. -/
theorem update (h : m.Covered m') {f g : ReadState ν → ReadState ν}
    (hf : ∀ a b : ReadState ν, a.Covered b → (f a).Covered (g b)) (ks : List κ) :
    (m.update ks f).Covered (m'.update ks g) := by
  intro j
  have here := h j
  rw [state?_update, state?_update]
  generalize m.state? j = before, m'.state? j = after at here
  cases here with
  | none => exact .none
  | some covered =>
    refine .some ?_
    split_ifs
    · exact hf _ _ covered
    · exact covered

omit [DecidableEq ν] in
theorem update_right (h : m.Covered m') {g : ReadState ν → ReadState ν}
    (hg : ∀ a b : ReadState ν, a.Covered b → a.Covered (g b)) (ks : List κ) :
    m.Covered (m'.update ks g) := by
  intro j
  have both := h.update (f := id) hg ks j
  simpa only [state?_update, id, ite_self, Option.map_id'] using both

theorem isOutdated (h : m.Covered m') {ks : List κ} {v : ν} (ho : m.isOutdated ks v = true) :
    m'.isOutdated ks v = true := by
  rw [SegmentStates.isOutdated, List.any_eq_true] at ho ⊢
  obtain ⟨k, hk, known⟩ := ho
  refine ⟨k, hk, ?_⟩
  have here := h k
  generalize m.state? k = before, m'.state? k = after at here known
  cases here with
  | none => exact known
  | some covered =>
    rw [decide_eq_true_eq] at known ⊢
    exact covered.outdated v known

theorem apply (h : m.Covered m') (o : Operation κ ν) : (m.apply o).Covered (m'.apply o) := by
  cases o with
  | start k previous => exact h.start k previous
  | read ks v => exact h.update (fun _ _ covered => covered.read v) ks
  | suspend ks => exact h.update (fun _ _ covered => covered.suspend) ks
  | isOutdated ks v => exact h

theorem read_right (h : m.Covered m') (ks : List κ) (v : ν) : m.Covered (m'.read ks v) :=
  update_right h (fun _ _ covered => covered.read_right v) ks

theorem suspend_right (h : m.Covered m') (ks : List κ) : m.Covered (m'.suspend ks) :=
  h.update_right (fun _ _ covered => covered.suspend_right) ks

/-- A run of operations on one side, and with more reads and suspensions on the other. -/
theorem answers (h : m.Covered m') {few more : List (Operation κ ν)}
    (he : Enriched Operation.Marks few more) :
    List.Forall₂ (fun a b => a = true → b = true) (m.answers few) (m'.answers more) := by
  induction he generalizing m m' with
  | nil => exact .nil
  | keep o _ ih =>
    have rest := ih (h.apply o)
    cases o with
    | isOutdated ks v => exact .cons h.isOutdated rest
    | start | read | suspend => exact rest
  | @add o marks _ _ _ ih =>
    cases o with
    | read ks v => exact ih (h.read_right ks v)
    | suspend ks => exact ih (h.suspend_right ks)
    | start | isOutdated => exact marks.elim

end Covered

/-- More reads and suspensions never hide a value that is out of date: whichever segments start behind
which others, a question answered with yes is still answered so once further reads and suspensions
have been put anywhere between the operations of a run. -/
theorem answers_enriched (m : SegmentStates κ ν) {few more : List (Operation κ ν)}
    (h : Enriched Operation.Marks few more) :
    List.Forall₂ (fun a b => a = true → b = true) (m.answers few) (m.answers more) :=
  (Covered.refl m).answers h

/-- A value read before two segments flow together, of which one has been suspended. A suspension
right after the read leaves nothing fresh of it, and brings the first answer forward to yes. -/
theorem answers_enriched_join :
    let few : List (Operation ℕ String) := [.start 1 [], .read [1] "total", .isOutdated [1] "total",
      .start 2 [1], .start 3 [1], .suspend [2], .start 4 [2, 3], .isOutdated [4] "total"]
    let more : List (Operation ℕ String) := [.start 1 [], .read [1] "total", .suspend [1],
      .isOutdated [1] "total", .start 2 [1], .start 3 [1], .read [3] "other", .suspend [2],
      .start 4 [2, 3], .isOutdated [4] "total"]
    Enriched Operation.Marks few more ∧ empty.answers few = [false, true] ∧
      empty.answers more = [true, true] ∧
        List.Forall₂ (fun a b => a = true → b = true) (empty.answers few) (empty.answers more) := by
  intro few more
  have enriched : Enriched Operation.Marks few more :=
    .keep _ <| .keep _ <| .add trivial <| .keep _ <| .keep _ <| .keep _ <| .add trivial <|
      .keep _ <| .keep _ <| .keep _ .nil
  exact ⟨enriched, by decide, by decide, answers_enriched empty enriched⟩

end SegmentStates

end LostUpdate
