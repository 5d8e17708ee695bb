import LostUpdate.Proofs.Course.Basic

namespace LostUpdate
open Computability
namespace Courses

/-- Behind what `before` tells, the courses of `c` that run through stay within `after`, and those
that leave by a jump within what `exits` has for it. -/
structure Bounded (before : Language Node) (c : Courses) (after : Language Node)
    (exits : Jump → Language Node) : Prop where
  through : before * c none ≤ after
  leaves : ∀ k, before * c (some k) ≤ exits k

/-- What a loop makes of the jumps in its body. -/
def aroundBody (after again : Language Node) (exits : Jump → Language Node) : Jump → Language Node
  | .breakLoop => after
  | .continueLoop => again
  | k => exits k

namespace Bounded

variable {before after : Language Node} {exits : Jump → Language Node} {a b : Courses}

theorem of_le {l : Language Node} (h : Bounded before a after exits) (hl : l ≤ before) :
    Bounded l a after exits := by
  refine ⟨?_, fun k => ?_⟩
  · grw [hl]
    exact h.through
  · grw [hl]
    exact h.leaves k

theorem mono_after {l : Language Node} (h : Bounded before a after exits) (hl : after ≤ l) :
    Bounded before a l exits :=
  ⟨h.through.trans hl, h.leaves⟩

theorem idle_iff : Bounded before idle after exits ↔ before ≤ after := by
  refine ⟨fun h => by simpa [idle] using h.through, fun h => ⟨by simpa [idle] using h, fun k => ?_⟩⟩
  simp [idle]

theorem name_iff {n : Node} : Bounded before (name n) after exits ↔ before * {[n]} ≤ after := by
  refine ⟨fun h => h.through, fun h => ⟨h, fun k => ?_⟩⟩
  simp [name]

theorem never : Bounded before never after exits :=
  ⟨by simp [Courses.never], by simp [Courses.never]⟩

theorem leave_iff {k : Jump} : Bounded before (leave k) after exits ↔ before ≤ exits k := by
  refine ⟨fun h => by simpa [leave] using h.leaves k, fun h => ⟨by simp [leave], fun j => ?_⟩⟩
  by_cases hj : k = j
  · simpa [leave, hj] using hj ▸ h
  · simp [leave, Ne.symm hj]

theorem andThen_iff : Bounded before (a.andThen b) after exits ↔
    ∃ between, Bounded before a between exits ∧ Bounded between b after exits := by
  constructor
  · intro h
    have leaves (k : Jump) := add_le_iff.1 ((mul_add _ _ _).symm.trans_le (h.leaves k))
    refine ⟨before * a none, ⟨le_rfl, fun k => (leaves k).1⟩, ?_, fun k => ?_⟩
    · rw [mul_assoc]
      exact h.through
    · rw [mul_assoc]
      exact (leaves k).2
  · rintro ⟨between, ha, hb⟩
    constructor
    · calc before * (a none * b none) = before * a none * b none := (mul_assoc _ _ _).symm
        _ ≤ between * b none := by grw [ha.through]
        _ ≤ after := hb.through
    · intro k
      rw [andThen, mul_add, ← mul_assoc]
      refine add_le (ha.leaves k) ?_
      grw [ha.through]
      exact hb.leaves k

theorem either_iff : Bounded before (a.either b) after exits ↔
    Bounded before a after exits ∧ Bounded before b after exits := by
  have split (o : Option Jump) (l : Language Node) :
      before * a.either b o ≤ l ↔ before * a o ≤ l ∧ before * b o ≤ l := by
    rw [either, mul_add, add_le_iff]
  constructor
  · exact fun h => ⟨⟨((split _ _).1 h.through).1, fun k => ((split _ _).1 (h.leaves k)).1⟩,
      ((split _ _).1 h.through).2, fun k => ((split _ _).1 (h.leaves k)).2⟩
  · rintro ⟨ha, hb⟩
    exact ⟨(split _ _).2 ⟨ha.through, hb.through⟩,
      fun k => (split _ _).2 ⟨ha.leaves k, hb.leaves k⟩⟩

theorem breaking_iff {again : Language Node} {body : Courses} :
    Bounded before body again (aroundBody after again exits) ↔
      before * (body none + body (some .continueLoop)) ≤ again ∧
        Bounded before body.breaking after exits := by
  rw [mul_add, add_le_iff]
  constructor
  · intro h
    refine ⟨⟨h.through, h.leaves .continueLoop⟩, h.leaves .breakLoop, fun k => ?_⟩
    cases k
    · simp [breaking]
    · simp [breaking]
    · exact h.leaves .returnOut
    · exact h.leaves .raiseOut
  · rintro ⟨⟨ends, continues⟩, h⟩
    refine ⟨ends, fun k => ?_⟩
    cases k
    · exact h.through
    · exact continues
    · exact h.leaves .returnOut
    · exact h.leaves .raiseOut

/-- The invariant of a loop bounds what comes before each run of its head. -/
theorem loop_iff {head body orelse : Courses} : Bounded before (loop head body orelse) after exits ↔
    ∃ start fork, before ≤ start ∧ Bounded start head fork exits ∧
      Bounded fork body start (aroundBody after start exits) ∧
        Bounded fork orelse after exits := by
  have last : Bounded before (loop head body orelse) after exits ↔
      Bounded (before * (turn head body)∗) (head.andThen (body.breaking.either orelse)) after
        exits := by
    constructor
    · exact fun h => ⟨mul_assoc before _ _ ▸ h.through, fun k => mul_assoc before _ _ ▸ h.leaves k⟩
    · exact fun h => ⟨mul_assoc before _ _ ▸ h.through, fun k => mul_assoc before _ _ ▸ h.leaves k⟩
  simp only [breaking_iff]
  constructor
  · intro h
    obtain ⟨between, hhead, hrest⟩ := andThen_iff.1 (last.1 h)
    obtain ⟨hbody, horelse⟩ := either_iff.1 (hrest.of_le hhead.through)
    refine ⟨before * (turn head body)∗, before * (turn head body)∗ * head none, ?_,
      ⟨le_rfl, hhead.leaves⟩, ⟨?_, hbody⟩, horelse⟩
    · calc before = before * 1 := (mul_one _).symm
        _ ≤ before * (turn head body)∗ := by grw [one_le_kstar]
    · rw [mul_assoc _ (head none), ← turn, mul_assoc]
      grw [kstar_mul_le_kstar]
  · rintro ⟨start, fork, hstart, hhead, ⟨hagain, hbody⟩, horelse⟩
    have turns : start * turn head body ≤ start := by
      rw [turn, ← mul_assoc]
      grw [hhead.through]
      exact hagain
    have runs : before * (turn head body)∗ ≤ start := by
      grw [hstart]
      exact mul_kstar_le_self turns
    have whole : Bounded start (head.andThen (body.breaking.either orelse)) after exits :=
      andThen_iff.2 ⟨fork, hhead, either_iff.2 ⟨hbody, horelse⟩⟩
    refine last.2 ⟨?_, fun k => ?_⟩
    · grw [runs]
      exact whole.through
    · grw [runs]
      exact whole.leaves k

end Bounded
end Courses
end LostUpdate
