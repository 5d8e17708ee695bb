namespace LostUpdate

/-- A variable is fresh when it has been read since the last suspension, outdated when a suspension
came after a read. -/
structure ReadState (ν : Type) where
  fresh : List ν
  outdated : List ν

namespace ReadState

variable {ν : Type} [DecidableEq ν]

def empty : ReadState ν := ⟨[], []⟩

/-- The elements of both lists, those of `l` without their repetitions in `m`. -/
def union (l m : List ν) : List ν := l.foldr List.insert m

@[simp] theorem mem_union {v : ν} {l m : List ν} : v ∈ union l m ↔ v ∈ l ∨ v ∈ m := by
  induction l with
  | nil => simp [union]
  | cons a l ih =>
    simp only [union, List.foldr_cons] at ih ⊢
    rw [List.mem_insert_iff, ih, List.mem_cons, or_assoc]

def join (a b : ReadState ν) : ReadState ν :=
  ⟨union a.fresh b.fresh, union a.outdated b.outdated⟩

def read (v : ν) (s : ReadState ν) : ReadState ν := { s with fresh := s.fresh.insert v }

/-- Other code may run now: whatever has been read may be out of date. -/
def suspend (s : ReadState ν) : ReadState ν := ⟨[], union s.fresh s.outdated⟩

@[simp] theorem mem_fresh_join {v : ν} {a b : ReadState ν} :
    v ∈ (a.join b).fresh ↔ v ∈ a.fresh ∨ v ∈ b.fresh := mem_union

@[simp] theorem mem_outdated_join {v : ν} {a b : ReadState ν} :
    v ∈ (a.join b).outdated ↔ v ∈ a.outdated ∨ v ∈ b.outdated := mem_union

@[simp] theorem mem_fresh_read {v w : ν} {s : ReadState ν} :
    v ∈ (s.read w).fresh ↔ v = w ∨ v ∈ s.fresh := List.mem_insert_iff

@[simp] theorem outdated_read {v : ν} {s : ReadState ν} : (s.read v).outdated = s.outdated := rfl

@[simp] theorem fresh_suspend {s : ReadState ν} : s.suspend.fresh = [] := rfl

@[simp] theorem mem_outdated_suspend {v : ν} {s : ReadState ν} :
    v ∈ s.suspend.outdated ↔ v ∈ s.fresh ∨ v ∈ s.outdated := mem_union

end ReadState

/-- The states of the segments that have started. -/
structure SegmentStates (κ ν : Type) where
  entries : List (κ × ReadState ν)

namespace SegmentStates

variable {κ ν : Type} [DecidableEq κ] [DecidableEq ν]

def empty : SegmentStates κ ν := ⟨[]⟩

def state? (m : SegmentStates κ ν) (k : κ) : Option (ReadState ν) :=
  (m.entries.find? (·.1 = k)).map (·.2)

/-- Starts a segment behind others, of which those without a state count for nothing. -/
def start (m : SegmentStates κ ν) (k : κ) (previous : List κ) : SegmentStates κ ν :=
  let state := (previous.filterMap m.state?).foldr ReadState.join .empty
  ⟨(k, state) :: m.entries.filter (·.1 ≠ k)⟩

def update (m : SegmentStates κ ν) (ks : List κ) (f : ReadState ν → ReadState ν) :
    SegmentStates κ ν :=
  ⟨m.entries.map fun (k, s) => if k ∈ ks then (k, f s) else (k, s)⟩

def read (m : SegmentStates κ ν) (ks : List κ) (v : ν) : SegmentStates κ ν :=
  m.update ks (.read v)

def suspend (m : SegmentStates κ ν) (ks : List κ) : SegmentStates κ ν :=
  m.update ks .suspend

def isOutdated (m : SegmentStates κ ν) (ks : List κ) (v : ν) : Bool :=
  ks.any fun k => match m.state? k with
    | some s => v ∈ s.outdated
    | none => false

theorem state?_start (m : SegmentStates κ ν) (k j : κ) (previous : List κ) :
    (m.start k previous).state? j =
      if j = k then some ((previous.filterMap m.state?).foldr ReadState.join .empty)
      else m.state? j := by
  by_cases h : j = k
  · simp [start, state?, h]
  · have h' : ¬ k = j := fun e => h e.symm
    simp only [start, state?, h, h', List.find?_cons, decide_false, if_false, List.find?_filter]
    congr 2
    funext e
    by_cases he : e.1 = j
    · simp [he, h]
    · simp [he]

omit [DecidableEq ν] in
theorem state?_update (m : SegmentStates κ ν) (ks : List κ) (f : ReadState ν → ReadState ν)
    (j : κ) : (m.update ks f).state? j = (m.state? j).map fun s => if j ∈ ks then f s else s := by
  obtain ⟨entries⟩ := m
  simp only [update, state?]
  induction entries with
  | nil => rfl
  | cons e entries ih =>
    obtain ⟨k, s⟩ := e
    by_cases h : k = j
    · subst h
      by_cases hk : k ∈ ks <;> simp [hk]
    · rw [List.map_cons, List.find?_cons_of_neg (by by_cases hk : k ∈ ks <;> simp [hk, h]),
        List.find?_cons_of_neg (by simp [h]), ih]

end SegmentStates

end LostUpdate
