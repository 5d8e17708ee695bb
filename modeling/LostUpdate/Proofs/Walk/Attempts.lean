import LostUpdate.Proofs.Walk.Places

namespace LostUpdate

namespace Flow

open Walk

variable {done : List Event} {around : Surroundings} {p : Spot} (body : Flow) (handlers : List Flow)
  (orelse : Flow)

theorem at_tryBody (h : At done around p) :
    At (done ++ (startSegment around.path [p.current] p).1) around (tryBody around p) := by
  have start := h.startOne h.current
  exact start.withJumps (fun s hs => start.left (k := .breakLoop) hs) (List.forall_mem_nil _)
    (List.forall_mem_nil _)

theorem at_tryEnd (h : At done around p) :
    At (done ++ (startSegment around.path [p.current] p).1 ++ (walk around body (tryBody around p)).1)
      around (tryEnd around body p) :=
  (at_tryBody h).walk body

theorem begun_tryRisks (h : At done around p) : ∀ s ∈ tryRisks around body p,
    Begun (done ++ (startSegment around.path [p.current] p).1 ++
      (walk around body (tryBody around p)).1) around.path s := by
  have ended := at_tryEnd body h
  intro s hs
  rcases List.mem_cons.1 hs with rfl | hs
  · exact (h.startOne h.current).current.mono (List.prefix_append _ _)
  · rcases List.mem_cons.1 hs with rfl | hs
    · exact ended.current
    · exact ended.left (k := .raiseOut) hs

theorem at_tryCatch (h : At done around p) :
    At (done ++ (startSegment around.path [p.current] p).1 ++ (walk around body (tryBody around p)).1)
      around (tryCatch around body p) := by
  have ended := at_tryEnd body h
  refine ended.withJumps (fun s hs => ended.left (k := .breakLoop) hs)
    (fun s hs => (h.left (k := .returnOut) hs).mono ?_)
    fun s hs => (h.left (k := .raiseOut) hs).mono ?_
  all_goals simp

theorem at_tryHandled (h : At done around p) :
    At (done ++ (startSegment around.path [p.current] p).1 ++ (walk around body (tryBody around p)).1 ++
        (walkArms around (tryRisks around body p) handlers (tryCatch around body p)).1)
      around (tryHandled around body handlers p).2 :=
  (at_tryCatch body h).walkArms (begun_tryRisks body h) handlers

theorem at_tryGoOn (h : At done around p) :
    At (done ++ (startSegment around.path [p.current] p).1 ++ (walk around body (tryBody around p)).1 ++
        (walkArms around (tryRisks around body p) handlers (tryCatch around body p)).1 ++
        (startSegment around.path [(tryEnd around body p).current]
          (tryHandled around body handlers p).2).1)
      around (tryGoOn around body handlers p) :=
  (at_tryHandled body handlers h).startOne ((at_tryEnd body h).current.mono (List.prefix_append _ _))

theorem at_tryElse (h : At done around p) :
    At (done ++ tryEvents around body handlers orelse p) around
      (tryElse around body handlers orelse p) := by
  have ended : At _ around (tryElse around body handlers orelse p) :=
    (at_tryGoOn body handlers h).walk orelse
  simpa only [tryEvents, List.append_assoc] using ended

theorem begun_tryExits (h : At done around p) : ∀ s ∈ tryExits around body handlers orelse p,
    Begun (done ++ tryEvents around body handlers orelse p) around.path s := by
  have left := at_tryEnd body h
  have ends := begun_ends (at_tryCatch body h) (begun_tryRisks body h) handlers
  intro s hs
  unfold tryExits at hs
  split_ifs at hs
  · rcases List.mem_cons.1 hs with rfl | hs
    · exact (at_tryElse body handlers orelse h).current
    · exact (ends s hs).mono (by simp [tryEvents])
  · rcases List.mem_append.1 hs with hs | hs
    · exact (left.left (k := .raiseOut) hs).mono (by simp [tryEvents])
    · exact (left.left (k := .returnOut) hs).mono (by simp [tryEvents])

theorem at_tryFinal (h : At done around p) :
    At (done ++ tryEvents around body handlers orelse p ++
        (startSegment around.path (tryExits around body handlers orelse p)
          (tryElse around body handlers orelse p)).1)
      around (tryFinal around body handlers orelse p) :=
  (at_tryElse body handlers orelse h).start (begun_tryExits body handlers orelse h)

/-- Whatever has left the other parts than the body leaves the `try`. -/
theorem tryElse_left (around : Surroundings) (p : Spot) (final : Option Flow) (k : Jump) :
    (tryElse around body handlers orelse p).left k ⊆
      (walk around (.attempt body handlers orelse final) p).2.left k := by
  cases final with
  | none =>
    cases k with
    | returnOut | raiseOut => exact List.subset_append_left _ _
    | breakLoop | continueLoop => exact List.Subset.refl _
  | some final =>
    have inFinal := walk_left around final (tryFinal around body handlers orelse p) k
    rwa [tryFinal, startSegment_left] at inFinal

theorem tryHandled_left (around : Surroundings) (p : Spot) (k : Jump) :
    (tryHandled around body handlers p).2.left k ⊆
      (tryElse around body handlers orelse p).left k := by
  have inElse := walk_left around orelse (tryGoOn around body handlers p) k
  rwa [tryGoOn, startSegment_left] at inElse

section Holds

variable {kinds : List Jump} {g : Flow} {body orelse : Flow} {handlers : List Flow}

/-- The walk of an attempt starts with the events up to the end of the part after the body. -/
theorem exists_tryEvents (around : Surroundings) (body : Flow) (handlers : List Flow) (orelse : Flow)
    (final : Option Flow) (p : Spot) : ∃ later,
      (walk around (.attempt body handlers orelse final) p).1 =
        tryEvents around body handlers orelse p ++ later := by
  cases final <;> exact ⟨_, rfl⟩

theorem Holds.attempted {final : Option Flow} (h : Holds kinds g body)
    (hk : ∀ k ∈ kinds, final = none ∧ (k = .returnOut ∨ k = .raiseOut ∧ handlers = [])) :
    Holds kinds g (.attempt body handlers orelse final) := by
  intro done around p here
  obtain ⟨later, hall⟩ := exists_tryEvents around body handlers orelse final p
  refine (h (at_tryBody here)).widen (fun k hmem => ?_)
    (by rw [hall, tryEvents]; simp only [List.append_assoc]; rfl)
  obtain ⟨rfl, rfl | ⟨rfl, rfl⟩⟩ := hk k hmem
  · exact List.subset_append_right _ _
  · exact List.subset_append_right _ _

theorem Holds.handler {f : Flow} {final : Option Flow} (hf : f ∈ handlers) (h : Holds kinds g f) :
    Holds kinds g (.attempt body handlers orelse final) := by
  intro done around p here
  obtain ⟨later, hall⟩ := exists_tryEvents around body handlers orelse final p
  have inHandlers := Holds.ofArm hf h (at_tryCatch body here) (begun_tryRisks body here)
  rw [List.append_assoc done] at inHandlers
  refine inHandlers.widen (fun k _ => ?_)
    (by rw [hall, tryEvents]; simp only [List.append_assoc]; rfl)
  exact List.Subset.trans (tryHandled_left body handlers orelse around p k)
    (tryElse_left body handlers orelse around p final k)

theorem Holds.succeeded {final : Option Flow} (h : Holds kinds g orelse) :
    Holds kinds g (.attempt body handlers orelse final) := by
  intro done around p here
  obtain ⟨later, hall⟩ := exists_tryEvents around body handlers orelse final p
  have inElse := h (at_tryGoOn body handlers here)
  simp only [List.append_assoc done] at inElse
  exact inElse.widen (fun k _ => tryElse_left body handlers orelse around p final k)
    (by rw [hall, tryEvents]; simp only [List.append_assoc]; rfl)

theorem Holds.final {final : Flow} (h : Holds kinds g final) :
    Holds kinds g (.attempt body handlers orelse (some final)) := by
  intro done around p here
  have inFinal := h (at_tryFinal body handlers orelse here)
  rw [List.append_assoc done] at inFinal
  exact inFinal.widenLast (fun k _ => List.Subset.refl _)
    (by rw [walk_attempt_some]; simp only [List.append_assoc])

end Holds

end Flow

namespace Node

open LostUpdate.Flow

/-- `x` runs as a part of a node where the node stands, and is reached by steps from a node to a part
of it that `passes` allows. -/
inductive PartOf (passes : Node → Node → Prop) (x : Node) : Node → Prop
  | self : PartOf passes x x
  | inside {n c d : Node} (hp : passes n c) (hc : c ∈ n.inPlace) (hd : d ∈ c.brings)
      (h : PartOf passes x d) : PartOf passes x n

/-- `x` runs as a part of the code of `f`. -/
def Runs (passes : Node → Node → Prop) (f x : Node) : Prop :=
  if f.isFunctionLike then ∃ c ∈ f.ownCode, ∃ d ∈ c.brings, PartOf passes x d
  else PartOf passes x f

theorem mem_preorder_of_brings {c d : Node} (h : d ∈ c.brings) : d ∈ c.preorder := by
  unfold brings at h
  split_ifs at h
  · exact mem_preorder_of_mem_children h
  · obtain rfl := List.mem_singleton.1 h
    exact d.mem_preorder_self

theorem isGrammatical_of_brings {n c d : Node} (h : n.isGrammatical = true)
    (hc : c ∈ n.inPlace ++ n.ownCode) (hd : d ∈ c.brings) : d.isGrammatical = true :=
  isGrammatical_of_mem (isGrammatical_of_part h hc) (mem_preorder_of_brings hd)

theorem mem_preorder_of_partOf {passes : Node → Node → Prop} {n x : Node} (h : PartOf passes x n)
    (hg : n.isGrammatical = true) : x ∈ n.preorder := by
  induction h with
  | self => exact x.mem_preorder_self
  | @inside n c d _ hc hd _ ih =>
    have part := List.mem_append_left n.ownCode hc
    have inside := mem_preorder_trans (mem_preorder_of_part hg part) (mem_preorder_of_brings hd)
    exact mem_preorder_trans inside (ih (isGrammatical_of_brings hg part hd))

theorem mem_preorder_of_runs {passes : Node → Node → Prop} {f x : Node} (h : f.Runs passes x)
    (hg : f.isGrammatical = true) : x ∈ f.preorder := by
  unfold Runs at h
  split_ifs at h
  · obtain ⟨c, hc, d, hd, h⟩ := h
    have part := List.mem_append_right f.inPlace hc
    have inside := mem_preorder_trans (mem_preorder_of_part hg part) (mem_preorder_of_brings hd)
    exact mem_preorder_trans inside (mem_preorder_of_partOf h (isGrammatical_of_brings hg part hd))
  · exact mem_preorder_of_partOf h hg

/-- Steps that `passes` allows from a `try` into its body go where the jumps `kinds` are handed on. -/
def HandsOn (kinds : List Jump) (passes : Node → Node → Prop) : Prop :=
  ∀ n c isStar body handlers orelse final, n.form = .tryStmt isStar body handlers orelse final →
    c ∈ body → passes n c → ∀ k ∈ kinds, final = [] ∧
      (k = .returnOut ∨ k = .raiseOut ∧ handlers = [])

variable {kinds : List Jump} {passes : Node → Node → Prop} {n f x : Node}

theorem holds_partOf (hkinds : kinds ⊆ [.returnOut, .raiseOut]) (hpasses : HandsOn kinds passes)
    (h : PartOf passes x n) (hg : n.isGrammatical = true) : Holds kinds x.flow n.flow := by
  have rises := Holds.rises hkinds x.flow
  induction h with
  | self => exact .self kinds x.flow
  | @inside n c d hp hc hd _ ih =>
    have part := ih (isGrammatical_of_brings hg (List.mem_append_left _ hc) hd)
    refine rises_inPlace rises hg hc hd part fun isStar body handlers orelse final hn => ?_
    have hf : n.isFunctionLike = false := by simp [isFunctionLike, hn, Form.isFunctionLike]
    rw [inPlace_of_plain hf] at hc
    have inPart := rises_brings rises hd part
    rw [innerFlow_try hn]
    simp only [children, hn, Form.children, List.mem_append] at hc
    rcases hc with ((hc | hc) | hc) | hc
    · refine .attempted (rises_map rises hc inPart) fun k hk => ?_
      obtain ⟨rfl, hk⟩ := hpasses n c isStar body handlers orelse final hn hc hp k hk
      exact ⟨rfl, hk.imp_right (And.imp_right fun h => by rw [h, List.map_nil])⟩
    · exact .handler (List.mem_map_of_mem hc) inPart
    · exact .succeeded (rises_map rises hc inPart)
    · rw [if_neg (by simpa using List.ne_nil_of_mem hc)]
      exact .final (rises_map rises hc inPart)

theorem holds_runs (hkinds : kinds ⊆ [.returnOut, .raiseOut]) (hpasses : HandsOn kinds passes)
    (h : f.Runs passes x) (hg : f.isGrammatical = true) : Holds kinds x.flow f.programFlow := by
  unfold Runs at h
  unfold programFlow
  split_ifs at h ⊢ with hf
  · obtain ⟨c, hc, d, hd, h⟩ := h
    exact rises_bodyFlow (Holds.rises hkinds x.flow) hg hf hc hd
      (holds_partOf hkinds hpasses h (isGrammatical_of_brings hg (List.mem_append_right _ hc) hd))
  · exact holds_partOf hkinds hpasses h hg

end Node

end LostUpdate
