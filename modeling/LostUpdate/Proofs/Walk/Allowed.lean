import LostUpdate.Proofs.Walk.Trail

namespace LostUpdate

theorem Segment.nodup_distinct (l : List Segment) : (distinct l).Nodup := by
  induction h : l.length using Nat.strongRecOn generalizing l with
  | ind n ih =>
    cases l with
    | nil => simp [distinct]
    | cons s l =>
      have shorter := List.length_filter_le (fun q => !q == s) l
      simp only [List.length_cons] at h
      rw [distinct, List.eraseDups_cons]
      refine List.nodup_cons.2 ⟨fun hs => ?_, ih _ (by omega) _ rfl⟩
      simp [List.mem_eraseDups] at hs

/-- Whatever the final part of a `try` comes behind has left from the same path. -/
theorem Segment.exits_subset {ends caught pending segments : List Segment}
    (he : ends ⊆ segments) (hc : caught ⊆ segments) (hp : pending ⊆ segments) :
    (if ends.any (·.isReachable) then ends else caught ++ pending) ⊆ segments := by
  split_ifs
  · exact he
  · exact List.append_subset.2 ⟨hc, hp⟩

theorem Segment.uncaught_subset {caught segments : List Segment} (handlers : List Flow)
    (hc : caught ⊆ segments) : (if handlers.isEmpty then caught else []) ⊆ segments := by
  split_ifs
  · exact hc
  · exact List.nil_subset _

/-- A walk stands at `p` in the open path `path`, inside the open paths `rest`. -/
structure Spot.Stands (rest : List OpenPath) (path : OpenPath) (p : Spot) : Prop where
  consistent : Trail.Consistent ⟨path :: rest, p.paths⟩
  current : ∃ earlier, path.segments = p.current :: earlier
  count : p.segments = path.segments.length
  broken : p.broken ⊆ path.segments
  returned : p.returned ⊆ path.segments
  thrown : p.thrown ⊆ path.segments

/-- What surrounds a flow is in the same path, and a loop has started before the current segment. -/
structure Surroundings.Around (around : Surroundings) (path : OpenPath) : Prop where
  path_eq : around.path = path.id
  continuation : ∀ s, around.continuation = some s → s ∈ path.segments.tail

/-- Events that lead from a spot in the path `before`, when `paths` code paths have started, to the
spot `q` in the same path, which is `after` by then. -/
structure Stretch (rest : List OpenPath) (before : OpenPath) (paths : Nat) (events : List Event)
    (after : OpenPath) (q : Spot) : Prop where
  allowed : Trail.AllowsAll ⟨before :: rest, paths⟩ events
  trail : Trail.after ⟨before :: rest, paths⟩ events = ⟨after :: rest, q.paths⟩
  id : after.id = before.id
  owner : after.owner = before.owner
  grows : before.segments <:+ after.segments
  stands : q.Stands rest after

namespace Spot.Stands

variable {rest : List OpenPath} {path : OpenPath} {p : Spot}

theorem current_mem (h : p.Stands rest path) : p.current ∈ path.segments := by
  obtain ⟨earlier, he⟩ := h.current
  simp [he]

theorem successive (h : p.Stands rest path) : Segment.Successive path.id path.segments :=
  h.consistent.successive path List.mem_cons_self

end Spot.Stands

namespace Stretch

variable {rest : List OpenPath} {a b c : OpenPath} {n : Nat} {p q r : Spot}
  {first second : List Event}

theorem refl (h : p.Stands rest a) : Stretch rest a p.paths [] a p :=
  ⟨trivial, rfl, rfl, rfl, List.suffix_rfl, h⟩

theorem append (h : Stretch rest a n first b q) (k : Stretch rest b q.paths second c r) :
    Stretch rest a n (first ++ second) c r := by
  refine ⟨?_, ?_, k.id.trans h.id, k.owner.trans h.owner, h.grows.trans k.grows, k.stands⟩
  · exact Trail.allowsAll_append.2 ⟨h.allowed, h.trail ▸ k.allowed⟩
  · rw [Trail.after_append, h.trail, k.trail]

theorem subset (h : Stretch rest a n first b q) {l : List Segment} (hl : l ⊆ a.segments) :
    l ⊆ b.segments :=
  fun _ hs => h.grows.subset (hl hs)

theorem mem (h : Stretch rest a n first b q) {s : Segment} (hs : s ∈ a.segments) :
    s ∈ b.segments :=
  h.grows.subset hs

theorem current_mem (h : Stretch rest a n first b q) : q.current ∈ b.segments :=
  h.stands.current_mem

theorem around (h : Stretch rest a n first b q) {around : Surroundings} (ha : around.Around a) :
    around.Around b := by
  refine ⟨ha.path_eq.trans h.id.symm, fun s hs => ?_⟩
  obtain ⟨later, hl⟩ := h.grows
  have mem := ha.continuation s hs
  rw [← hl]
  cases later with
  | nil => exact mem
  | cons l later => exact List.mem_append_right _ (List.mem_of_mem_tail mem)

/-- The spot may forget jumps and take up others, as long as these left from the path. -/
theorem withJumps (h : Stretch rest a n first b q) {broken returned thrown : List Segment}
    (hb : broken ⊆ b.segments) (hr : returned ⊆ b.segments) (ht : thrown ⊆ b.segments) :
    Stretch rest a n first b { q with broken := broken, returned := returned, thrown := thrown } :=
  ⟨h.allowed, h.trail, h.id, h.owner, h.grows, h.stands.consistent, h.stands.current,
    h.stands.count, hb, hr, ht⟩

end Stretch

namespace Walk

variable {rest : List OpenPath} {path : OpenPath} {p : Spot}

theorem emit_stretch (h : p.Stands rest path) {e : Event}
    (allowed : Trail.Allows ⟨path :: rest, p.paths⟩ e)
    (same : Trail.record ⟨path :: rest, p.paths⟩ e = ⟨path :: rest, p.paths⟩) :
    Stretch rest path p.paths (emit e p).1 path (emit e p).2 :=
  ⟨⟨allowed, trivial⟩, same, rfl, rfl, List.suffix_rfl, h⟩

/-- A segment starts behind segments of the path, which then all come before the one that runs. -/
theorem startSegment_stretch {around : Surroundings} (h : p.Stands rest path)
    (ha : around.Around path) {previous : List Segment} (hp : previous ⊆ path.segments) :
    ∃ after, Stretch rest path p.paths (startSegment around.path previous p).1 after
        (startSegment around.path previous p).2 ∧
      after.segments = (startSegment around.path previous p).2.current :: path.segments := by
  let live := Segment.distinct (previous.filter (·.isReachable))
  let s : Segment := ⟨⟨around.path, p.segments + 1⟩, live.map (·.id), !live.isEmpty⟩
  have mem {q : Segment} (hq : q ∈ live) : q ∈ previous ∧ q.isReachable = true := by
    have hq := List.mem_eraseDups.1 hq
    simpa using hq
  obtain ⟨first, hfirst⟩ := h.current
  have continues : s.Continues path.id path.segments := by
    refine ⟨?_, ?_, ?_, ?_⟩
    · simp only [s, h.count, ha.path_eq]
    · intro k hk
      obtain ⟨q, hq, rfl⟩ := List.mem_map.1 hk
      exact ⟨q, hp (mem hq).1, (mem hq).2, rfl⟩
    · have inj : ∀ q ∈ live, ∀ r ∈ live, q.id = r.id → q = r := fun q hq r hr same =>
        h.successive.eq_of_id_eq (hp (mem hq).1) (hp (mem hr).1) same
      exact List.Nodup.map_on inj (Segment.nodup_distinct _)
    · simp [s, hfirst]
  have allowed : Trail.Allows ⟨path :: rest, p.paths⟩ (.segment s) := ⟨path, rest, rfl, continues⟩
  have grown (l : List Segment) (hl : l ⊆ path.segments) : l ⊆ s :: path.segments :=
    fun _ hq => List.mem_cons_of_mem _ (hl hq)
  refine ⟨{ path with segments := s :: path.segments }, ?_, rfl⟩
  refine ⟨⟨allowed, trivial⟩, rfl, rfl, rfl, List.suffix_cons _ _, ?_⟩
  refine ⟨h.consistent.record allowed, ⟨path.segments, rfl⟩, ?_, grown _ h.broken,
    grown _ h.returned, grown _ h.thrown⟩
  simp [startSegment, h.count]

theorem goBack_stretch (h : p.Stands rest path) {target : Segment}
    (ht : target ∈ path.segments.tail) :
    Stretch rest path p.paths (goBack target p).1 path (goBack target p).2 := by
  unfold goBack
  obtain ⟨earlier, he⟩ := h.current
  split_ifs with live
  · refine ⟨⟨⟨path, rest, earlier, rfl, he, live, ?_⟩, trivial⟩, rfl, rfl, rfl, List.suffix_rfl,
      h⟩
    simpa [he] using ht
  · exact .refl h

theorem leave_stretch {around : Surroundings} (h : p.Stands rest path) (ha : around.Around path)
    (kind : Jump) :
    ∃ after, Stretch rest path p.paths (leave around kind p).1 after (leave around kind p).2 := by
  have behind : [] ⊆ path.segments := List.nil_subset _
  have more {l : List Segment} (hl : l ⊆ path.segments) : l ++ [p.current] ⊆ path.segments :=
    List.append_subset.2 ⟨hl, by simpa using h.current_mem⟩
  have here := Stretch.refl h
  cases kind with
  | breakLoop =>
    obtain ⟨after, dead, -⟩ :=
      startSegment_stretch (here.withJumps (more h.broken) h.returned h.thrown).stands ha behind
    exact ⟨after, dead⟩
  | continueLoop =>
    cases hc : around.continuation with
    | none =>
      obtain ⟨after, dead, -⟩ := startSegment_stretch h ha behind
      exact ⟨after, by simpa only [leave, hc] using dead⟩
    | some target =>
      have back := goBack_stretch h (ha.continuation target hc)
      obtain ⟨after, dead, -⟩ := startSegment_stretch back.stands ha behind
      exact ⟨after, by simpa only [leave, hc, andThen] using back.append dead⟩
  | returnOut =>
    obtain ⟨after, dead, -⟩ :=
      startSegment_stretch (here.withJumps h.broken (more h.returned) h.thrown).stands ha behind
    exact ⟨after, dead⟩
  | raiseOut =>
    obtain ⟨after, dead, -⟩ :=
      startSegment_stretch (here.withJumps h.broken h.returned (more h.thrown)).stands ha behind
    exact ⟨after, dead⟩

/-- A code path starts and ends inside what is open, if its body walks a stretch of it. -/
theorem ownPath_allowed {opened : List OpenPath} {paths : Nat}
    (h : Trail.Consistent ⟨opened, paths⟩) (owner : Node) (body : Surroundings → Walk)
    (hbody : ∀ (around : Surroundings) (path : OpenPath) (p : Spot), p.Stands opened path →
      around.Around path →
        ∃ after, Stretch opened path p.paths (body around p).1 after (body around p).2) :
    let upper := opened.head?.map (·.id)
    Trail.AllowsAll ⟨opened, paths⟩ (ownPath upper owner body paths).1 ∧
      Trail.after ⟨opened, paths⟩ (ownPath upper owner body paths).1 =
        ⟨opened, (ownPath upper owner body paths).2⟩ := by
  intro upper
  let path := PathId.ordinal (paths + 1)
  let initial : Segment := ⟨⟨path, 1⟩, [], true⟩
  let before : OpenPath := ⟨path, owner, [initial]⟩
  let p : Spot := ⟨initial, 1, paths + 1, [], [], []⟩
  have starts : Trail.AllowsAll ⟨opened, paths⟩ [.pathStart path owner upper, .segment initial] := by
    refine ⟨⟨rfl, rfl⟩, ⟨⟨path, owner, []⟩, opened, rfl, ?_⟩, trivial⟩
    exact ⟨rfl, by simp [initial], by simp [initial], by simp [initial]⟩
  have stands : p.Stands opened before :=
    ⟨h.after starts, ⟨[], rfl⟩, rfl, List.nil_subset _, List.nil_subset _, List.nil_subset _⟩
  obtain ⟨after, inBody⟩ := hbody ⟨path, none⟩ before p stands
    ⟨rfl, fun s hs => by simp at hs⟩
  let q := (body ⟨path, none⟩ p).2
  have ends : Trail.Allows ⟨after :: opened, q.paths⟩ (.pathEnd path owner q.returned q.thrown) :=
    ⟨after, opened, rfl, inBody.id.symm, inBody.owner.symm,
      List.ne_nil_of_mem inBody.current_mem, inBody.stands.returned, inBody.stands.thrown⟩
  have inside : Trail.after ⟨opened, paths⟩
      ([.pathStart path owner upper, .segment initial] ++ (body ⟨path, none⟩ p).1) =
        ⟨after :: opened, q.paths⟩ := by
    rw [Trail.after_append]
    exact inBody.trail
  constructor
  · refine Trail.allowsAll_concat.2 ⟨Trail.allowsAll_append.2 ⟨starts, inBody.allowed⟩, ?_⟩
    exact inside ▸ ends
  · refine (Trail.after_concat _ _ _).trans ?_
    exact congrArg (fun t => Trail.record t (.pathEnd path owner q.returned q.thrown)) inside

end Walk

namespace Flow

open Walk

variable {rest : List OpenPath} {path : OpenPath} {p : Spot} {around : Surroundings}

/-- Wherever a flow is walked, it walks a stretch of the path that it starts in. -/
def Stretches (f : Flow) : Prop :=
  ∀ ⦃rest : List OpenPath⦄ ⦃path : OpenPath⦄ ⦃p : Spot⦄ ⦃around : Surroundings⦄,
    p.Stands rest path → around.Around path →
      ∃ after, Stretch rest path p.paths (walk around f p).1 after (walk around f p).2

namespace Stretches

variable {first second head body orelse : Flow} {arms handlers : List Flow} {final : Option Flow}

theorem seq (hf : first.Stretches) (hs : second.Stretches) : (Flow.seq first second).Stretches := by
  intro rest path p around h ha
  obtain ⟨a, inFirst⟩ := hf h ha
  obtain ⟨b, inSecond⟩ := hs inFirst.stands (inFirst.around ha)
  exact ⟨b, inFirst.append inSecond⟩

theorem walkArms (hw : ∀ arm ∈ arms, arm.Stretches) (h : p.Stands rest path)
    (ha : around.Around path) {starts : List Segment} (hs : starts ⊆ path.segments) :
    ∃ after, Stretch rest path p.paths (walkArms around starts arms p).1 after
        (walkArms around starts arms p).2.2 ∧
      (walkArms around starts arms p).2.1 ⊆ after.segments := by
  induction arms generalizing path p with
  | nil => exact ⟨path, .refl h, List.nil_subset _⟩
  | cons arm arms ih =>
    obtain ⟨a, started, -⟩ := startSegment_stretch h ha hs
    obtain ⟨b, inArm⟩ := hw arm List.mem_cons_self started.stands (started.around ha)
    obtain ⟨c, inRest, ends⟩ := ih (fun arm h => hw arm (List.mem_cons_of_mem _ h)) inArm.stands
      (inArm.around (started.around ha)) (inArm.subset (started.subset hs))
    exact ⟨c, (started.append inArm).append inRest,
      List.cons_subset.2 ⟨inRest.mem inArm.current_mem, ends⟩⟩

theorem walkChain (hw : ∀ arm ∈ arms, arm.Stretches) (h : p.Stands rest path)
    (ha : around.Around path) :
    ∃ after, Stretch rest path p.paths (walkChain around arms p).1 after
        (walkChain around arms p).2.2 ∧
      (walkChain around arms p).2.1 ⊆ after.segments := by
  induction arms generalizing path p with
  | nil => exact ⟨path, .refl h, by simpa [Flow.walkChain] using h.current_mem⟩
  | cons arm arms ih =>
    have start : [p.current] ⊆ path.segments := by simpa using h.current_mem
    obtain ⟨a, started, -⟩ := startSegment_stretch h ha start
    obtain ⟨b, inArm⟩ := hw arm List.mem_cons_self started.stands (started.around ha)
    obtain ⟨c, inRest, ends⟩ := ih (fun arm h => hw arm (List.mem_cons_of_mem _ h)) inArm.stands
      (inArm.around (started.around ha))
    exact ⟨c, (started.append inArm).append inRest,
      List.cons_subset.2 ⟨inRest.mem (inArm.mem (started.mem h.current_mem)), ends⟩⟩

theorem choose (fallsThrough : Bool) (hw : ∀ arm ∈ arms, arm.Stretches) :
    (Flow.choose fallsThrough arms).Stretches := by
  intro rest path p around h ha
  have start : [p.current] ⊆ path.segments := by simpa using h.current_mem
  obtain ⟨a, inArms, ends⟩ := walkArms hw h ha start
  have behind : (if fallsThrough then [p.current] else []) ++
      (Flow.walkArms around [p.current] arms p).2.1 ⊆ a.segments := by
    refine List.append_subset.2 ⟨?_, ends⟩
    cases fallsThrough
    · exact List.nil_subset _
    · exact inArms.subset start
  obtain ⟨b, joined, -⟩ := startSegment_stretch inArms.stands (inArms.around ha) behind
  exact ⟨b, inArms.append joined⟩

theorem chain (hw : ∀ arm ∈ arms, arm.Stretches) : (Flow.chain arms).Stretches := by
  intro rest path p around h ha
  obtain ⟨a, inArms, ends⟩ := walkChain hw h ha
  obtain ⟨b, joined, -⟩ := startSegment_stretch inArms.stands (inArms.around ha) ends
  exact ⟨b, inArms.append joined⟩

theorem loop (hh : head.Stretches) (hb : body.Stretches) (ho : orelse.Stretches) :
    (Flow.loop head body orelse).Stretches := by
  intro rest path p around h ha
  have start : [p.current] ⊆ path.segments := by simpa using h.current_mem
  obtain ⟨a, entered, ea⟩ := startSegment_stretch h ha start
  obtain ⟨b, inHead⟩ := hh entered.stands (entered.around ha)
  have aroundHead := inHead.around (entered.around ha)
  have fork {l : List Segment} (hl : l ⊆ b.segments) :
      (walk around head (startSegment around.path [p.current] p).2).2.current :: l ⊆ b.segments :=
    List.cons_subset.2 ⟨inHead.current_mem, hl⟩
  obtain ⟨c, turned, ec⟩ :=
    startSegment_stretch inHead.stands aroundHead (fork (List.nil_subset _))
  have aroundBody : Surroundings.Around { around with
      continuation := some (startSegment around.path [p.current] p).2.current } c := by
    refine ⟨(turned.around aroundHead).path_eq, fun s hs => ?_⟩
    obtain rfl : (startSegment around.path [p.current] p).2.current = s := by simpa using hs
    rw [ec]
    exact inHead.mem entered.current_mem
  have ready := turned.withJumps (List.nil_subset _) turned.stands.returned turned.stands.thrown
  obtain ⟨d, inBody⟩ := hb ready.stands aroundBody
  have back := goBack_stretch inBody.stands
    ((inBody.around aroundBody).continuation _ rfl)
  have aroundBack := back.around (inBody.around (turned.around aroundHead))
  have outer := back.withJumps
    (back.subset (inBody.subset turned.stands.broken)) back.stands.returned back.stands.thrown
  obtain ⟨e, left, -⟩ := startSegment_stretch outer.stands aroundBack
    (back.subset (inBody.subset (turned.subset (fork (List.nil_subset _)))))
  obtain ⟨g, inElse⟩ := ho left.stands (left.around aroundBack)
  have ends := List.cons_subset.2 ⟨inElse.current_mem,
    inElse.subset (left.subset (back.subset inBody.stands.broken))⟩
  obtain ⟨z, joined, -⟩ :=
    startSegment_stretch inElse.stands (inElse.around (left.around aroundBack)) ends
  exact ⟨z, (((((((entered.append inHead).append ready).append inBody).append outer).append
    left).append inElse).append joined)⟩

theorem attempt (hb : body.Stretches) (hw : ∀ handler ∈ handlers, handler.Stretches)
    (ho : orelse.Stretches) (hf : ∀ f ∈ final, f.Stretches) :
    (Flow.attempt body handlers orelse final).Stretches := by
  intro rest path p around h ha
  have start : [p.current] ⊆ path.segments := by simpa using h.current_mem
  obtain ⟨a, entered, -⟩ := startSegment_stretch h ha start
  have aroundBody := entered.around ha
  have ready := entered.withJumps entered.stands.broken (List.nil_subset _) (List.nil_subset _)
  obtain ⟨b, inBody⟩ := hb ready.stands aroundBody
  have aroundHandlers := inBody.around aroundBody
  have outer := inBody.withJumps inBody.stands.broken
    (inBody.subset entered.stands.returned) (inBody.subset entered.stands.thrown)
  have starts := List.cons_subset.2 ⟨inBody.mem entered.current_mem,
    List.cons_subset.2 ⟨inBody.current_mem, inBody.stands.thrown⟩⟩
  obtain ⟨c, inHandlers, ends⟩ := walkArms hw outer.stands aroundHandlers starts
  have bodyEnd := inHandlers.mem inBody.current_mem
  obtain ⟨d, goOn, -⟩ := startSegment_stretch inHandlers.stands (inHandlers.around aroundHandlers)
    (List.cons_subset.2 ⟨bodyEnd, List.nil_subset _⟩)
  have aroundElse := goOn.around (inHandlers.around aroundHandlers)
  obtain ⟨e, inElse⟩ := ho goOn.stands aroundElse
  have normal := List.cons_subset.2 ⟨inElse.current_mem, inElse.subset (goOn.subset ends)⟩
  have caught := inElse.subset (goOn.subset (inHandlers.subset inBody.stands.thrown))
  have pending := inElse.subset (goOn.subset (inHandlers.subset inBody.stands.returned))
  have beforeElse := ((entered.append inBody).append inHandlers).append goOn
  cases final with
  | none =>
    have leaving := inElse.withJumps inElse.stands.broken
      (List.append_subset.2 ⟨inElse.stands.returned, pending⟩)
      (List.append_subset.2 ⟨inElse.stands.thrown, Segment.uncaught_subset handlers caught⟩)
    obtain ⟨z, joined, -⟩ :=
      startSegment_stretch leaving.stands (inElse.around aroundElse) normal
    exact ⟨z, (beforeElse.append leaving).append joined⟩
  | some final =>
    obtain ⟨g, begun, -⟩ :=
      startSegment_stretch inElse.stands (inElse.around aroundElse)
        (Segment.exits_subset normal caught pending)
    obtain ⟨z, inFinal⟩ := hf final rfl begun.stands (begun.around (inElse.around aroundElse))
    exact ⟨z, (beforeElse.append inElse).append (begun.append inFinal)⟩

theorem codePath (owner : Node) (hb : body.Stretches) : (Flow.codePath owner body).Stretches := by
  intro rest path p around h ha
  obtain ⟨allowed, closed⟩ := ownPath_allowed h.consistent owner (fun inside => walk inside body)
    fun around path p hp hin => hb hp hin
  rw [List.head?_cons, Option.map_some, ← ha.path_eq] at allowed closed
  refine ⟨path, allowed, closed, rfl, rfl, List.suffix_rfl, ?_⟩
  have consistent := h.consistent.after allowed
  rw [closed] at consistent
  exact ⟨consistent, h.current, h.count, h.broken, h.returned, h.thrown⟩

end Stretches

/-- The walk of a flow is a stretch of the path that it starts in. -/
theorem stretches (f : Flow) : f.Stretches := by
  induction f with
  | idle => exact fun rest path p around h ha => ⟨path, .refl h⟩
  | enter n =>
    intro rest path p around h ha
    exact ⟨path, emit_stretch h ⟨path, rest, rfl, List.ne_nil_of_mem h.current_mem⟩ rfl⟩
  | exit n =>
    intro rest path p around h ha
    exact ⟨path, emit_stretch h ⟨path, rest, rfl, List.ne_nil_of_mem h.current_mem⟩ rfl⟩
  | seq first second hf hs => exact hf.seq hs
  | choose fallsThrough arms hw => exact .choose fallsThrough hw
  | chain arms hw => exact .chain hw
  | loop head body orelse hh hb ho => exact hh.loop hb ho
  | attempt body handlers orelse final hb hw ho hf => exact hb.attempt hw ho hf
  | jump kind => exact fun rest path p around h ha => leave_stretch h ha kind
  | codePath owner body hb => exact hb.codePath owner

end Flow

/-- The events of a walk come in an allowed order, and all paths have ended after them. -/
theorem Node.events_allowed (n : Node) :
    Trail.empty.AllowsAll n.events ∧ (Trail.empty.after n.events).opened = [] := by
  have h := Walk.ownPath_allowed Trail.consistent_empty n (fun inside => n.programFlow.walk inside)
    fun around path p hp ha => n.programFlow.stretches hp ha
  exact ⟨h.1, congrArg Trail.opened h.2⟩

end LostUpdate
