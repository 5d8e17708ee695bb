import LostUpdate.Proofs.Race.Part

namespace LostUpdate

/-- Whether what is reported is an assignment in the code that runs in the path of `f` or below. -/
def Violation.liesIn (v : Violation) (f : Node) : Bool :=
  v.assignment.any fun a => (f.ownCode.flatMap Node.ids).contains a.id

namespace Session

/-- The owners of the code paths that are followed, innermost first. -/
def owners (s : Session) : List Node :=
  s.tracker.frames.filterMap fun frame => s.paths[frame.path]?.map (·.owner)

/-- What is reported on the way while the code path of `f` is open. -/
def reportedWithin (f : Node) : List (Event × Session × Session) → List Violation
  | [] => []
  | (_, before, after) :: later =>
    (if before.owners.any (·.id = f.id) then
      after.tracker.violations.drop before.tracker.violations.length else []) ++
        reportedWithin f later

theorem Follows.owners_eq {c : Subject} {s : Session} {t : Trail} (h : s.Follows c t) :
    s.owners = t.owners := by
  have among {frames : List Frame} {opened : List OpenPath} (hopened : opened ⊆ t.opened)
      (hf : List.Forall₂ (Frame.StandsFor c) frames opened) :
      (frames.filterMap fun frame => s.paths[frame.path]?.map (·.owner)) =
        opened.map (·.owner) := by
    induction hf with
    | nil => rfl
    | @cons frame p frames opened hstands _ ih =>
      obtain ⟨q, hq, hdrawn⟩ :=
        h.drawn.getElem?_opened (hopened List.mem_cons_self) hstands.id
      have later := ih fun p hp => hopened (List.mem_cons_of_mem _ hp)
      rw [List.filterMap_cons, hq, Option.map_some, hdrawn.owner, later, List.map_cons]
  exact among (List.Subset.refl _) h.frames

end Session

namespace Finding

variable (c : Subject) (met : List Meeting) (f : Node)

open Classical in
/-- What is found while the code path of `f` is open. -/
noncomputable def within (done : List Event) : List Event → List Finding
  | [] => []
  | e :: events =>
    (if f ∈ (Trail.empty.after done).owners then atEvent c met done e else []) ++
      within (done ++ [e]) events

theorem within_append (done first second : List Event) :
    within c met f done (first ++ second) =
      within c met f done first ++ within c met f (done ++ first) second := by
  induction first generalizing done with
  | nil => simp [within]
  | cons e first ih => simp [within, ih]

variable {c met f} {done events : List Event}

theorem within_of_closed
    (h : ∀ first last, events = first ++ last → f ∉ (Trail.empty.after (done ++ first)).owners) :
    within c met f done events = [] := by
  induction events generalizing done with
  | nil => rfl
  | cons e events ih =>
    have closed := h [] (e :: events) rfl
    rw [List.append_nil] at closed
    rw [within, if_neg closed, List.nil_append]
    apply ih
    intro first last hsplit
    have next := h (e :: first) last (by rw [hsplit, List.cons_append])
    rwa [List.append_assoc]

theorem within_of_open (h : ∀ first value last, events = first ++ .exit value :: last →
      f ∈ (Trail.empty.after (done ++ first)).owners) :
    within c met f done events = along c met done events := by
  induction events generalizing done with
  | nil => rfl
  | cons e events ih =>
    have later : within c met f (done ++ [e]) events = along c met (done ++ [e]) events := by
      apply ih
      intro first value last hsplit
      have next := h (e :: first) value last (by rw [hsplit, List.cons_append])
      rwa [List.append_assoc]
    rw [within, along, later]
    cases e with
    | exit value =>
      have hopen := h [] value events rfl
      rw [List.append_nil] at hopen
      rw [if_pos hopen]
    | _ => simp [atEvent]

end Finding

theorem Trail.owners_within (outer t : Trail) :
    (outer.within t).owners = t.owners ++ outer.owners := by
  simp [owners, Trail.within, OpenPath.shift]

/-- While the events of a function leave nodes, its code path is open. -/
theorem Node.open_of_exit {f v : Node} (h : f.isGrammatical = true) (hl : f.isFunctionLike = true)
    {done rest : List Event} (hf : f.events = done ++ .exit v :: rest) :
    f ∈ (Trail.empty.after done).owners := by
  have split := Trail.empty.visits_append (allowed_of_split hf) (.exit v :: rest)
  have left : ((Trail.empty.after done).owners, Stop.exit v) ∈ Event.visits [] f.events := by
    rw [hf]
    refine split ▸ List.mem_append_right _ ?_
    exact List.mem_cons_self
  rw [visits_events_of_functionLike hl, List.mem_cons] at left
  have visit := left.resolve_left (by simp)
  exact (suffix_of_visit_body h hl visit).subset List.mem_cons_self

section Block

variable {c : Subject} {o : Outline} {n f : Node} {before later done rest : List Event}
  {above : Option PathId}

/-- What is reported while the code path of a function is open has been found while it is. -/
theorem Session.within_reports (ho : c.scoping.Grammatical o)
    (hn : n ∈ c.scoping.tree.nodes)
    (hf : f ∈ c.scoping.tree.nodes) (h : n.events = done ++ rest) {s : Session}
    (hs : initial.run c done = .ok s) {steps : List (Event × Session × Session)}
    (hsteps : s.history c rest = .ok steps) :
    (Finding.within c (Trail.empty.meetings c n.events) f done rest).mapM (Finding.violation c) =
      .ok (reportedWithin f steps) := by
  induction rest generalizing done s steps with
  | nil =>
    obtain rfl : [] = steps := by simpa [history, pure, Except.pure] using hsteps
    rfl
  | cons e rest ih =>
    have hdone := (Trail.allowsAll_append.1 (h ▸ n.events_allowed.1)).1
    obtain ⟨follows, exact⟩ := follows_run hdone hs
    obtain ⟨reports, -⟩ := ((run_reports ho hn h).1 s hs).1.step ho hn follows exact h
    have active : s.owners.any (·.id = f.id) = true ↔ f ∈ (Trail.empty.after done).owners := by
      rw [follows.owners_eq, List.any_eq_true]
      constructor
      · rintro ⟨owner, howner, hid⟩
        have mem : owner ∈ c.scoping.tree.nodes := by
          refine GrammaticalTree.mem_nodes_of_event (t := ho.tree) hn Stop.shows_started? ?_
          rw [h, Event.nodes_append]
          exact List.mem_append_left _
            (List.mem_reverse.1 ((Trail.owners_sublist done).subset howner))
        exact Tree.eq_of_id_eq mem hf (of_decide_eq_true hid) ▸ howner
      · exact fun hmem => ⟨f, hmem, by simp⟩
    rw [history] at hsteps
    cases hstep : s.step c e with
    | mk next fault =>
      cases fault with
      | some fault => simp [after, hstep, bind, Except.bind] at hsteps
      | none =>
        have hnext : s.after c e = .ok next := by rw [after, hstep]
        rw [hnext] at hsteps
        cases hlater : next.history c rest with
        | error fault => simp [hlater, bind, Except.bind] at hsteps
        | ok steps' =>
          obtain rfl : (e, s, next) :: steps' = steps := by
            simpa [hlater, bind, Except.bind, pure, Except.pure] using hsteps
          have run := run_concat.2 ⟨s, hs, hstep⟩
          have inner := ih (by rw [h]; simp) run hlater
          rw [hstep] at reports
          rw [Finding.within, List.mapM_append, inner, reportedWithin]
          by_cases hopen : f ∈ (Trail.empty.after done).owners
          · rw [if_pos hopen, if_pos (active.2 hopen)]
            revert reports
            generalize List.mapM (Finding.violation c) _ = found
            cases found with
            | error fault => exact fun reports => absurd reports (by simp [Tracker.Reports])
            | ok found =>
              intro reports
              rw [show next.tracker.violations = s.tracker.violations ++ found from reports.2,
                List.drop_left]
              rfl
          · rw [if_neg hopen, if_neg (fun any => hopen (active.1 any))]
            rfl

/-- What is found while the code path of a function is open is found in the function alone. -/
theorem Finding.within_part (ho : c.scoping.Grammatical o)
    (hn : n ∈ c.scoping.tree.nodes)
    (hf : f ∈ c.scoping.tree.nodes) (hl : f.isFunctionLike = true)
    (h : n.Contains f before later above) :
    within c (Trail.empty.meetings c n.events) f [] n.events = c.findings f := by
  have grammatical := ho.tree.isGrammatical_of_mem hf
  have starts : f ∈ Event.nodes Stop.started? f.events := by
    rw [← Event.nodes_visits Stop.started? [], Node.visits_events_of_functionLike hl]
    simp [Stop.nodes, Stop.started?]
  have distinct := GrammaticalTree.nodup_events (t := ho.tree) hn Stop.shows_started?
  rw [h, Event.nodes_append, Event.nodes_append, Event.nodes_shift, List.nodup_append] at distinct
  obtain ⟨-, behind, apart⟩ := distinct
  have before_closed {first : List Event} (hfirst : first <+: before) :
      f ∉ (Trail.empty.after first).owners := by
    intro hmem
    have started := List.mem_reverse.1 ((Trail.owners_sublist first).subset hmem)
    obtain ⟨between, rfl⟩ := hfirst
    rw [Event.nodes_append] at apart
    exact apart f (List.mem_append_left _ started) f (List.mem_append_left _ starts) rfl
  have inside : within c (Trail.empty.meetings c n.events) f before
      (f.events.map (Event.shift (Trail.empty.after before).started above)) = c.findings f := by
    rw [within_of_open, along_block ho hn hf h]
    intro first value last hsplit
    obtain ⟨done, tail, hevents, rfl, htail⟩ := List.map_eq_append_iff.1 hsplit
    obtain ⟨e, rest, rfl, he, -⟩ := List.map_eq_cons_iff.1 htail
    obtain rfl : e = .exit value := by cases e <;> simp_all [Event.shift]
    rw [Trail.after_block (Node.allowed_of_split hevents), Trail.owners_within]
    exact List.mem_append_left _ (Node.open_of_exit grammatical hl hevents)
  have after_none : within c (Trail.empty.meetings c n.events) f
      (before ++ f.events.map (Event.shift (Trail.empty.after before).started above)) later = [] := by
    apply within_of_closed
    intro first last hsplit hmem
    rw [Trail.after_append, Trail.after_block f.events_allowed.1] at hmem
    have sublist := Trail.owners_after_sublist
      ((Trail.empty.after before).within (Trail.empty.after f.events)) first
    rcases List.mem_append.1 (sublist.subset hmem) with hmem | hmem
    · rw [hsplit, Event.nodes_append] at behind
      exact (List.nodup_append.1 behind).2.2 f starts f
        (List.mem_append_left _ (List.mem_reverse.1 hmem)) rfl
    · rw [Trail.owners_within, Trail.owners, f.events_allowed.2, List.map_nil,
        List.nil_append] at hmem
      exact before_closed List.prefix_rfl hmem
  have before_none : within c (Trail.empty.meetings c n.events) f [] before = [] := by
    apply within_of_closed
    intro first last hsplit
    exact before_closed ⟨last, hsplit.symm⟩
  have split : within c (Trail.empty.meetings c n.events) f [] n.events = _ :=
    congrArg (within c (Trail.empty.meetings c n.events) f []) h
  rw [split, within_append, within_append, List.nil_append, before_none, inside, after_none,
    List.nil_append, List.append_nil]

end Block

/-- Filtering what comes of a list filters the list, if the two filters fit. -/
theorem mapM_filter_ok {α β ε : Type} {g : α → Except ε β} {p : α → Bool} {q : β → Bool} {l : List α}
    {out : List β} (h : l.mapM g = .ok out) (hpq : ∀ a ∈ l, ∀ b, g a = .ok b → q b = p a) :
    (l.filter p).mapM g = .ok (out.filter q) := by
  induction l generalizing out with
  | nil =>
    obtain rfl : [] = out := by simpa [pure, Except.pure] using h
    rfl
  | cons a l ih =>
    rw [List.mapM_cons] at h
    cases ha : g a with
    | error e => simp [ha, bind, Except.bind] at h
    | ok b =>
      cases hl : l.mapM g with
      | error e => simp [ha, hl, bind, Except.bind] at h
      | ok rest =>
        obtain rfl : b :: rest = out := by
          simpa [ha, hl, bind, Except.bind, pure, Except.pure] using h
        have later := ih hl fun a ha => hpq a (List.mem_cons_of_mem _ ha)
        have same := hpq a List.mem_cons_self b ha
        cases hp : p a with
        | false => simp [hp, same.trans hp, later]
        | true =>
          simp [hp, same.trans hp, List.mapM_cons, ha, later, bind, Except.bind, pure, Except.pure]

theorem Violation.liesIn_iff {t : Tree} {v : Violation} {a f : Node} (h : f.isGrammatical = true)
    (hf : f ∈ t.nodes) (ha : a ∈ t.nodes) (hv : v.assignment = some a) :
    v.liesIn f = true ↔ a ∈ f.ownCode.flatMap Node.preorder := by
  rw [liesIn, hv, Option.any_some, List.contains_iff_mem, List.mem_flatMap, List.mem_flatMap]
  constructor
  · rintro ⟨c, hown, hid⟩
    obtain ⟨b, hb, hid⟩ := List.mem_map.1 hid
    have part := Node.mem_preorder_of_part h (List.mem_append_right _ hown)
    have inside := Tree.mem_nodes_trans hf part
    obtain rfl := Tree.eq_of_id_eq (Tree.mem_nodes_trans inside hb) ha hid
    exact ⟨c, hown, hb⟩
  · rintro ⟨c, hown, hmem⟩
    exact ⟨c, hown, List.mem_map_of_mem hmem⟩

section Part

variable {c : Subject} {o : Outline} {f : Node}

/-- Among the reports of a program, those of a function are told by the code in which they lie. -/
theorem Subject.reports_part (ho : c.scoping.Grammatical o)
    (hf : f ∈ c.scoping.tree.nodes)
    (hl : f.isFunctionLike = true) {before later : List Event} {above : Option PathId}
    (h : c.scoping.tree.root.Contains f before later above) {whole : List Violation}
    (hw : (c.findings c.scoping.tree.root).mapM (Finding.violation c) = .ok whole) :
    (c.findings f).mapM (Finding.violation c) = .ok (whole.filter (·.liesIn f)) := by
  classical
  have grammatical := ho.tree.isGrammatical_of_mem hf
  rw [findings_part ho c.scoping.tree.root.mem_preorder_self hf hl h]
  refine mapM_filter_ok hw ?_
  intro g hmem v hv
  obtain ⟨a, ha, updates, target, -, -, hviolation⟩ := violation_of_mem_findings ho.toOutlined hmem
  have assigns : v.assignment = some a := by
    rw [hviolation] at hv
    obtain ⟨text, -, rfl⟩ := exists_ok_of_map hv
    rfl
  rw [Bool.eq_iff_iff, Violation.liesIn_iff grammatical hf ha assigns, decide_eq_true_iff,
    Tree.mem_ownCode_iff grammatical hf hl ha updates.1]

end Part

/-- The analysis of a function reports what the analysis of its program reports of assignments in the
code of the function, in the same order; and this is what the program is reported for while the code
path of the function is open. The walk must come to the function: one that starts at a function
passes over what runs before that. -/
theorem Subject.analyze_part {t : Tree} (hg : t.root.isGrammatical = true) {m : Scoping}
    (hm : Scoping.ofTree t = .ok m) {f : Node} (hf : f ∈ t.nodes) (hl : f.isFunctionLike = true)
    (hh : t.root.isFunctionLike = true → f ∉ t.root.heading.flatMap Node.preorder)
    (source : Option String) (shared : List String) {whole : Tracker}
    (hw : analyze ⟨m, source, shared⟩ t.root = .ok whole) : ∃ part steps,
      analyze ⟨m, source, shared⟩ f = .ok part ∧
        Session.initial.history ⟨m, source, shared⟩ t.root.events = .ok steps ∧
          part.violations = whole.violations.filter (·.liesIn f) ∧
            part.violations = Session.reportedWithin f steps := by
  obtain rfl := Scoping.tree_eq_of_ofTree hm
  obtain ⟨o, ho⟩ := Scoping.exists_grammatical hm hg
  let c : Subject := ⟨m, source, shared⟩
  have hroot : m.tree.root ∈ c.scoping.tree.nodes := m.tree.root.mem_preorder_self
  obtain ⟨before, later, above, contains⟩ := Node.exists_contains hg hf hl hh
  have reports : (c.findings m.tree.root).mapM (Finding.violation c) = .ok whole.violations := by
    rw [← analyze_reports ho hroot, hw]
    rfl
  have own := reports_part (c := c) ho hf hl contains reports
  obtain ⟨part, hpart, violations⟩ : ∃ part, c.analyze f = .ok part ∧
      part.violations = whole.violations.filter (·.liesIn f) := by
    rw [← analyze_reports ho hf] at own
    exact exists_ok_of_map own
  obtain ⟨last, hlast, -⟩ := exists_ok_of_map hw
  obtain ⟨steps, hsteps⟩ := Session.exists_history hlast
  have within := Session.within_reports (f := f) ho hroot hf (List.nil_append _).symm rfl hsteps
  rw [Finding.within_part ho hroot hf hl contains, own] at within
  exact ⟨part, steps, hpart, hsteps, violations, violations.trans (Except.ok.inj within)⟩

namespace Pair

def difference : Node :=
  .mk 15 none (.binary (.mk 16 none (.name "rest" .load)) .sub
    (.mk 17 none (.await (.mk 18 none (.name "step" .load)))))

def drop : Node :=
  .mk 10 none (.function true "drop" (.mk 11 none (.parameterList ⟨[], [], none, [], [], none, []⟩))
    [.mk 12 none (.globalDecl ["rest"]),
      .mk 13 none (.assign [.mk 14 none (.name "rest" .store)] difference)] [] none)

/-- The coroutine `bump`, and another one behind it:

    async def drop():
        global rest
        rest = rest - await step
-/
def root : Node := .mk 0 none (.module [Bump.function, drop])

def tree : Tree := ⟨root, root.edges, rfl, pairwise_of_strictlyAscending (by cbv)⟩

theorem isGrammatical : tree.root.isGrammatical = true := by cbv

def scoping : Scoping := ((Scoping.ofTree tree).toOption).getD ⟨tree, []⟩

theorem ofTree_tree : Scoping.ofTree tree = .ok scoping := by cbv

theorem drop_mem : drop ∈ tree.nodes :=
  tree.mem_nodes_of_mem_children (show root ∈ tree.nodes from root.mem_preorder_self)
    (List.mem_cons_of_mem _ List.mem_cons_self)

end Pair

/-- Of the two reports on the program, the one on `drop` is left. -/
theorem Subject.analyze_part_pair : ∃ whole part steps,
    analyze ⟨Pair.scoping, none, []⟩ Pair.tree.root = .ok whole ∧
      analyze ⟨Pair.scoping, none, []⟩ Pair.drop = .ok part ∧
        Session.initial.history ⟨Pair.scoping, none, []⟩ Pair.tree.root.events = .ok steps ∧
          part.violations = whole.violations.filter (·.liesIn Pair.drop) ∧
            part.violations = Session.reportedWithin Pair.drop steps ∧
              whole.violations.map (·.target) = ["total", "rest"] ∧
                part.violations.map (·.target) = ["rest"] := by
  have both : (analyze ⟨Pair.scoping, none, []⟩ Pair.tree.root).map
      (fun t => t.violations.map (·.target)) = .ok ["total", "rest"] := by cbv
  have one : (analyze ⟨Pair.scoping, none, []⟩ Pair.drop).map
      (fun t => t.violations.map (·.target)) = .ok ["rest"] := by cbv
  obtain ⟨whole, hwhole, targets⟩ := exists_ok_of_map both
  obtain ⟨part, steps, hpart, hsteps, filtered, within⟩ :=
    Subject.analyze_part Pair.isGrammatical Pair.ofTree_tree Pair.drop_mem rfl
      (fun h => by simp [Pair.tree, Pair.root, Node.isFunctionLike, Node.form,
        Form.isFunctionLike] at h) none [] hwhole
  rw [hpart] at one
  exact ⟨whole, part, steps, hwhole, hpart, hsteps, filtered, within, targets, Except.ok.inj one⟩

namespace Show

def increase : Node :=
  .mk 4 none (.walrus (.mk 5 none (.name "total" .store))
    (.mk 6 none (.binary (.mk 7 none (.name "total" .load)) .add
      (.mk 8 none (.await (.mk 9 none (.name "step" .load)))))))

def totals : Node :=
  .mk 3 none (.comprehension .generator [increase]
    [.mk 10 none (.clause (.mk 11 none (.name "tick" .store))
      (.mk 12 none (.name "ticks" .load)) [] false)])

/-- A function with a generator expression among its defaults, which runs before the function does:

    def show(totals=(total := total + await step for tick in ticks)):
        pass
-/
def root : Node :=
  .mk 0 none (.function false "show"
    (.mk 1 none (.parameterList ⟨[], [.mk 2 none (.parameter "totals" none)], none, [], [], none,
      [totals]⟩)) [.mk 13 none .pass] [] none)

def tree : Tree := ⟨root, root.edges, rfl, pairwise_of_strictlyAscending (by cbv)⟩

def scoping : Scoping := ((Scoping.ofTree tree).toOption).getD ⟨tree, []⟩

/-- The walk from the function does not come to the generator expression, which has a finding. -/
theorem part_not_sublist : Scoping.ofTree tree = .ok scoping ∧ totals ∈ tree.nodes ∧
    totals.isFunctionLike = true ∧ ∃ whole part,
      Subject.analyze ⟨scoping, none, []⟩ tree.root = .ok whole ∧
        Subject.analyze ⟨scoping, none, []⟩ totals = .ok part ∧
          ¬ part.violations.Sublist whole.violations := by
  have mem : totals ∈ tree.nodes := by
    have top : root ∈ tree.nodes := root.mem_preorder_self
    exact tree.mem_nodes_of_mem_children (tree.mem_nodes_of_mem_children top List.mem_cons_self)
      (List.mem_cons_of_mem _ List.mem_cons_self)
  have above : (Subject.analyze ⟨scoping, none, []⟩ tree.root).map
      (fun t => t.violations.map (·.target)) = .ok [] := by cbv
  have inside : (Subject.analyze ⟨scoping, none, []⟩ totals).map
      (fun t => t.violations.map (·.target)) = .ok ["total"] := by cbv
  obtain ⟨whole, hwhole, hnone⟩ := exists_ok_of_map above
  obtain ⟨part, hpart, htarget⟩ := exists_ok_of_map inside
  refine ⟨by cbv, mem, rfl, whole, part, hwhole, hpart, ?_⟩
  intro sublist
  have targets := sublist.map (·.target)
  rw [hnone, htarget] at targets
  simp at targets

end Show

end LostUpdate
