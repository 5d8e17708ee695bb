import LostUpdate.Proofs.Race.Settling
import LostUpdate.Proofs.Report.Outcomes
import LostUpdate.Proofs.Report.Warnings

namespace LostUpdate

namespace Violation

/-- The order in which violations are shown. -/
def AtOrBefore (a b : Violation) : Prop :=
  a.line < b.line ∨ a.line = b.line ∧ a.column ≤ b.column

/-- The violations `found`, as `shown`: by their places, and otherwise as they were found. -/
structure StablySorted (found shown : List Violation) : Prop where
  perm : shown.Perm found
  ordered : shown.Pairwise AtOrBefore
  ties : ∀ line column, shown.filter (fun v => v.line = line ∧ v.column = column) =
    found.filter fun v => v.line = line ∧ v.column = column

theorem AtOrBefore.trans {a b c : Violation} (h : AtOrBefore a b) (h' : AtOrBefore b c) :
    AtOrBefore a c := by
  unfold AtOrBefore at *
  omega

theorem AtOrBefore.total (a b : Violation) : AtOrBefore a b ∨ AtOrBefore b a := by
  unfold AtOrBefore
  omega

instance (a b : Violation) : Decidable (AtOrBefore a b) :=
  inferInstanceAs (Decidable (_ ∨ _))

theorem sorted_eq_mergeSort (found : List Violation) :
    Result.sorted found = found.mergeSort fun a b => decide (AtOrBefore a b) := by
  have same : (fun a b : Violation => decide (a.line < b.line) ||
      decide (a.line = b.line) && decide (a.column ≤ b.column)) =
        fun a b => decide (AtOrBefore a b) := by
    funext a b
    rw [Bool.eq_iff_iff]
    simp only [Bool.or_eq_true, Bool.and_eq_true, decide_eq_true_eq]
    rfl
  rw [Result.sorted, same]

/-- The sort by places is stable. -/
theorem stablySorted_sorted (found : List Violation) :
    StablySorted found (Result.sorted found) := by
  have trans (a b c : Violation) : decide (AtOrBefore a b) = true → decide (AtOrBefore b c) = true →
      decide (AtOrBefore a c) = true := by
    simpa only [decide_eq_true_eq] using AtOrBefore.trans
  have total (a b : Violation) : (decide (AtOrBefore a b) || decide (AtOrBefore b a)) = true := by
    simpa only [Bool.or_eq_true, decide_eq_true_eq] using AtOrBefore.total a b
  rw [sorted_eq_mergeSort]
  have perm := List.mergeSort_perm found fun a b => decide (AtOrBefore a b)
  refine ⟨perm, ?_, fun line column => ?_⟩
  · exact (List.pairwise_mergeSort trans total found).imp fun h => of_decide_eq_true h
  · -- those at one place are in order as they were found, so the sort keeps them as a sublist
    let here := fun v : Violation => decide (v.line = line ∧ v.column = column)
    have inOrder : (found.filter here).Pairwise fun a b => decide (AtOrBefore a b) = true := by
      refine List.pairwise_of_forall_mem_list fun a ha b hb => ?_
      simp only [here, List.mem_filter, decide_eq_true_eq] at ha hb
      simp [AtOrBefore, ha.2, hb.2]
    have kept := (List.sublist_mergeSort trans total inOrder List.filter_sublist).filter here
    simp only [List.filter_filter, Bool.and_self] at kept
    exact (kept.eq_of_length (perm.filter here).length_eq.symm).symm

end Violation

namespace Result

variable {r q : Result} {source file : String} {parsed : Parsed} {parse : String → Parsed}
  {shared : List String} {tracker : Tracker}

/-- The analysis of a text comes to its end, in the state `tracker`. -/
def Completes (source : String) (parsed : Parsed) (shared : List String) (tracker : Tracker) :
    Prop :=
  ∃ t m, parsed = .ok t ∧ Scoping.ofTree t = .ok m ∧
    Subject.analyze ⟨m, some source, shared⟩ t.root = .ok tracker

/-- The result shows what the analysis that ended in the state `tracker` has found. -/
structure Shows (r : Result) (tracker : Tracker) : Prop where
  errors : r.errors = []
  violations : Violation.StablySorted tracker.violations r.violations
  metrics : r.metrics = [
    ("code_paths", (tracker.stats.codePaths : Int)),
    ("resumable_functions", (tracker.stats.resumableFunctions : Int)),
    ("segments", (tracker.stats.segments : Int)),
    ("back_edges", (tracker.stats.backEdges : Int)),
    ("unreachable_segments", (tracker.stats.unreachableSegments : Int)),
    ("suspension_points", (tracker.stats.suspensionPoints : Int)),
    ("checked_assignments", (tracker.stats.checkedAssignments : Int)),
    ("violations", (r.violations.length : Int))]

/-- The result has errors and nothing besides. -/
structure Fails (r : Result) : Prop where
  errors : r.errors ≠ []
  violations : r.violations = []
  metrics : r.metrics = []

/-- The result shows what the analysis of the text has found, if there is a text and its analysis
comes to its end, and else it fails. -/
def IsOf (r : Result) (text? : Option String) (parse : String → Parsed) (shared : List String) :
    Prop :=
  (∃ source tracker, text? = some source ∧ Completes source (parse source) shared tracker ∧
    r.Shows tracker) ∨
  ((∀ source tracker, text? = some source → ¬ Completes source (parse source) shared tracker) ∧
    r.Fails)

theorem completes_ok_iff {t : Tree} : Completes source (.ok t) shared tracker ↔
    analyze t (some source) shared = .ok tracker := by
  unfold Completes analyze
  cases hm : Scoping.ofTree t with
  | error e => simp [hm]
  | ok m => cases hrun : Subject.analyze ⟨m, some source, shared⟩ t.root <;> simp [hm, hrun]

/-- A result without violations and counters still has none when an error is added. -/
theorem fails_addError (message : String) (hv : r.violations = []) (hm : r.metrics = []) :
    (r.addError message).Fails :=
  ⟨by simp [addError], hv, hm⟩

/-- A completed result is one of its text, and keeps the warnings from before. -/
theorem isOf_complete (he : r.errors = []) (hv : r.violations = []) (hm : r.metrics = [])
    (h : r.complete source (parse source) shared = .ok q) :
    q.IsOf (some source) parse shared ∧ q.warnings = r.warnings := by
  have failed (message : String) (hq : q = r.addError message)
      (broken : ∀ tracker, ¬ Completes source (parse source) shared tracker) :
      q.IsOf (some source) parse shared ∧ q.warnings = r.warnings := by
    subst hq
    exact ⟨.inr ⟨by rintro _ tracker ⟨⟩; exact broken tracker, fails_addError message hv hm⟩, rfl⟩
  unfold complete at h
  cases hparsed : parse source with
  | error e =>
    simp only [hparsed] at h
    split_ifs at h
    exact failed _ (Except.ok.inj h).symm fun tracker => by simp [hparsed, Completes]
  | ok t =>
    simp only [hparsed] at h
    cases hrun : analyze t (some source) shared with
    | error e =>
      rw [hrun] at h
      refine failed _ (Except.ok.inj h).symm fun tracker => ?_
      rw [hparsed, completes_ok_iff, hrun]
      simp
    | ok tracker =>
      rw [hrun] at h
      obtain rfl := Except.ok.inj h
      have stable := Violation.stablySorted_sorted tracker.violations
      refine ⟨.inl ⟨source, tracker, rfl, hparsed ▸ completes_ok_iff.2 hrun, he, stable, ?_⟩, rfl⟩
      rw [← stable.perm.length_eq]
      rfl

/-- Warnings have no part in the completion of a result. -/
theorem complete_addWarnings (warnings : List String)
    (h : (r.addWarnings warnings).complete source parsed shared = .ok q) :
    r.complete source parsed shared = .ok { q with warnings := r.warnings } := by
  unfold complete at *
  cases parsed with
  | error e =>
    dsimp only at h ⊢
    split_ifs at h ⊢
    exact congrArg (Except.map fun q => { q with warnings := r.warnings }) h
  | ok t =>
    dsimp only at h ⊢
    cases hrun : analyze t (some source) shared <;> rw [hrun] at h <;>
      exact congrArg (Except.map fun q => { q with warnings := r.warnings }) h

end Result

namespace FileState

/-- The text of a file that can be read. -/
def text? : FileState → Option String
  | readable _ content => some content.text
  | _ => none

/-- The warnings about a file that has a result: none if there is no file, and else those about its
name, and those about its size if it is told. -/
def Warned (state : FileState) (p : Path) (warnings : List String) : Prop :=
  match state with
  | missing | noFile => warnings = []
  | unmeasured _ | undecodable _ => p.NameWarned warnings
  | unreadable size _ | readable size _ =>
    ∃ named sized, p.NameWarned named ∧ SizeWarned size sized ∧ warnings = named ++ sized

end FileState

namespace Result

/-- The result of a file is one of its text. -/
theorem isOf_ofFile {p : Path} {state : FileState} (h : ofFile p state parse shared = .ok r) :
    r.IsOf state.text? parse shared := by
  cases state with
  | undecodable e => cases h
  | readable size content => exact (isOf_complete rfl rfl rfl h).1
  | missing | noFile | unmeasured | unreadable =>
    obtain rfl := Except.ok.inj h
    exact .inr ⟨by simp [FileState.text?], fails_addError _ rfl rfl⟩

/-- The warnings about a file are in its result, whether it has errors or not. -/
theorem warned_ofFile {p : Path} {state : FileState} (h : ofFile p state parse shared = .ok r) :
    state.Warned p r.warnings := by
  have named := p.nameWarned_suffixWarnings
  cases state with
  | undecodable e => cases h
  | readable size content =>
    refine ⟨_, _, named, sizeWarned_sizeWarnings size, (isOf_complete rfl rfl rfl h).2.trans ?_⟩
    simp [addWarnings, empty]
  | unreadable size reason =>
    obtain rfl := Except.ok.inj h
    refine ⟨_, _, named, sizeWarned_sizeWarnings size, ?_⟩
    simp [addError, addWarnings, empty]
  | unmeasured reason =>
    obtain rfl := Except.ok.inj h
    exact named
  | missing | noFile =>
    obtain rfl := Except.ok.inj h
    rfl

/-- A result is all or nothing, be it that of a text or that of a file in whatever state: it shows
what the analysis of the text has found, in a stable order and with all counters, if the analysis
comes to its end, and else it has errors and neither violations nor counters. The warnings about a
file are kept in either case, and but for them its result is that of its text. -/
theorem all_or_nothing (parse : String → Parsed) (shared : List String) (r : Result) :
    (∀ source file, ofSource source (parse source) shared file = .ok r →
      r.IsOf (some source) parse shared ∧ r.warnings = []) ∧
    ∀ (p : Path) (state : FileState), ofFile p state parse shared = .ok r →
      r.IsOf state.text? parse shared ∧ state.Warned p r.warnings ∧
      ∀ source, state.text? = some source →
        ofSource source (parse source) shared p.text = .ok { r with warnings := [] } := by
  refine ⟨fun source file h => isOf_complete rfl rfl rfl h,
    fun p state h => ⟨isOf_ofFile h, warned_ofFile h, ?_⟩⟩
  cases state with
  | readable size content =>
    rintro _ ⟨⟩
    have sized := complete_addWarnings (sizeWarnings size) h
    have plain := complete_addWarnings (suffixWarnings p) sized
    exact plain
  | missing | noFile | unmeasured | unreadable | undecodable =>
    rintro _ ⟨⟩

end Result

namespace Bump

/-- The program `bump`, in a large file that is not named like a program. -/
def file : Path := ⟨"", ["bump.txt"]⟩

def warnings : List String := ["Unusual file extension '.txt' for Python file",
  "Large file (11.0MB) may impact analysis performance"]

theorem warnings_eq : suffixWarnings file ++ sizeWarnings 11534336 = warnings := by
  have suffix : file.suffix = ".txt" := by decide
  have rounded : roundedQuotient (10 * 11534336) mebibyte = 110 := by decide
  rw [suffixWarnings, suffix, if_neg (by decide +kernel), sizeWarnings, if_pos (by decide),
    megabytesText, rounded]
  decide

theorem analyze_tree : (Subject.analyze ⟨scoping, some "", []⟩ tree.root).map
    (fun tracker => (tracker.violations.map (·.target), tracker.stats)) =
      .ok (["total"], ⟨2, 1, 2, 0, 0, 1, 1⟩) := by cbv

end Bump

/-- If the file can be read, its result shows the update, all counters and both warnings; if not, an
error and both warnings. -/
theorem Result.all_or_nothing_bump :
    (∃ r, ofFile Bump.file (.readable 11534336 ⟨"", false⟩) (fun _ => .ok Bump.tree) [] = .ok r ∧
      r.errors = [] ∧ r.violations.map (·.target) = ["total"] ∧
        r.metrics = [("code_paths", 2), ("resumable_functions", 1), ("segments", 2),
          ("back_edges", 0), ("unreachable_segments", 0), ("suspension_points", 1),
          ("checked_assignments", 1), ("violations", 1)] ∧ r.warnings = Bump.warnings) ∧
    ∃ r, ofFile Bump.file (.unreadable 11534336 "denied") (fun _ => .ok Bump.tree) [] = .ok r ∧
      r.errors ≠ [] ∧ r.violations = [] ∧ r.metrics = [] ∧ r.warnings = Bump.warnings := by
  obtain ⟨tracker, hrun, values⟩ := exists_ok_of_map Bump.analyze_tree
  obtain ⟨targets, counters⟩ := Prod.mk.inj values
  have completes : Completes "" (.ok Bump.tree) [] tracker :=
    ⟨Bump.tree, Bump.scoping, rfl, Bump.ofTree_tree, hrun⟩
  have settled := all_or_nothing (fun _ => .ok Bump.tree) []
  constructor
  · cases hr : ofFile Bump.file (.readable 11534336 ⟨"", false⟩) (fun _ => .ok Bump.tree) [] with
    | error e => simp [ofFile, complete_eq_error] at hr
    | ok r =>
      obtain ⟨isOf, -⟩ := (settled r).2 _ _ hr
      rcases isOf with ⟨_, found, ⟨⟩, hfound, shows⟩ | ⟨broken, -⟩
      · obtain rfl : found = tracker := Except.ok.inj
          ((completes_ok_iff.1 hfound).symm.trans (completes_ok_iff.1 completes))
        have shown : r.violations.map (·.target) = ["total"] :=
          List.perm_singleton.1 (targets ▸ shows.violations.perm.map (·.target))
        have one : r.violations.length = 1 := by simpa using congrArg List.length shown
        obtain ⟨-, warned⟩ : r.IsOf (some "") (fun _ => .ok Bump.tree) [] ∧ r.warnings =
            (((empty Bump.file.text).addWarnings (suffixWarnings Bump.file)).addWarnings
              (sizeWarnings 11534336)).warnings := isOf_complete rfl rfl rfl hr
        refine ⟨r, rfl, shows.errors, shown, ?_, warned.trans ?_⟩
        · rw [shows.metrics, counters, one]
          rfl
        · exact Bump.warnings_eq
      · exact absurd completes (broken "" tracker rfl)
  · obtain ⟨isOf, -⟩ := (settled _).2 Bump.file (.unreadable 11534336 "denied") rfl
    rcases isOf with ⟨_, _, ⟨⟩, -⟩ | ⟨-, fails⟩
    exact ⟨_, rfl, fails.errors, fails.violations, fails.metrics, Bump.warnings_eq⟩

end LostUpdate
