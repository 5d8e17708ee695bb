import LostUpdate.CommandLine.Run
import LostUpdate.Proofs.Files.Collecting
import LostUpdate.Proofs.Files.Writing
import LostUpdate.Proofs.Report.ReadBack
import LostUpdate.Proofs.Report.Wholeness

namespace LostUpdate

namespace Argument

variable {s stem value : String} {f : Flag}

end Argument

namespace Workspace

def existing (w : Workspace) (paths : List Path) : List Path :=
  paths.filter fun p => (w.directory.find? p).isSome

def Misses (w : Workspace) (paths : List Path) : Prop := ∃ p ∈ paths, w.directory.find? p = none

variable {w : Workspace} {o : Options} {shared : List String} {paths : List Path} {p : Path}
  {r : Result}

variable (returns : ∀ p ∈ paths, ∀ e, w.analyze shared p ≠ .error e)

end Workspace

namespace Run

/-- After the file of a flag has been written, if one is named, `d` is `d'`. -/
def Written (d : Directory) (name : Option String) (content : String) (d' : Directory) : Prop :=
  match target? name with
  | none => d' = d
  | some file => d.write file content.toUTF8 = .ok d'

variable {w : Workspace} {o : Options} {s : Survey} {shared words : List String}
  {paths : List Path} {limit : Int} (timestamp : String) {d : Directory}

theorem Written.place {name : Option String} {content file : String} {d' : Directory} {l : Location}
    (h : Written d name content d') (hl : d.place file = .ok l) : d'.place file = .ok l := by
  unfold Written at h
  cases htarget : target? name with
  | none =>
    rw [htarget] at h
    exact h ▸ hl
  | some other =>
    rw [htarget] at h
    exact Directory.place_write hl h

theorem Written.devices {name : Option String} {content : String} {d' : Directory}
    (h : Written d name content d') : d'.devices = d.devices := by
  unfold Written at h
  cases htarget : target? name with
  | none =>
    rw [htarget] at h
    rw [h]
  | some other =>
    rw [htarget] at h
    exact Directory.devices_write h

/-- What a run comes to whose paths stand for `paths`. Without a check it ends with success. A check
fails with an error if a file is missing or a result has errors, and else it fails just if there are
more violations than its limit allows, for which the limit must be a number. Unless a check has failed
at a missing file, the files of the flags are written; the summary, if there is a result to summarize,
is read back from its file. -/
structure Follows (w : Workspace) (o : Options) (paths : List Path) (results : List Result)
    (run : Outcome) : Prop where
  plain : o.ciMode = false → run.exit = .code 0
  broken : o.ciMode = true → (w.Misses paths ∨ ∃ r ∈ results, r.errors ≠ []) → run.exit = .code 3
  checked : o.ciMode = true → ¬ w.Misses paths → (∀ r ∈ results, r.errors = []) →
    run.exit = match o.maxViolations with
      | some limit =>
        .code (if limit < ((results.map (·.violations.length)).sum : Nat) then 1 else 0)
      | none => .badOption .unknownLimit
  stopped : o.ciMode = true → w.Misses paths → run.directory = w.directory
  written : (o.ciMode = true → ¬ w.Misses paths) →
    ∃ d, (∃ content, Written w.directory o.output content d) ∧
      (results = [] ∨ target? o.json = none → run.directory = d) ∧
      ∀ name, target? o.json = some name → results ≠ [] → ∃ text report entries,
        w.directory.Delivers run.directory name text.toUTF8 ∧ Json.parse? text = some report ∧
          report.Summarizes (w.existing paths) results entries

end Run

namespace Nightly

/-- A check of a folder with the program `bump` and a file that is no program, and of the program
again. -/
def directory : Directory where
  files := [(["work", "src", "notes"], .empty), (["work", "src", "bump.py"], .empty)]
  folders := [["work"], ["work", "src"]]
  devices := []
  working := ["work"]

def workspace : Workspace := ⟨directory, fun _ => .ok Bump.tree, fun _ => none, fun _ => none⟩

def words : List String := ["--ci-mode", "--json=../out", "/work/src", "src/bump.py"]

def options : Options :=
  { Options.standard with files := ["/work/src", "src/bump.py"], json := some "../out", ciMode := true }

def inFolder : Path := ⟨"/", ["work", "src", "bump.py"]⟩

def program : Path := ⟨"", ["src", "bump.py"]⟩

variable {p : Path}

theorem find?_program (hp : p ∈ [inFolder, program]) : directory.find? p = some (.file .empty) := by
  simp only [List.mem_cons, List.not_mem_nil, or_false] at hp
  rcases hp with rfl | rfl <;> cbv

theorem existing_of_subset {paths : List Path} (h : ∀ p ∈ paths, p ∈ [inFolder, program]) :
    workspace.existing paths = paths :=
  List.filter_eq_self.2 fun p hp => by
    have found : workspace.directory.find? p = some (.file .empty) := find?_program (h p hp)
    rw [found]
    rfl

theorem existing : workspace.existing [inFolder, program] = [inFolder, program] :=
  existing_of_subset fun _ => id

theorem state_program (hp : p ∈ [inFolder, program]) :
    workspace.state p = .readable 0 ⟨"", false⟩ := by
  have found : workspace.directory.find? p = some (.file .empty) := find?_program hp
  have empty : Decoded.ofBytes workspace.codecs .empty = .ok ⟨"", false⟩ := by cbv
  simp only [Workspace.state, found, empty]
  rfl

theorem returns (hp : p ∈ [inFolder, program]) (e : ParseError) :
    workspace.analyze [] p ≠ .error e := by
  rw [Workspace.analyze, state_program hp]
  intro h
  rcases Result.ofFile_eq_error.1 h with h | ⟨_, _, _, parsed, _⟩
  · cases h
  · cases parsed

theorem violations (hp : p ∈ [inFolder, program]) {r : Result}
    (h : workspace.analyze [] p = .ok r) : r.errors = [] ∧ r.violations.length = 1 := by
  have run : (Subject.analyze ⟨Bump.scoping, some "", []⟩ Bump.tree.root).map
      (·.violations.length) = .ok 1 := by cbv
  obtain ⟨tracker, hrun, one⟩ := exists_ok_of_map run
  rw [Workspace.analyze, state_program hp] at h
  rcases Result.isOf_ofFile h with ⟨_, found, ⟨⟩, ⟨_, _, ⟨⟩, hm, hfound⟩, shows⟩ | ⟨broken, -⟩
  · obtain rfl := Except.ok.inj (hm.symm.trans Bump.ofTree_tree)
    obtain rfl := Except.ok.inj (hfound.symm.trans hrun)
    exact ⟨shows.errors, shows.violations.perm.length_eq.trans one⟩
  · exact absurd ⟨_, _, rfl, Bump.ofTree_tree, hrun⟩ (broken _ tracker rfl)

end Nightly

namespace Nightly

end Nightly

end LostUpdate
