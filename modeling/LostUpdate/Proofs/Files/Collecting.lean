import LostUpdate.Files.Directory
import Mathlib

namespace LostUpdate

namespace Directory

variable {d : Directory} {p : Path}

/-- The paths `group` are those for which the path `p` stands: the sorted programs below it if it
leads to a folder, and else only itself. -/
def StandsFor (d : Directory) (p : Path) (group : List Path) : Prop :=
  (∃ l, ∃ ways : List (List String), d.locate p = .ok l ∧ d.isFolder l = true ∧
    group = ways.map p.below ∧ ways.Pairwise (· ≤ ·) ∧ ((d.files.map (·.1)).Nodup → ways.Nodup) ∧
      ∀ way, way ∈ ways ↔ l ++ way ∈ d.files.map (·.1) ∧
        ((l ++ way).getLast?.getD "").endsWith ".py" = true) ∨
  (∀ l, d.locate p = .ok l → d.isFolder l = false) ∧ group = [p]

end Directory

end LostUpdate
