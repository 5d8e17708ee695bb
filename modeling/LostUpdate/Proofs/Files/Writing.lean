import LostUpdate.Files.Directory
import Mathlib.Data.List.Basic

namespace LostUpdate

namespace Directory

variable {d d' : Directory} {s s' : String} {l m : Location} {content : ByteArray}

theorem write_of_place (h : d.place s = .ok l) (content : ByteArray) :
    d.write s content = .ok (if l ∈ d.devices then d else d.putFile l content) := by
  rw [write, h]
  rfl

theorem exists_of_write (h : d.write s content = .ok d') : ∃ l, d.place s = .ok l ∧
    d' = if l ∈ d.devices then d else d.putFile l content := by
  cases hl : d.place s with
  | error e => simp [write, hl, Except.map] at h
  | ok l => exact ⟨l, rfl, (Except.ok.inj ((write_of_place hl content).symm.trans h)).symm⟩

@[simp] theorem isFolder_putFile : (d.putFile l content).isFolder m = d.isFolder m := rfl

@[simp] theorem start_putFile (p : Path) : (d.putFile l content).start p = d.start p := rfl

@[simp] theorem devices_putFile : (d.putFile l content).devices = d.devices := rfl

/-- What is there stays there when a file is put. -/
theorem at?_putFile (hm : (d.at? m).isSome = true) :
    ((d.putFile l content).at? m).isSome = true := by
  unfold at? at hm ⊢
  rw [isFolder_putFile, devices_putFile]
  split_ifs at hm ⊢ with folder device
  · rfl
  · rfl
  · simp only [Option.isSome_map, List.find?_isSome, decide_eq_true_eq] at hm ⊢
    obtain ⟨f, hf, rfl⟩ := hm
    by_cases same : f.1 = l
    · exact ⟨(l, content), by simp [putFile], same.symm⟩
    · exact ⟨f, by simp [putFile, hf, same], rfl⟩

theorem follow_putFile {k : Location} {parts : List String} (hm : d.follow k parts = .ok m) :
    (d.putFile l content).follow k parts = .ok m := by
  fun_induction Directory.follow d k parts with
  | case1 => exact hm
  | case2 | case5 | case7 => cases hm
  | case3 k part rest folder dot ih =>
    rw [Directory.follow, isFolder_putFile, if_neg folder, if_pos dot]
    exact ih hm
  | case4 k rest folder dot ih =>
    rw [Directory.follow, isFolder_putFile, if_neg folder, if_neg dot, if_pos rfl]
    exact ih hm
  | case6 k part rest folder dot up n hchild there ih =>
    rw [Directory.follow, isFolder_putFile, if_neg folder, if_neg dot, if_neg up, hchild]
    dsimp only
    rw [if_pos (at?_putFile there)]
    exact ih hm

theorem place_putFile (hs : d.place s = .ok m) : (d.putFile l content).place s = .ok m := by
  unfold Directory.place at hs ⊢
  cases htext : checkText s with
  | error e => simp [htext, bind, Except.bind] at hs
  | ok u =>
    generalize (Path.cut s).filter (· ≠ "") = parts at hs ⊢
    simp only [htext, bind, Except.bind, isFolder_putFile, start_putFile] at hs ⊢
    cases hfollow : d.follow (d.start (Path.ofString s)) parts.dropLast with
    | error e =>
      simp only [hfollow] at hs
      split_ifs at hs
    | ok folder =>
      rw [hfollow] at hs
      rw [follow_putFile hfollow]
      exact hs

/-- Writing one file takes no place away from another. -/
theorem place_write (hs : d.place s' = .ok m) (hw : d.write s content = .ok d') :
    d'.place s' = .ok m := by
  obtain ⟨l, -, rfl⟩ := exists_of_write hw
  split_ifs
  · exact hs
  · exact place_putFile hs

theorem devices_write (hw : d.write s content = .ok d') : d'.devices = d.devices := by
  obtain ⟨l, -, rfl⟩ := exists_of_write hw
  split_ifs <;> rfl

/-- In `d'` the content is where the path `s` leads in `d`, unless there is a device. -/
def Delivers (d d' : Directory) (s : String) (content : ByteArray) : Prop :=
  ∃ l, d.place s = .ok l ∧ (d'.at? l = some (.file content) ∨ l ∈ d.devices)

end Directory

end LostUpdate
