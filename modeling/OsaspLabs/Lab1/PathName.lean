import OsaspLabs.Lab8.Commands

/-! # The paths of LAB_1 and LAB_8

Both walk a directory with the same three calls on `pathName`, each bounded by the size of the
array and not by the room that is left in it. -/

namespace OsaspLabs.Lab1

open Memory CString
open Lab8 (pathMax FileType)

/-- An array of `PATH_MAX + 1` bytes. -/
abbrev PathBuffer := Vector UInt8 (pathMax + 1)

/-- The directory, a slash and the name of the entry. -/
def joined (dir name : List UInt8) : List UInt8 := dir ++ [47] ++ name

def buildPathName (pathName : PathBuffer) (dir name : List UInt8) : Option PathBuffer := do
  let pathName ← store pathName 0 (strncpy pathMax dir).toList
  let pathName ← strncat pathName [47] pathMax
  strncat pathName name pathMax

theorem length_joined (dir name : List UInt8) :
    (joined dir name).length = dir.length + 1 + name.length := by
  simp only [joined, List.length_append, List.length_singleton]

theorem nul_notMem_joined {dir name : List UInt8} (hdir : 0 ∉ dir) (hname : 0 ∉ name) :
    0 ∉ joined dir name := by
  simp [joined, hdir, hname]

/-- The array has room for the path and its NUL. -/
def PathFits (dir name : List UInt8) : Prop := dir.length + 1 + name.length ≤ pathMax

section Build

variable {dir name : List UInt8}

/-- The directory and the slash always fit. -/
theorem buildPathName_eq (hdir : dir.length < pathMax) (hnul : 0 ∉ dir)
    (hname : name.length ≤ pathMax) (pathName : PathBuffer) :
    ∃ slashed : PathBuffer, stringAt slashed 0 = some (dir ++ [47]) ∧
      buildPathName pathName dir name = strcat slashed name := by
  obtain ⟨copied, hcopied⟩ := store_isSome pathName (k := 0) (v := (strncpy pathMax dir).toList)
    (by simp)
  have hstring := stringAt_store_strncpy hcopied hdir hnul
  obtain ⟨slashed, hslashed⟩ := (strcat_isSome_iff hstring [47]).mpr (by
    rw [List.length_singleton]
    omega)
  refine ⟨slashed, stringAt_strcat_of hstring hslashed (by decide), ?_⟩
  have htake : ([47] : List UInt8).take pathMax = [47] := by decide
  unfold buildPathName strncat
  simp only [hcopied, htake, hslashed, List.take_of_length_le hname, Option.bind_eq_bind,
    Option.bind_some]

theorem buildPathName_isSome_iff (hdir : dir.length < pathMax) (hnul : 0 ∉ dir)
    (hname : name.length ≤ pathMax) (pathName : PathBuffer) :
    (∃ p, buildPathName pathName dir name = some p) ↔ PathFits dir name := by
  obtain ⟨slashed, hslashed, heq⟩ := buildPathName_eq hdir hnul hname pathName
  rw [heq, strcat_isSome_iff hslashed, List.length_append, List.length_singleton, PathFits]
  omega

theorem stringAt_buildPathName (hdir : dir.length < pathMax) (hnul : 0 ∉ dir)
    (hname : name.length ≤ pathMax) (hnul' : 0 ∉ name) {pathName p : PathBuffer}
    (h : buildPathName pathName dir name = some p) :
    stringAt p 0 = some (joined dir name) := by
  obtain ⟨slashed, hslashed, heq⟩ := buildPathName_eq hdir hnul hname pathName
  rw [heq] at h
  exact stringAt_strcat_of hslashed h hnul'

/-- The path is built from whatever the array holds. -/
def Built (dir name : List UInt8) : Prop :=
  ∀ pathName, ∃ p, buildPathName pathName dir name = some p ∧
    stringAt p 0 = some (joined dir name)

theorem built_iff (hdir : dir.length < pathMax) (hnul : 0 ∉ dir)
    (hname : name.length ≤ pathMax) (hnul' : 0 ∉ name) :
    Built dir name ↔ PathFits dir name := by
  constructor
  · intro h
    obtain ⟨p, hp, _⟩ := h (Vector.replicate (pathMax + 1) 0)
    exact (buildPathName_isSome_iff hdir hnul hname _).mp ⟨p, hp⟩
  · intro h pathName
    obtain ⟨p, hp⟩ := (buildPathName_isSome_iff hdir hnul hname pathName).mpr h
    exact ⟨p, hp, stringAt_buildPathName hdir hnul hname hnul' hp⟩

end Build

/-- Neither `.` nor `..`. -/
def isEntry (name : List UInt8) : Bool :=
  !(name = ascii ['.'] ∨ name = ascii ['.', '.'])

theorem isEntry_of_length {name : List UInt8} (h : 2 < name.length) : isEntry name = true := by
  have hdot : ¬(name = ascii ['.'] ∨ name = ascii ['.', '.']) := by
    rintro (rfl | rfl) <;> simp [ascii] at h
  simp [isEntry, hdot]

/-- One turn of the loop of `cmd_list`, which builds its path in the same way. -/
theorem listEntry_eq (host : Lab8.Host) (currentPath : List UInt8) (l : Lab8.Listing)
    (name : List UInt8) :
    Lab8.listEntry host currentPath l name =
      if isEntry name then
        (buildPathName l.pathName currentPath name).bind fun pathName => do
          let path ← stringAt pathName 0
          let responseBuffer ← Lab8.formatEntry host path l.responseBuffer
          let line ← stringAt responseBuffer 0
          let data ← strcat l.response.data line
          some
            { response :=
                { l.response with
                  data := data, size := l.response.size + UInt16.ofNat line.length }
              responseBuffer := Vector.replicate 128 0
              pathName := pathName }
      else some l := by
  unfold Lab8.listEntry isEntry buildPathName
  by_cases h : name = ascii ['.'] ∨ name = ascii ['.', '.']
  · simp [h]
  · simp only [h, if_false, decide_false, Bool.not_false, if_true, Option.bind_eq_bind,
      Option.bind_assoc]
    rfl

end OsaspLabs.Lab1
