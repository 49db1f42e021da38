import Mathlib.Data.Nat.Notation
import Mathlib.Data.Int.Notation

/-! # The table of blocks of LAB_6 -/

namespace OsaspLabs.SortIndex

structure BlocksMap where
  isBusy : ℤ
  block : ℤ
  deriving DecidableEq

/-- The initialisation of `map` in `createThreads`. -/
def initMap (amount blocks : ℕ) : List BlocksMap :=
  (List.range blocks).map fun i => ⟨if i < amount then 1 else 0, i⟩

def setBusy (map : List BlocksMap) (i : ℕ) : List BlocksMap :=
  map.modify i fun e => { e with isBusy := 1 }

/-- Thread 0 frees the first `BLOCKS` blocks before the merges of a round. -/
def resetMap (BLOCKS : ℕ) (map : List BlocksMap) : List BlocksMap :=
  map.mapIdx fun i e => if i < BLOCKS then { e with isBusy := 0 } else e

def Busy (map : List BlocksMap) (b : ℕ) : Prop := ∃ e, map[b]? = some e ∧ e.isBusy = 1

theorem isBusy_of_get {map : List BlocksMap} {i : ℕ} {e : BlocksMap} (h : map[i]? = some e) :
    Busy map i ↔ e.isBusy = 1 := by
  simp [Busy, h]

instance Busy.decidable (map : List BlocksMap) (b : ℕ) : Decidable (Busy map b) :=
  match h : map[b]? with
  | none => isFalse fun ⟨_, he, _⟩ => by simp [h] at he
  | some e => decidable_of_iff (e.isBusy = 1) (isBusy_of_get h).symm

theorem busy_setBusy {map : List BlocksMap} {i b : ℕ} (hi : i < map.length) :
    Busy (setBusy map i) b ↔ b = i ∨ Busy map b := by
  unfold Busy setBusy
  rw [List.getElem?_modify]
  by_cases hib : i = b
  · subst hib
    simp [hi]
  · cases map[b]? with
    | none => simp [Ne.symm hib]
    | some e => simp [hib, Ne.symm hib]

theorem length_setBusy (map : List BlocksMap) (i : ℕ) : (setBusy map i).length = map.length :=
  List.length_modify ..

theorem get_setBusy {map : List BlocksMap} {i j : ℕ} {e : BlocksMap}
    (h : (setBusy map i)[j]? = some e) : ∃ e', map[j]? = some e' ∧ e.block = e'.block := by
  rw [setBusy, List.getElem?_modify] at h
  obtain ⟨e', he', rfl⟩ := Option.map_eq_some_iff.mp h
  refine ⟨e', he', ?_⟩
  split <;> rfl

theorem get_resetMap {map : List BlocksMap} {BLOCKS j : ℕ} {e : BlocksMap}
    (h : (resetMap BLOCKS map)[j]? = some e) :
    ∃ e', map[j]? = some e' ∧ e.block = e'.block := by
  rw [resetMap, List.getElem?_mapIdx] at h
  obtain ⟨e', he', rfl⟩ := Option.map_eq_some_iff.mp h
  refine ⟨e', he', ?_⟩
  split <;> rfl

theorem busy_resetMap {map : List BlocksMap} {BLOCKS b : ℕ} :
    Busy (resetMap BLOCKS map) b ↔ BLOCKS ≤ b ∧ Busy map b := by
  unfold Busy resetMap
  rw [List.getElem?_mapIdx]
  cases map[b]? with
  | none => simp
  | some e =>
      by_cases hb : b < BLOCKS
      · simp [hb, Nat.not_le_of_lt hb]
      · simp [hb, Nat.le_of_not_lt hb]

theorem get_initMap {amount blocks i : ℕ} {e : BlocksMap}
    (h : (initMap amount blocks)[i]? = some e) : e.block = i := by
  rw [initMap, List.getElem?_map] at h
  obtain ⟨j, hj, rfl⟩ := Option.map_eq_some_iff.mp h
  obtain ⟨_, hij⟩ := List.getElem?_eq_some_iff.mp hj
  rw [List.getElem_range] at hij
  rw [hij]

theorem busy_initMap {amount blocks b : ℕ} :
    Busy (initMap amount blocks) b ↔ b < blocks ∧ b < amount := by
  unfold Busy initMap
  by_cases hb : b < blocks <;> by_cases hba : b < amount <;> simp [hb, hba]

end OsaspLabs.SortIndex
