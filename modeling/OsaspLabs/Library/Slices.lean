import Mathlib.Data.List.Range
import Mathlib.Data.List.Perm.Basic
import Mathlib.Algebra.Group.Action.Defs
import Mathlib.Algebra.Order.BigOperators.Group.List
import Mathlib.Data.List.Flatten
import Mathlib.Tactic.Ring

/-! # Equal slices of a list

A list of length `n * B` falls into `B` slices of length `n`. Operations on different
slices do not interfere, so their order does not matter. -/

namespace OsaspLabs

variable {α : Type*}

/-- Slice number `i` of length `n`. -/
def slice (n i : ℕ) (w : List α) : List α := (w.drop (n * i)).take n

/-- Overwrite slice number `i` by `v`. -/
def setSlice (n i : ℕ) (v w : List α) : List α :=
  w.take (n * i) ++ v ++ w.drop (n * (i + 1))

/-- Rewrite slice number `i` by `g`. -/
def updateSlice (n : ℕ) (g : List α → List α) (i : ℕ) (w : List α) : List α :=
  setSlice n i (g (slice n i w)) w

/-- Rewrite the slices `is` by `g`, one after the other. -/
def updateSlices (n : ℕ) (g : List α → List α) (is : List ℕ) (w : List α) : List α :=
  is.foldl (fun w i => updateSlice n g i w) w

/-- Overwrite `w` from position `k` on by `v`. -/
def writeAt (k : ℕ) (v w : List α) : List α := w.take k ++ v ++ w.drop (k + v.length)

@[simp] theorem writeAt_nil (k : ℕ) (w : List α) : writeAt k [] w = w := by simp [writeAt]

theorem writeAt_succ_set {k : ℕ} {a : α} {v w : List α} (hk : k < w.length) :
    writeAt (k + 1) v (w.set k a) = writeAt k (a :: v) w := by
  have htake : (w.set k a).take (k + 1) = w.take k ++ [a] := by
    rw [List.take_add_one, List.take_set_of_le le_rfl]
    simp [hk]
  have hdrop : (w.set k a).drop (k + 1 + v.length) = w.drop (k + 1 + v.length) :=
    List.drop_set_of_lt (by omega)
  have hend : k + 1 + v.length = k + (v.length + 1) := by omega
  rw [writeAt, writeAt, htake, hdrop, List.length_cons, hend]
  simp

theorem writeAt_writeAt {k : ℕ} {u v w : List α} (h : k + u.length ≤ w.length) :
    writeAt (k + u.length) v (writeAt k u w) = writeAt k (u ++ v) w := by
  have hfront : (w.take k ++ u).length = k + u.length := by
    rw [List.length_append, List.length_take]
    omega
  rw [writeAt, writeAt, writeAt, List.take_append_of_le_length hfront.ge,
    List.take_of_length_le hfront.le, List.drop_append, hfront, Nat.add_sub_cancel_left,
    List.drop_of_length_le (by omega), List.nil_append, List.drop_drop, List.length_append]
  simp [Nat.add_assoc]

theorem length_writeAt {k : ℕ} {v w : List α} (h : k + v.length ≤ w.length) :
    (writeAt k v w).length = w.length := by
  simp only [writeAt, List.length_append, List.length_take, List.length_drop]
  omega

theorem getElem?_writeAt {k : ℕ} {v w : List α} (h : k + v.length ≤ w.length) (r : ℕ) :
    (writeAt k v w)[r]? = if k ≤ r ∧ r < k + v.length then v[r - k]? else w[r]? := by
  have htake : (w.take k).length = k := by
    rw [List.length_take]
    omega
  rw [writeAt, List.append_assoc, List.getElem?_append, htake]
  split
  · rename_i hr
    rw [if_neg (by omega), List.getElem?_take_of_lt hr]
  · rw [List.getElem?_append]
    split
    · rw [if_pos (by omega)]
    · rw [if_neg (by omega), List.getElem?_drop]
      congr 1
      omega

theorem writeAt_eq_setSlice {n i : ℕ} {v w : List α} (hv : v.length = n) :
    writeAt (n * i) v w = setSlice n i v w := by
  rw [writeAt, setSlice, hv, Nat.mul_succ]

theorem length_slice {n i : ℕ} {w : List α} (h : n * (i + 1) ≤ w.length) :
    (slice n i w).length = n := by
  rw [Nat.mul_succ] at h
  simp only [slice, List.length_take, List.length_drop]
  omega

theorem length_setSlice {n i : ℕ} {v w : List α} (h : n * (i + 1) ≤ w.length)
    (hv : v.length = n) : (setSlice n i v w).length = w.length := by
  rw [Nat.mul_succ] at h
  simp only [setSlice, List.length_append, List.length_take, List.length_drop, hv, Nat.mul_succ]
  omega

theorem length_updateSlice {n i : ℕ} {g : List α → List α} {w : List α}
    (hg : ∀ v, (g v).length = v.length) (h : n * (i + 1) ≤ w.length) :
    (updateSlice n g i w).length = w.length :=
  length_setSlice h ((hg _).trans (length_slice h))

theorem slice_setSlice_self {n i : ℕ} {v w : List α} (h : n * (i + 1) ≤ w.length)
    (hv : v.length = n) : slice n i (setSlice n i v w) = v := by
  rw [Nat.mul_succ] at h
  have htake : (w.take (n * i)).length = n * i := by
    rw [List.length_take]
    omega
  rw [slice, setSlice, List.append_assoc, List.drop_append_of_le_length htake.ge,
    List.drop_of_length_le htake.le, List.nil_append, List.take_append_of_le_length hv.ge,
    List.take_of_length_le hv.le]

theorem slice_setSlice_of_ne {n i j : ℕ} {v w : List α} (hij : i ≠ j)
    (h : n * (i + 1) ≤ w.length) (hv : v.length = n) :
    slice n j (setSlice n i v w) = slice n j w := by
  have hi : n * (i + 1) = n * i + n := Nat.mul_succ n i
  have hj : n * (j + 1) = n * j + n := Nat.mul_succ n j
  have htake : (w.take (n * i)).length = n * i := by
    rw [List.length_take]
    omega
  rcases Nat.lt_or_gt_of_ne hij with hlt | hgt
  · have hle : n * (i + 1) ≤ n * j := Nat.mul_le_mul_left n hlt
    have hfront : (w.take (n * i) ++ v).length = n * (i + 1) := by
      rw [List.length_append, htake, hv, hi]
    obtain ⟨d, hd⟩ := Nat.exists_eq_add_of_le hle
    rw [slice, setSlice, slice, List.drop_append, hfront, hd, Nat.add_sub_cancel_left,
      List.drop_of_length_le (by omega), List.nil_append, List.drop_drop]
  · have hle : n * (j + 1) ≤ n * i := Nat.mul_le_mul_left n hgt
    rw [slice, setSlice, slice, List.append_assoc, List.drop_append_of_le_length (by omega),
      List.take_append_of_le_length (by rw [List.length_drop]; omega), List.drop_take,
      List.take_take]
    congr 1
    omega

theorem getElem?_slice (n i r : ℕ) (w : List α) :
    (slice n i w)[r]? = if r < n then w[n * i + r]? else none := by
  rw [slice, List.getElem?_take]
  split
  · rw [List.getElem?_drop]
  · rfl

theorem getElem?_slice_of_lt {n i r : ℕ} {w : List α} (hr : r < n) :
    (slice n i w)[r]? = w[n * i + r]? := by
  rw [getElem?_slice, if_pos hr]

/-- Writing one element inside a slice. -/
theorem slice_set_self {n i r : ℕ} (w : List α) (a : α) (hr : r < n) :
    slice n i (w.set (n * i + r) a) = (slice n i w).set r a := by
  apply List.ext_getElem?
  intro m
  rw [getElem?_slice, List.getElem?_set, List.getElem?_set, getElem?_slice]
  by_cases hm : m < n
  · by_cases hrm : r = m
    · subst hrm
      simp only [hr, if_true, slice, List.length_take, List.length_drop]
      congr 1
      rw [eq_iff_iff]
      omega
    · simp [hm, hrm]
  · have hne : r ≠ m := by omega
    simp [hm, hne]

/-- It leaves the other slices alone. -/
theorem slice_set_of_ne {n i j r : ℕ} (w : List α) (a : α) (hij : i ≠ j) (hr : r < n) :
    slice n j (w.set (n * i + r) a) = slice n j w := by
  apply List.ext_getElem?
  intro m
  rw [getElem?_slice, getElem?_slice]
  split
  · rename_i hm
    rw [List.getElem?_set_ne]
    intro heq
    rcases Nat.lt_or_gt_of_ne hij with hlt | hgt
    · have hle : n * (i + 1) ≤ n * j := Nat.mul_le_mul_left n hlt
      rw [Nat.mul_succ] at hle
      omega
    · have hle : n * (j + 1) ≤ n * i := Nat.mul_le_mul_left n hgt
      rw [Nat.mul_succ] at hle
      omega
  · rfl

theorem setSlice_slice (n i : ℕ) (w : List α) : setSlice n i (slice n i w) w = w := by
  rw [setSlice, slice, ← List.take_add, ← Nat.mul_succ, List.take_append_drop]

theorem setSlice_perm {n i : ℕ} {v w : List α} (hv : v.Perm (slice n i w)) :
    (setSlice n i v w).Perm w := by
  conv_rhs => rw [← setSlice_slice n i w]
  exact (hv.append_left _).append_right _

theorem slice_updateSlice {n i j : ℕ} {g : List α → List α} {w : List α}
    (hg : ∀ v, (g v).length = v.length) (h : n * (i + 1) ≤ w.length) :
    slice n j (updateSlice n g i w) = if j = i then g (slice n j w) else slice n j w := by
  have hlen : (g (slice n i w)).length = n := (hg _).trans (length_slice h)
  split
  · rename_i hji
    rw [hji]
    exact slice_setSlice_self h hlen
  · rename_i hji
    exact slice_setSlice_of_ne (Ne.symm hji) h hlen

theorem length_updateSlices {n : ℕ} {g : List α → List α} {is : List ℕ} {w : List α}
    (hg : ∀ v, (g v).length = v.length) (h : ∀ i ∈ is, n * (i + 1) ≤ w.length) :
    (updateSlices n g is w).length = w.length := by
  induction is generalizing w with
  | nil => rfl
  | cons i is ih =>
      have hlen := length_updateSlice hg (h i List.mem_cons_self)
      have hrest := ih (w := updateSlice n g i w) fun j hj =>
        hlen ▸ h j (List.mem_cons_of_mem i hj)
      exact hrest.trans hlen

/-- Each of the slices is rewritten once, whatever their order. -/
theorem slice_updateSlices {n j : ℕ} {g : List α → List α} {is : List ℕ} {w : List α}
    (hg : ∀ v, (g v).length = v.length) (hnodup : is.Nodup)
    (h : ∀ i ∈ is, n * (i + 1) ≤ w.length) :
    slice n j (updateSlices n g is w) = if j ∈ is then g (slice n j w) else slice n j w := by
  induction is generalizing w with
  | nil => simp [updateSlices]
  | cons i is ih =>
      obtain ⟨hi, hnodup'⟩ := List.nodup_cons.mp hnodup
      have hfit := h i List.mem_cons_self
      have hlen := length_updateSlice hg hfit
      have hrest := ih (w := updateSlice n g i w) hnodup' fun j hj =>
        hlen ▸ h j (List.mem_cons_of_mem i hj)
      rw [updateSlices, List.foldl_cons, ← updateSlices, hrest, slice_updateSlice hg hfit]
      by_cases hji : j = i
      · simp [hji, hi]
      · simp [hji]

/-- The slices put together again. -/
theorem flatMap_slice (n B : ℕ) (w : List α) :
    (List.range B).flatMap (fun i => slice n i w) = w.take (n * B) := by
  induction B with
  | zero => simp
  | succ B ih =>
      rw [List.range_succ, List.flatMap_append, ih, List.flatMap_singleton, slice, Nat.mul_succ,
        List.take_add]

theorem eq_flatMap_slice {n B : ℕ} {w : List α} (h : w.length = n * B) :
    w = (List.range B).flatMap fun i => slice n i w := by
  rw [flatMap_slice, List.take_of_length_le h.le]

theorem ext_slices {n B : ℕ} {v w : List α} (hv : v.length = n * B) (hw : w.length = n * B)
    (h : ∀ i < B, slice n i v = slice n i w) : v = w := by
  rw [eq_flatMap_slice hv, eq_flatMap_slice hw]
  exact List.flatMap_congr fun i hi => h i (List.mem_range.mp hi)

theorem perm_of_slices {n B : ℕ} {v w : List α} (hv : v.length = n * B) (hw : w.length = n * B)
    (h : ∀ i < B, (slice n i v).Perm (slice n i w)) : v.Perm w := by
  rw [eq_flatMap_slice hv, eq_flatMap_slice hw]
  exact List.Perm.flatMap_left _ fun i hi => h i (List.mem_range.mp hi)

/-- A list is in order if its slices are, inside and among each other. -/
theorem pairwise_iff_slices {n B : ℕ} {w : List α} {R : α → α → Prop} (h : w.length = n * B) :
    w.Pairwise R ↔ (∀ i < B, (slice n i w).Pairwise R) ∧
      ∀ i j, i < j → j < B → ∀ x ∈ slice n i w, ∀ y ∈ slice n j w, R x y := by
  conv_lhs => rw [eq_flatMap_slice h]
  rw [List.pairwise_flatMap, List.pairwise_iff_getElem]
  simp only [List.mem_range, List.length_range, List.getElem_range]
  constructor
  · rintro ⟨hin, hamong⟩
    exact ⟨hin, fun i j hij hj => hamong i j (hij.trans hj) hj hij⟩
  · rintro ⟨hin, hamong⟩
    exact ⟨hin, fun i j _ hj hij => hamong i j hij hj⟩

/-- A slice of twice the length is made of two neighbours. -/
theorem slice_two_mul (n p : ℕ) (w : List α) :
    slice (2 * n) p w = slice n (2 * p) w ++ slice n (2 * p + 1) w := by
  have hstart : 2 * n * p = n * (2 * p) := by ring
  have hnext : n * (2 * p + 1) = n * (2 * p) + n := by ring
  rw [slice, slice, slice, hstart, hnext, ← List.drop_drop, two_mul, List.take_add]

/-! ## Pieces of a list -/

/-- If a list falls into as few pieces as it can, each of them is full. -/
theorem length_eq_of_flatten {n : ℕ} {pieces : List (List α)}
    (hle : ∀ v ∈ pieces, v.length ≤ n) (hlen : pieces.flatten.length = pieces.length * n) :
    ∀ v ∈ pieces, v.length = n := by
  induction pieces with
  | nil => simp
  | cons v pieces ih =>
      have hv := hle v List.mem_cons_self
      have htail : ∀ w ∈ pieces, w.length ≤ n := fun w hw => hle w (List.mem_cons_of_mem v hw)
      have hsum := List.sum_le_card_nsmul (pieces.map List.length) n (by simpa using htail)
      rw [← List.length_flatten, List.length_map, smul_eq_mul] at hsum
      rw [List.flatten_cons, List.length_append, List.length_cons, Nat.succ_mul] at hlen
      intro w hw
      rcases List.mem_cons.mp hw with rfl | hw
      · omega
      · exact ih htail (by omega) w hw

/-- Full pieces of the same list are the same. -/
theorem eq_of_flatten {n : ℕ} {pieces pieces' : List (List α)} (hn : 0 < n)
    (hfull : ∀ v ∈ pieces, v.length = n) (hfull' : ∀ v ∈ pieces', v.length = n)
    (hflat : pieces.flatten = pieces'.flatten) : pieces = pieces' := by
  have hmap : pieces.map List.length = List.replicate pieces.length n :=
    List.map_eq_replicate_iff.mpr hfull
  have hmap' : pieces'.map List.length = List.replicate pieces'.length n :=
    List.map_eq_replicate_iff.mpr hfull'
  refine List.eq_iff_flatten_eq.mpr ⟨hflat, ?_⟩
  have hlen := congrArg List.length hflat
  rw [List.length_flatten, List.length_flatten, hmap, hmap', List.sum_replicate,
    List.sum_replicate, smul_eq_mul, smul_eq_mul] at hlen
  rw [hmap, hmap', Nat.eq_of_mul_eq_mul_right hn hlen]

end OsaspLabs
