import Mathlib.Order.Defs.LinearOrder
import OsaspLabs.Library.Slices

/-! # `merge` of LAB_6

The records of a window are a list. Time marks are taken from any linear order. A memory
access outside its array has no result. -/

namespace OsaspLabs.SortIndex

variable {τ : Type*} [LinearOrder τ]

structure IndexS (τ : Type*) where
  timeMark : τ
  recno : UInt64
  deriving DecidableEq

/-- The records `indices -> idx[0 .. memsize - 1]` of the mapped window. -/
abbrev Window (τ : Type*) := List (IndexS τ)

/-- The comparison that is handed to `qsort`: the sign of the difference. -/
def compare (a b : IndexS τ) : ℤ :=
  if b.timeMark < a.timeMark then 1 else if a.timeMark < b.timeMark then -1 else 0

/-- Copy `n` records from `start` on. -/
def memcpy (w : Window τ) (start n : ℕ) : Option (Window τ) :=
  if start + n ≤ w.length then some ((w.drop start).take n) else none

def store (w : Window τ) (k : ℕ) (a : IndexS τ) : Option (Window τ) :=
  if k < w.length then some (w.set k a) else none

/-- `while (i < n && j < n)`, with the values of `i`, `j` and `k` after it. -/
def mergeLoop (idx1 idx2 : Window τ) (n i j k : ℕ) (w : Window τ) :
    Option (ℕ × ℕ × ℕ × Window τ) :=
  if i < n ∧ j < n then do
    let a ← idx1[i]?
    let b ← idx2[j]?
    if a.timeMark < b.timeMark then
      mergeLoop idx1 idx2 n (i + 1) j (k + 1) (← store w k a)
    else
      mergeLoop idx1 idx2 n i (j + 1) (k + 1) (← store w k b)
  else some (i, j, k, w)
termination_by n - i + (n - j)

/-- `while (i < n)`, with the value of `k` after it. -/
def copyLoop (idx : Window τ) (n i k : ℕ) (w : Window τ) : Option (ℕ × Window τ) :=
  if i < n then do
    let a ← idx[i]?
    copyLoop idx n (i + 1) (k + 1) (← store w k a)
  else some (k, w)
termination_by n - i

def merge (memsize blocks no : ℕ) (w : Window τ) : Option (Window τ) := do
  let n := memsize / blocks
  let idx1 ← memcpy w (n * no) n
  let idx2 ← memcpy w (n * (no + 1)) n
  let (i, j, k, w) ← mergeLoop idx1 idx2 n 0 0 (n * no) w
  let (k, w) ← copyLoop idx1 n i k w
  let (_, w) ← copyLoop idx2 n j k w
  some w

/-! ## What it computes -/

theorem compare_le_zero_iff {a b : IndexS τ} : compare a b ≤ 0 ↔ a.timeMark ≤ b.timeMark := by
  unfold compare
  split
  · rename_i h
    simp [h]
  · rename_i h
    split <;> simp [le_of_not_gt h]

/-- The test of the merge loop: ties go to the second array. -/
def takesFirst (a b : IndexS τ) : Bool := a.timeMark < b.timeMark

omit [LinearOrder τ] in
theorem copyLoop_eq {idx : Window τ} {n i k : ℕ} {w : Window τ} (hn : idx.length = n)
    (hi : i ≤ n) (hk : k + (n - i) ≤ w.length) :
    copyLoop idx n i k w = some (k + (n - i), writeAt k (idx.drop i) w) := by
  induction hd : n - i generalizing i k w with
  | zero =>
      rw [copyLoop, if_neg (by omega), List.drop_of_length_le (by omega), writeAt_nil,
        Nat.add_zero]
  | succ d ih =>
      have hlt : i < idx.length := by omega
      have hstep := ih (i := i + 1) (k := k + 1) (w := w.set k idx[i]) (by omega)
        (by rw [List.length_set]; omega) (by omega)
      rw [copyLoop, if_pos (by omega), List.getElem?_eq_getElem hlt]
      simp only [Option.bind_eq_bind, Option.bind_some, store]
      rw [if_pos (by omega), Option.bind_some, hstep, writeAt_succ_set (by omega),
        ← List.drop_eq_getElem_cons hlt]
      simp [Nat.add_assoc, Nat.add_comm 1 d]

/-- The three loops of `merge` together, from any position on. -/
def mergeFrom (idx1 idx2 : Window τ) (n i j k : ℕ) (w : Window τ) : Option (Window τ) := do
  let (i, j, k, w) ← mergeLoop idx1 idx2 n i j k w
  let (k, w) ← copyLoop idx1 n i k w
  let (_, w) ← copyLoop idx2 n j k w
  some w

theorem mergeFrom_first {idx1 idx2 : Window τ} {n i j k : ℕ} {w : Window τ}
    (h1 : i < idx1.length) (h2 : j < idx2.length) (hn1 : idx1.length = n)
    (hn2 : idx2.length = n) (hk : k < w.length) (hlt : takesFirst idx1[i] idx2[j] = true) :
    mergeFrom idx1 idx2 n i j k w = mergeFrom idx1 idx2 n (i + 1) j (k + 1) (w.set k idx1[i]) := by
  have hlt : idx1[i].timeMark < idx2[j].timeMark := by simpa [takesFirst] using hlt
  rw [mergeFrom, mergeLoop, if_pos (by omega)]
  simp [h1, h2, hlt, store, hk, mergeFrom]

theorem mergeFrom_second {idx1 idx2 : Window τ} {n i j k : ℕ} {w : Window τ}
    (h1 : i < idx1.length) (h2 : j < idx2.length) (hn1 : idx1.length = n)
    (hn2 : idx2.length = n) (hk : k < w.length) (hlt : ¬ takesFirst idx1[i] idx2[j] = true) :
    mergeFrom idx1 idx2 n i j k w = mergeFrom idx1 idx2 n i (j + 1) (k + 1) (w.set k idx2[j]) := by
  have hlt : ¬ idx1[i].timeMark < idx2[j].timeMark := by simpa [takesFirst] using hlt
  rw [mergeFrom, mergeLoop, if_pos (by omega)]
  simp [h1, h2, hlt, store, hk, mergeFrom]

/-- One array is used up: the rest of the other one is copied. -/
theorem mergeFrom_rest {idx1 idx2 : Window τ} {n i j k : ℕ} {w : Window τ}
    (hn1 : idx1.length = n) (hn2 : idx2.length = n) (hi : i ≤ n) (hj : j ≤ n)
    (hend : ¬ (i < n ∧ j < n)) (hk : k + (n - i) + (n - j) ≤ w.length) :
    mergeFrom idx1 idx2 n i j k w = some (writeAt k (idx1.drop i ++ idx2.drop j) w) := by
  have hlen : (idx1.drop i).length = n - i := by rw [List.length_drop, hn1]
  have hfit : (writeAt k (idx1.drop i) w).length = w.length := length_writeAt (by omega)
  rw [mergeFrom, mergeLoop, if_neg hend]
  simp only [Option.bind_eq_bind, Option.bind_some]
  rw [copyLoop_eq hn1 hi (by omega)]
  simp only [Option.bind_some]
  rw [copyLoop_eq hn2 hj (by omega)]
  simp only [Option.bind_some]
  rw [← writeAt_writeAt (by omega), hlen]

/-- The loops write the merge of what is left of the two arrays. -/
theorem mergeFrom_eq {idx1 idx2 : Window τ} {n i j k : ℕ} {w : Window τ}
    (hn1 : idx1.length = n) (hn2 : idx2.length = n) (hi : i ≤ n) (hj : j ≤ n)
    (hk : k + (n - i) + (n - j) ≤ w.length) :
    mergeFrom idx1 idx2 n i j k w =
      some (writeAt k (List.merge (idx1.drop i) (idx2.drop j) takesFirst) w) := by
  induction hd : n - i + (n - j) generalizing i j k w with
  | zero =>
      rw [mergeFrom_rest hn1 hn2 hi hj (by omega) hk, List.drop_of_length_le (by omega : _ ≤ i)]
      simp
  | succ d ih =>
      by_cases hboth : i < n ∧ j < n
      · have h1 : i < idx1.length := by omega
        have h2 : j < idx2.length := by omega
        have hkw : k < w.length := by omega
        rw [List.drop_eq_getElem_cons h1, List.drop_eq_getElem_cons h2, List.cons_merge_cons]
        by_cases hlt : takesFirst idx1[i] idx2[j] = true
        · rw [mergeFrom_first h1 h2 hn1 hn2 hkw hlt, if_pos hlt,
            ih (by omega) hj (by rw [List.length_set]; omega) (by omega), writeAt_succ_set hkw,
            ← List.drop_eq_getElem_cons h2]
        · rw [mergeFrom_second h1 h2 hn1 hn2 hkw hlt, if_neg hlt,
            ih hi (by omega) (by rw [List.length_set]; omega) (by omega), writeAt_succ_set hkw,
            ← List.drop_eq_getElem_cons h1]
      · rw [mergeFrom_rest hn1 hn2 hi hj hboth hk]
        rcases Nat.lt_or_ge i n with hlt | hge
        · rw [List.drop_of_length_le (by omega : idx2.length ≤ j)]
          simp
        · rw [List.drop_of_length_le (by omega : idx1.length ≤ i)]
          simp

/-- `merge` overwrites the slices `no` and `no + 1` by their merge. -/
theorem merge_eq {memsize blocks no : ℕ} {w : Window τ}
    (h : memsize / blocks * (no + 2) ≤ w.length) :
    merge memsize blocks no w =
      some (writeAt (memsize / blocks * no)
        (List.merge (slice (memsize / blocks) no w) (slice (memsize / blocks) (no + 1) w)
          takesFirst) w) := by
  generalize hn : memsize / blocks = n at h ⊢
  have hnext : n * (no + 1) = n * no + n := Nat.mul_succ n no
  have hend : n * (no + 2) = n * no + n + n := by rw [Nat.mul_succ, hnext]
  have hfit : n * no + n + n ≤ w.length := hend ▸ h
  have hidx1 : memcpy w (n * no) n = some (slice n no w) := if_pos (by omega)
  have hidx2 : memcpy w (n * (no + 1)) n = some (slice n (no + 1) w) := if_pos (by omega)
  have hlen1 : (slice n no w).length = n := length_slice (by omega)
  have hlen2 : (slice n (no + 1) w).length = n := length_slice (by omega)
  have hfrom := mergeFrom_eq hlen1 hlen2 (Nat.zero_le n) (Nat.zero_le n)
    (by omega : n * no + (n - 0) + (n - 0) ≤ w.length)
  have hmerge : merge memsize blocks no w =
      mergeFrom (slice n no w) (slice n (no + 1) w) n 0 0 (n * no) w := by
    simp only [merge, hn, hidx1, hidx2, Option.bind_eq_bind, Option.bind_some, mergeFrom]
  rw [hmerge, hfrom, List.drop_zero, List.drop_zero]

/-- The two halves of a slice, merged. -/
def mergeHalves (n : ℕ) (v : Window τ) : Window τ :=
  List.merge (v.take n) (v.drop n) takesFirst

theorem length_mergeHalves (n : ℕ) (v : Window τ) : (mergeHalves n v).length = v.length := by
  rw [mergeHalves, List.length_merge, List.length_take, List.length_drop]
  omega

/-- On an even block number it rewrites one slice of twice the length. -/
theorem merge_pair {memsize blocks p : ℕ} {w : Window τ}
    (h : 2 * (memsize / blocks) * (p + 1) ≤ w.length) :
    merge memsize blocks (2 * p) w =
      some (updateSlice (2 * (memsize / blocks)) (mergeHalves (memsize / blocks)) p w) := by
  have hend : memsize / blocks * (2 * p + 2) = 2 * (memsize / blocks) * (p + 1) := by ring
  have hfit : memsize / blocks * (2 * p + 2) ≤ w.length := hend ▸ h
  have heq := merge_eq hfit
  generalize memsize / blocks = n at h hfit heq ⊢
  have hfirst : n * (2 * p + 1) ≤ w.length :=
    (Nat.mul_le_mul_left n (Nat.le_succ _)).trans hfit
  have hlen := length_slice hfirst
  have hhalves : mergeHalves n (slice (2 * n) p w) =
      List.merge (slice n (2 * p) w) (slice n (2 * p + 1) w) takesFirst := by
    rw [mergeHalves, slice_two_mul, List.take_append_of_le_length hlen.ge,
      List.take_of_length_le hlen.le, List.drop_append_of_le_length hlen.ge,
      List.drop_of_length_le hlen.le, List.nil_append]
  have hstart : n * (2 * p) = 2 * n * p := by ring
  rw [heq, ← hhalves, hstart, updateSlice,
    writeAt_eq_setSlice ((length_mergeHalves n _).trans (length_slice h))]

/-! ## Order and contents -/

def Sorted (w : Window τ) : Prop := w.Pairwise fun a b => a.timeMark ≤ b.timeMark

def atMost (a b : IndexS τ) : Bool := a.timeMark ≤ b.timeMark

theorem atMost_trans (a b c : IndexS τ) (hab : atMost a b = true) (hbc : atMost b c = true) :
    atMost a c = true := by
  simp only [atMost, decide_eq_true_eq] at hab hbc ⊢
  exact hab.trans hbc

theorem atMost_total (a b : IndexS τ) : (atMost a b || atMost b a) = true := by
  simpa [atMost] using le_total a.timeMark b.timeMark

/-- Taking the first array only on a strict comparison is taking the second one on a
weak comparison. -/
theorem merge_takesFirst (v w : Window τ) :
    List.merge v w takesFirst = List.merge w v atMost := by
  induction v generalizing w with
  | nil => simp
  | cons a v ihv =>
      induction w with
      | nil => simp
      | cons b w ihw =>
          rw [List.cons_merge_cons, List.cons_merge_cons]
          by_cases h : a.timeMark < b.timeMark
          · rw [if_pos (by simpa [takesFirst] using h), if_neg (by simpa [atMost] using h), ihv]
          · rw [if_neg (by simpa [takesFirst] using h), if_pos (by simpa [atMost] using h), ihw]

theorem sorted_mergeHalves {n : ℕ} {v : Window τ} (h1 : Sorted (v.take n))
    (h2 : Sorted (v.drop n)) : Sorted (mergeHalves n v) := by
  have hmerged := List.pairwise_merge atMost_trans atMost_total (v.drop n) (v.take n)
    (h2.imp (by simp [atMost])) (h1.imp (by simp [atMost]))
  rw [mergeHalves, merge_takesFirst]
  exact hmerged.imp (by simp [atMost])

theorem perm_mergeHalves (n : ℕ) (v : Window τ) : (mergeHalves n v).Perm v := by
  have hperm : (mergeHalves n v).Perm (v.take n ++ v.drop n) :=
    List.merge_perm_append takesFirst
  rwa [List.take_append_drop] at hperm

end OsaspLabs.SortIndex
