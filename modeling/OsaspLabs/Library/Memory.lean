import Mathlib.Algebra.Group.Nat.Defs
import Mathlib.Data.List.Basic

/-! # Objects in memory

An object is a vector of cells. A copy that would leave its object has no result. Unsigned
integers are stored as bytes in the byte order of the host. -/

namespace OsaspLabs.Memory

/-! ## Copies inside an object -/

section Copy

variable {α : Type*} {n : ℕ}

/-- Overwrite the cells from `k` on by `v`. -/
def store (buf : Vector α n) (k : ℕ) (v : List α) : Option (Vector α n) :=
  if k + v.length ≤ n then
    some (Vector.ofFn fun i => if k ≤ i.val then v[i.val - k]?.getD buf[i] else buf[i])
  else none

/-- The `m` cells from `k` on. -/
def load (buf : Vector α n) (k m : ℕ) : Option (List α) :=
  if k + m ≤ n then some ((buf.toList.drop k).take m) else none

theorem store_isSome (buf : Vector α n) {k : ℕ} {v : List α} (h : k + v.length ≤ n) :
    ∃ buf', store buf k v = some buf' :=
  ⟨_, if_pos h⟩

theorem load_isSome (buf : Vector α n) {k m : ℕ} (h : k + m ≤ n) :
    ∃ v, load buf k m = some v :=
  ⟨_, if_pos h⟩

theorem store_fits {buf buf' : Vector α n} {k : ℕ} {v : List α}
    (h : store buf k v = some buf') : k + v.length ≤ n := by
  by_contra hfit
  simp [store, hfit] at h

theorem getElem?_store {buf buf' : Vector α n} {k : ℕ} {v : List α}
    (h : store buf k v = some buf') (i : ℕ) :
    buf'[i]? = if k ≤ i ∧ i < k + v.length then v[i - k]? else buf[i]? := by
  unfold store at h
  split at h
  · rename_i hfit
    obtain rfl := Option.some.inj h
    by_cases hi : i < n
    · by_cases hk : k ≤ i
      · by_cases hv : i < k + v.length
        · have hlt : i - k < v.length := by omega
          simp [hi, hk, hv, hlt]
        · have hge : v.length ≤ i - k := by omega
          simp [hi, hk, hv, hge]
      · simp [hi, hk]
    · have hout : ¬ (k ≤ i ∧ i < k + v.length) := by omega
      simp [hi, hout]
  · cases h

theorem toList_store {buf buf' : Vector α n} {k : ℕ} {v : List α}
    (h : store buf k v = some buf') :
    buf'.toList = buf.toList.take k ++ v ++ buf.toList.drop (k + v.length) := by
  have hfit := store_fits h
  refine List.ext_getElem? fun i => ?_
  rw [Vector.getElem?_toList, getElem?_store h, List.append_assoc, List.getElem?_append,
    List.getElem?_append, List.length_take, Vector.length_toList, Nat.min_eq_left (by omega)]
  split
  · rename_i hi
    rw [if_neg (by omega), if_pos (by omega)]
  · split
    · rw [List.getElem?_take_of_lt (by omega), Vector.getElem?_toList]
    · rw [if_neg (by omega), List.getElem?_drop, Vector.getElem?_toList]
      congr 1
      omega

theorem drop_store {buf buf' : Vector α n} {k : ℕ} {v : List α}
    (h : store buf k v = some buf') :
    buf'.toList.drop k = v ++ buf.toList.drop (k + v.length) := by
  have hfit := store_fits h
  have hlen : (buf.toList.take k).length = k := by
    rw [List.length_take, Vector.length_toList]
    omega
  rw [toList_store h, List.append_assoc, List.drop_left' hlen]

/-- Two stores one behind the other are one store of both. -/
theorem take_store_store {buf buf' buf'' : Vector α n} {k : ℕ} {u v : List α}
    (hu : store buf k u = some buf') (hv : store buf' (k + u.length) v = some buf'') :
    buf''.toList.take (k + u.length + v.length) = buf.toList.take k ++ (u ++ v) := by
  have hfit := store_fits hu
  have hfit' := store_fits hv
  have hfront : (buf.toList.take k ++ u).length = k + u.length := by
    rw [List.length_append, List.length_take, Vector.length_toList]
    omega
  rw [toList_store hv, toList_store hu, List.take_left' hfront, List.append_assoc _ u v]
  apply List.take_left'
  simp only [List.length_append, List.length_take, Vector.length_toList]
  omega

theorem drop_of_getElem? {buf : Vector α n} {i : ℕ} {a : α} (h : buf[i]? = some a) :
    buf.toList.drop i = a :: buf.toList.drop (i + 1) := by
  obtain ⟨hlt, hval⟩ := Vector.getElem?_eq_some_iff.mp h
  rw [List.drop_eq_getElem_cons (by rwa [Vector.length_toList]), Vector.getElem_toList, hval]

/-- A store over the whole object replaces it. -/
theorem store_eq_of_length {buf b : Vector α n} : store buf 0 b.toList = some b := by
  obtain ⟨buf', h⟩ := store_isSome buf (k := 0) (v := b.toList) (by simp)
  rw [h, Option.some.injEq, ← Vector.toList_inj, toList_store h]
  simp

theorem load_eq_some_iff {buf : Vector α n} {k m : ℕ} {v : List α} :
    load buf k m = some v ↔ k + m ≤ n ∧ v.length = m ∧ ∀ j < m, v[j]? = buf[k + j]? := by
  have hcell : ∀ j < m, ((buf.toList.drop k).take m)[j]? = buf[k + j]? := by
    intro j hj
    simp [hj]
  unfold load
  split
  · rename_i hfit
    have hlen : ((buf.toList.drop k).take m).length = m := by
      simp only [List.length_take, List.length_drop, Vector.length_toList]
      omega
    simp only [Option.some.injEq, hfit, true_and]
    constructor
    · rintro rfl
      exact ⟨hlen, hcell⟩
    · rintro ⟨hv, hj⟩
      refine List.ext_getElem? fun j => ?_
      by_cases hlt : j < m
      · rw [hcell j hlt, hj j hlt]
      · rw [List.getElem?_eq_none (by omega), List.getElem?_eq_none (by omega)]
  · rename_i hfit
    simp [hfit]

theorem length_load {buf : Vector α n} {k m : ℕ} {v : List α} (h : load buf k m = some v) :
    v.length = m :=
  (load_eq_some_iff.mp h).2.1

/-- Where the same is loaded from two buffers they agree. -/
theorem getElem?_eq_of_load {l : ℕ} {buf : Vector α n} {buf' : Vector α l} {k m i : ℕ}
    {v : List α} (h : load buf k m = some v) (h' : load buf' k m = some v) (hk : k ≤ i)
    (hi : i < k + m) : buf[i]? = buf'[i]? := by
  have hcell := (load_eq_some_iff.mp h).2.2 (i - k) (by omega)
  have hcell' := (load_eq_some_iff.mp h').2.2 (i - k) (by omega)
  rw [Nat.add_sub_cancel' hk] at hcell hcell'
  rw [← hcell, hcell']

/-- What was stored is what is loaded. -/
theorem load_store {buf buf' : Vector α n} {k : ℕ} {v : List α}
    (h : store buf k v = some buf') : load buf' k v.length = some v := by
  have hfit := store_fits h
  refine load_eq_some_iff.mpr ⟨hfit, rfl, fun j hj => ?_⟩
  rw [getElem?_store h, if_pos (by omega), Nat.add_sub_cancel_left]

/-- A store leaves the cells before and after it alone. -/
theorem load_store_of_disjoint {buf buf' : Vector α n} {k j m : ℕ} {v : List α}
    (h : store buf k v = some buf') (hdisj : j + m ≤ k ∨ k + v.length ≤ j) :
    load buf' j m = load buf j m := by
  refine Option.ext fun w => ?_
  rw [load_eq_some_iff, load_eq_some_iff]
  refine and_congr_right fun _ => and_congr_right fun _ => forall₂_congr fun i hi => ?_
  rw [getElem?_store h, if_neg (by omega)]

/-- The first `m` cells. -/
def front {m : ℕ} (buf : Vector α n) (h : m ≤ n) : Vector α m :=
  Vector.ofFn fun i => buf.get ⟨i.val, Nat.lt_of_lt_of_le i.isLt h⟩

theorem load_front {m : ℕ} (buf : Vector α n) (h : m ≤ n) {k l : ℕ} (hfit : k + l ≤ m) :
    load (front buf h) k l = load buf k l := by
  have hcell : ∀ i < m, (front buf h)[i]? = buf[i]? := by
    intro i hi
    rw [Vector.getElem?_eq_getElem hi, Vector.getElem?_eq_getElem (Nat.lt_of_lt_of_le hi h)]
    simp only [front, Vector.getElem_ofFn]
    rfl
  refine Option.ext fun v => ?_
  rw [load_eq_some_iff, load_eq_some_iff]
  refine and_congr (iff_of_true hfit (Nat.le_trans hfit h)) (and_congr_right fun _ => ?_)
  refine forall₂_congr fun j hj => ?_
  rw [hcell (k + j) (by omega)]

/-- Cells one behind the other hold two lists one behind the other. -/
theorem append_prefix_iff {u v l : List α} : u ++ v <+: l ↔ u <+: l ∧ v <+: l.drop u.length := by
  constructor
  · intro h
    obtain ⟨w, rfl⟩ := h
    rw [List.append_assoc, List.drop_left]
    exact ⟨List.prefix_append u _, List.prefix_append v w⟩
  · intro h
    obtain ⟨⟨w, rfl⟩, hv⟩ := h
    rw [List.drop_left] at hv
    exact (List.prefix_append_right_inj u).mpr hv

/-- What stands at the front whatever the cells behind `data` hold is in `data`. -/
theorem prefix_of_prefix_append {x y : α} (hne : x ≠ y) {v data : List α} {m : ℕ}
    (hx : v <+: data ++ List.replicate m x) (hy : v <+: data ++ List.replicate m y) :
    v <+: data := by
  apply List.prefix_of_prefix_length_le hx (List.prefix_append data _)
  by_contra hlen
  have hlt : data.length < v.length := Nat.lt_of_not_le hlen
  have hxv := List.prefix_iff_getElem?.mp hx data.length hlt
  have hyv := List.prefix_iff_getElem?.mp hy data.length hlt
  rw [List.getElem?_append_right (Nat.le_refl _), Nat.sub_self] at hxv hyv
  have hx0 := List.eq_of_mem_replicate (List.mem_of_getElem? hxv)
  have hy0 := List.eq_of_mem_replicate (List.mem_of_getElem? hyv)
  exact hne (hx0.symm.trans hy0)

end Copy

/-! ## Unsigned integers as bytes -/

inductive ByteOrder where
  | little
  | big
  deriving DecidableEq, Repr

/-- The `n` bytes of `x`, least significant first. -/
def littleBytes : ℕ → ℕ → List UInt8
  | 0, _ => []
  | n + 1, x => UInt8.ofNat x :: littleBytes n (x / 256)

def littleValue : List UInt8 → ℕ
  | [] => 0
  | b :: bs => b.toNat + 256 * littleValue bs

@[simp] theorem length_littleBytes (n x : ℕ) : (littleBytes n x).length = n := by
  induction n generalizing x with
  | zero => rfl
  | succ n ih => simp [littleBytes, ih]

theorem littleValue_littleBytes {n x : ℕ} (h : x < 256 ^ n) :
    littleValue (littleBytes n x) = x := by
  induction n generalizing x with
  | zero =>
      have hzero : x = 0 := by simpa using h
      simp [littleBytes, littleValue, hzero]
  | succ n ih =>
      have hdiv : x / 256 < 256 ^ n := by
        rw [Nat.pow_succ] at h
        omega
      simp only [littleBytes, littleValue, ih hdiv, UInt8.toNat_ofNat']
      omega

theorem littleBytes_littleValue (bs : List UInt8) :
    littleBytes bs.length (littleValue bs) = bs := by
  induction bs with
  | nil => rfl
  | cons b bs ih =>
      have hb : b.toNat < 256 := b.toNat_lt
      have hdiv : (b.toNat + 256 * littleValue bs) / 256 = littleValue bs := by omega
      have hlow : UInt8.ofNat (b.toNat + 256 * littleValue bs) = b := by
        apply UInt8.toNat_inj.mp
        rw [UInt8.toNat_ofNat']
        omega
      simp [littleBytes, littleValue, hdiv, hlow, ih]

/-- The bytes of an object of `n` bytes with the value `x`. -/
def ByteOrder.bytes : ByteOrder → ℕ → ℕ → List UInt8
  | .little, n, x => littleBytes n x
  | .big, n, x => (littleBytes n x).reverse

def ByteOrder.value : ByteOrder → List UInt8 → ℕ
  | .little, bs => littleValue bs
  | .big, bs => littleValue bs.reverse

@[simp] theorem ByteOrder.length_bytes (order : ByteOrder) (n x : ℕ) :
    (order.bytes n x).length = n := by
  cases order <;> simp [ByteOrder.bytes]

theorem ByteOrder.value_bytes (order : ByteOrder) {n x : ℕ} (h : x < 256 ^ n) :
    order.value (order.bytes n x) = x := by
  cases order <;> simp [ByteOrder.bytes, ByteOrder.value, littleValue_littleBytes h]

theorem ByteOrder.bytes_value (order : ByteOrder) {n : ℕ} {bs : List UInt8}
    (h : bs.length = n) : order.bytes n (order.value bs) = bs := by
  subst h
  cases order with
  | little => exact littleBytes_littleValue bs
  | big =>
      have hrev := littleBytes_littleValue bs.reverse
      rw [List.length_reverse] at hrev
      rw [ByteOrder.bytes, ByteOrder.value, hrev, List.reverse_reverse]

theorem littleValue_lt (bs : List UInt8) : littleValue bs < 256 ^ bs.length := by
  induction bs with
  | nil => simp [littleValue]
  | cons b bs ih =>
      have hb : b.toNat < 256 := b.toNat_lt
      rw [littleValue, List.length_cons, Nat.pow_succ]
      omega

theorem ByteOrder.value_lt (order : ByteOrder) {n : ℕ} {bs : List UInt8} (h : bs.length = n) :
    order.value bs < 256 ^ n := by
  subst h
  cases order with
  | little => exact littleValue_lt bs
  | big => simpa [ByteOrder.value] using littleValue_lt bs.reverse

end OsaspLabs.Memory
