import Mathlib.Data.List.TakeDrop

/-! # Files as sequences of bytes

Reads stop at the end of the file. A write behind the end first fills the gap with zeros. -/

namespace OsaspLabs.ByteFile

/-- At most `n` bytes from offset `off` on. -/
def pread (f : List UInt8) (off n : ℕ) : List UInt8 := (f.drop off).take n

/-- The bytes `v`, at least one, at offset `off`. -/
def pwrite (f : List UInt8) (off : ℕ) (v : List UInt8) : List UInt8 :=
  f.takeD off 0 ++ v ++ f.drop (off + v.length)

theorem getElem?_takeD {α : Type*} (n : ℕ) (l : List α) (a : α) (i : ℕ) :
    (l.takeD n a)[i]? = if i < n then some (l[i]?.getD a) else none := by
  induction n generalizing l i with
  | zero => simp
  | succ n ih =>
      cases i with
      | zero => cases l <;> simp
      | succ i => cases l <;> simp [ih, List.getElem?_replicate]

theorem takeD_of_length_eq {α : Type*} {l : List α} {n : ℕ} (h : l.length = n) (a : α) :
    l.takeD n a = l := by
  refine List.ext_getElem? fun i => ?_
  rw [getElem?_takeD]
  split
  · rename_i hi
    rw [List.getElem?_eq_getElem (by omega), Option.getD_some]
  · rw [List.getElem?_eq_none (by omega)]

theorem getElem?_pread (f : List UInt8) (off n i : ℕ) :
    (pread f off n)[i]? = if i < n then f[off + i]? else none := by
  unfold pread
  split
  · rename_i hi
    simp [hi]
  · rename_i hi
    exact List.getElem?_eq_none (by simp only [List.length_take]; omega)

theorem getElem?_pwrite (f : List UInt8) (off : ℕ) (v : List UInt8) (i : ℕ) :
    (pwrite f off v)[i]? =
      if i < off then some (f[i]?.getD 0) else if i < off + v.length then v[i - off]?
      else f[i]? := by
  have hfront : (f.takeD off 0).length = off := List.takeD_length off f 0
  unfold pwrite
  rw [List.append_assoc, List.getElem?_append, hfront]
  split
  · rename_i hi
    rw [getElem?_takeD, if_pos hi]
  · rename_i hi
    rw [List.getElem?_append]
    by_cases hv : i < off + v.length
    · rw [if_pos (by omega), if_pos hv]
    · have hrest : off + v.length + (i - off - v.length) = i := by omega
      rw [if_neg (by omega), if_neg hv, List.getElem?_drop, hrest]

/-- What was written is read back. -/
theorem pread_pwrite_self (f : List UInt8) (off : ℕ) (v : List UInt8) :
    pread (pwrite f off v) off v.length = v := by
  refine List.ext_getElem? fun i => ?_
  rw [getElem?_pread]
  split
  · rename_i hi
    rw [getElem?_pwrite, if_neg (by omega), if_pos (by omega), Nat.add_sub_cancel_left]
  · rw [List.getElem?_eq_none (by omega)]

/-- A write leaves what lies behind it alone. -/
theorem pread_pwrite_after (f : List UInt8) {off : ℕ} {v : List UInt8} {a : ℕ}
    (h : off + v.length ≤ a) (n : ℕ) : pread (pwrite f off v) a n = pread f a n := by
  refine List.ext_getElem? fun i => ?_
  rw [getElem?_pread, getElem?_pread]
  split
  · rw [getElem?_pwrite, if_neg (by omega), if_neg (by omega)]
  · rfl

/-- What lies before a write is left alone where there was a file and is filled with zeros
where there was none. -/
theorem pread_pwrite_before (f : List UInt8) {off : ℕ} {v : List UInt8} {a n : ℕ}
    (h : a + n ≤ off) : pread (pwrite f off v) a n = (pread f a n).takeD n 0 := by
  refine List.ext_getElem? fun i => ?_
  rw [getElem?_pread, getElem?_takeD, getElem?_pread, getElem?_pwrite]
  split
  · rw [if_pos (by omega)]
  · rfl

end OsaspLabs.ByteFile
