import Mathlib.Algebra.Group.Int.Defs
import Mathlib.Data.List.Infix
import OsaspLabs.Library.Memory

/-! # Functions of the C library on strings

A string is the list of its bytes without the NUL. -/

namespace OsaspLabs.CString

open Memory

/-- The bytes of an ASCII text. -/
def ascii (s : List Char) : List UInt8 := s.map fun c => UInt8.ofNat c.toNat

/-- The string in an array: what stands before the first NUL, or else all of it. -/
def ofArray {n : ℕ} (a : Vector UInt8 n) : List UInt8 := a.toList.takeWhile (· != 0)

/-- `strncpy` fills an array of `n` cells with the string and zeros. -/
def strncpy (n : ℕ) (s : List UInt8) : Vector UInt8 n := Vector.ofFn fun i => s[i.val]?.getD 0

def isspace (c : UInt8) : Bool := c == 32 || (9 ≤ c && c ≤ 13)

def isdigit (c : UInt8) : Bool := 48 ≤ c && c ≤ 57

/-- The number that a run of digits denotes. -/
def digitsValue (s : List UInt8) : ℕ :=
  s.foldl (fun v c => 10 * v + (c.toNat - 48)) 0

/-- `strtol` to the base 10: blanks, a sign, digits; the result stays within a `long`. -/
def strtol (s : List UInt8) : ℤ :=
  let value (t : List UInt8) : ℤ := digitsValue (t.takeWhile isdigit)
  let v : ℤ :=
    match s.dropWhile isspace with
    | 45 :: t => -value t
    | 43 :: t => value t
    | t => value t
  max (-2 ^ 63) (min (2 ^ 63 - 1) v)

example : strtol [32, 45, 49, 50, 120] = -12 := by decide

/-- Whether `strstr` finds `t` in `s`. -/
def strstr (s t : List UInt8) : Bool := decide (t <:+: s)

/-! ## Strings in an array

A string that does not end inside its array has no result, nor has one that does not fit. -/

section Arrays

variable {n : ℕ}

/-- The string that starts at `k`. -/
def stringAt (buf : Vector UInt8 n) (k : ℕ) : Option (List UInt8) :=
  let rest := buf.toList.drop k
  let s := rest.takeWhile (· != 0)
  if s.length < rest.length then some s else none

def strcpy (buf : Vector UInt8 n) (s : List UInt8) : Option (Vector UInt8 n) :=
  store buf 0 (s ++ [0])

def strcat (buf : Vector UInt8 n) (s : List UInt8) : Option (Vector UInt8 n) := do
  let old ← stringAt buf 0
  store buf old.length (s ++ [0])

def strncat (buf : Vector UInt8 n) (s : List UInt8) (count : ℕ) : Option (Vector UInt8 n) :=
  strcat buf (s.take count)

theorem takeWhile_append_nul {s : List UInt8} (h : 0 ∉ s) (rest : List UInt8) :
    (s ++ 0 :: rest).takeWhile (· != 0) = s := by
  rw [List.takeWhile_append_of_pos]
  · simp
  · intro c hc
    simpa using ne_of_mem_of_not_mem hc h

theorem toList_strncpy {s : List UInt8} (h : s.length ≤ n) :
    (strncpy n s).toList = s ++ List.replicate (n - s.length) 0 := by
  refine List.ext_getElem? fun i => ?_
  rw [Vector.getElem?_toList, List.getElem?_append, List.getElem?_replicate]
  unfold strncpy
  rw [Vector.getElem?_ofFn]
  by_cases hi : i < s.length
  · rw [dif_pos (by omega), if_pos hi, List.getElem?_eq_getElem hi, Option.getD_some]
  · have hnone : s[i]? = none := List.getElem?_eq_none (by omega)
    simp only [hi, hnone, Option.getD_none, if_false]
    split
    · rw [if_pos (by omega)]
    · rw [if_neg (by omega)]

theorem nul_notMem_takeWhile {l : List UInt8} : 0 ∉ l.takeWhile (· != 0) := by
  intro hmem
  have hne := List.all_eq_true.mp List.all_takeWhile 0 hmem
  exact absurd hne (by decide)

/-- A list that goes on after its first part without a NUL does so with a NUL. -/
theorem exists_eq_takeWhile_append {l : List UInt8}
    (h : (l.takeWhile (· != 0)).length < l.length) :
    ∃ rest, l = l.takeWhile (· != 0) ++ 0 :: rest := by
  have happ := List.takeWhile_append_dropWhile (p := (· != (0 : UInt8))) (l := l)
  cases hrest : l.dropWhile (· != 0) with
  | nil =>
      rw [hrest, List.append_nil] at happ
      exact absurd (congrArg List.length happ) (Nat.ne_of_lt h)
  | cons c rest =>
      have hhead := List.head?_dropWhile_not (· != (0 : UInt8)) l
      rw [hrest] at hhead
      obtain rfl : c = 0 := bne_eq_false_iff_eq.mp hhead
      rw [hrest] at happ
      exact ⟨rest, happ.symm⟩

/-- A string is what stands before the first NUL. -/
theorem stringAt_eq_some_iff {buf : Vector UInt8 n} {k : ℕ} {s : List UInt8} :
    stringAt buf k = some s ↔ 0 ∉ s ∧ ∃ rest, buf.toList.drop k = s ++ 0 :: rest := by
  unfold stringAt
  generalize buf.toList.drop k = l
  constructor
  · intro h
    obtain ⟨hlt, hs⟩ := Option.ite_none_right_eq_some.mp h
    obtain rfl := Option.some.inj hs
    exact ⟨nul_notMem_takeWhile, exists_eq_takeWhile_append hlt⟩
  · rintro ⟨hnul, rest, rfl⟩
    simp [takeWhile_append_nul hnul]

/-- A string that ends in its array is what the array holds. -/
theorem ofArray_of_stringAt {buf : Vector UInt8 n} {s : List UInt8}
    (h : stringAt buf 0 = some s) : ofArray buf = s := by
  obtain ⟨hnul, rest, hrest⟩ := stringAt_eq_some_iff.mp h
  rw [List.drop_zero] at hrest
  rw [ofArray, hrest, takeWhile_append_nul hnul]

/-- The string of an array ends within its first `m` cells if there is a NUL among them. -/
theorem length_ofArray_lt_iff {buf : Vector UInt8 n} {m : ℕ} (h : m ≤ n) :
    (ofArray buf).length < m ↔ ∃ i < m, buf[i]? = some 0 := by
  have hlist : ∀ (l : List UInt8) (m : ℕ), m ≤ l.length →
      ((l.takeWhile (· != 0)).length < m ↔ ∃ i < m, l[i]? = some 0) := by
    intro l
    induction l with
    | nil =>
        intro m hm
        obtain rfl := Nat.le_zero.mp hm
        simp
    | cons c l ih =>
        intro m hm
        cases m with
        | zero => simp
        | succ m =>
            by_cases hc : c = 0
            · rw [hc, List.takeWhile_cons_of_neg (by decide)]
              exact iff_of_true (Nat.succ_pos m) ⟨0, Nat.succ_pos m, rfl⟩
            · rw [List.takeWhile_cons_of_pos (by simpa using hc), List.length_cons,
                Nat.succ_lt_succ_iff, ih m (Nat.le_of_succ_le_succ hm)]
              constructor
              · rintro ⟨i, hi, hzero⟩
                exact ⟨i + 1, Nat.succ_lt_succ hi, hzero⟩
              · rintro ⟨i, hi, hzero⟩
                cases i with
                | zero => exact absurd (Option.some.inj hzero) hc
                | succ i => exact ⟨i, Nat.lt_of_succ_lt_succ hi, hzero⟩
  have hbuf := hlist buf.toList m (by rwa [Vector.length_toList])
  unfold ofArray
  simpa only [Vector.getElem?_toList] using hbuf

/-- The string of an array goes on after cells without a NUL. -/
theorem prefix_ofArray {buf : Vector UInt8 n} {s : List UInt8} (hs : 0 ∉ s)
    (h : load buf 0 s.length = some s) : s <+: ofArray buf := by
  obtain ⟨hfits, _⟩ := load_eq_some_iff.mp h
  rw [load, if_pos hfits, Option.some.injEq, List.drop_zero] at h
  have hsplit : buf.toList = s ++ buf.toList.drop s.length := by
    rw [← List.take_append_drop s.length buf.toList, h, List.drop_left]
  refine ⟨(buf.toList.drop s.length).takeWhile (· != 0), ?_⟩
  rw [ofArray, hsplit, List.takeWhile_append_of_pos, List.drop_left]
  intro c hc
  simpa using ne_of_mem_of_not_mem hc hs

theorem stringAt_strncpy {s : List UInt8} (h : s.length < n) (hs : 0 ∉ s) :
    stringAt (strncpy n s) 0 = some s := by
  refine stringAt_eq_some_iff.mpr ⟨hs, List.replicate (n - s.length - 1) 0, ?_⟩
  rw [List.drop_zero, toList_strncpy (Nat.le_of_lt h), ← List.replicate_succ,
    Nat.sub_one_add_one (Nat.sub_ne_zero_of_lt h)]

/-- A string that fills the array has no NUL there. -/
theorem stringAt_strncpy_of_le {s : List UInt8} (h : n ≤ s.length) (hs : 0 ∉ s) :
    stringAt (strncpy n s) 0 = none := by
  rw [Option.eq_none_iff_forall_ne_some]
  intro t ht
  obtain ⟨_, rest, hrest⟩ := stringAt_eq_some_iff.mp ht
  have hzero : (0 : UInt8) ∈ (strncpy n s).toList := by
    rw [← List.drop_zero (l := (strncpy n s).toList), hrest]
    exact List.mem_append_right t List.mem_cons_self
  obtain ⟨i, hi⟩ := List.mem_iff_getElem?.mp hzero
  rw [Vector.getElem?_toList, strncpy, Vector.getElem?_ofFn] at hi
  split at hi
  · rename_i hlt
    have hin : i < s.length := Nat.lt_of_lt_of_le hlt h
    rw [List.getElem?_eq_getElem hin, Option.getD_some, Option.some.injEq] at hi
    exact hs (hi ▸ List.getElem_mem hin)
  · cases hi

/-- An array of zeros holds the empty string. -/
theorem stringAt_replicate (h : 0 < n) : stringAt (Vector.replicate n 0) 0 = some [] := by
  refine stringAt_eq_some_iff.mpr ⟨List.not_mem_nil, List.replicate (n - 1) 0, ?_⟩
  rw [List.drop_zero, Vector.toList_replicate, List.nil_append, ← List.replicate_succ,
    Nat.sub_one_add_one (Nat.ne_of_gt h)]

theorem nul_notMem_of_stringAt {buf : Vector UInt8 n} {k : ℕ} {s : List UInt8}
    (h : stringAt buf k = some s) : 0 ∉ s :=
  (stringAt_eq_some_iff.mp h).1

theorem length_lt_of_stringAt {buf : Vector UInt8 n} {k : ℕ} {s : List UInt8}
    (h : stringAt buf k = some s) : k + s.length < n := by
  obtain ⟨_, rest, hrest⟩ := stringAt_eq_some_iff.mp h
  have hlen := congrArg List.length hrest
  rw [List.length_drop, Vector.length_toList, List.length_append, List.length_cons] at hlen
  omega

theorem stringAt_store {buf buf' : Vector UInt8 n} {k : ℕ} {s : List UInt8}
    (h : store buf k (s ++ [0]) = some buf') (hs : 0 ∉ s) : stringAt buf' k = some s := by
  refine stringAt_eq_some_iff.mpr ⟨hs, buf.toList.drop (k + (s ++ [0]).length), ?_⟩
  rw [drop_store h, List.append_assoc, List.singleton_append]

theorem stringAt_strcpy {buf buf' : Vector UInt8 n} {s : List UInt8}
    (h : strcpy buf s = some buf') (hs : 0 ∉ s) : stringAt buf' 0 = some s :=
  stringAt_store h hs

theorem stringAt_strcat {buf buf' : Vector UInt8 n} {s : List UInt8}
    (h : strcat buf s = some buf') (hs : 0 ∉ s) :
    ∃ old, stringAt buf 0 = some old ∧ stringAt buf' 0 = some (old ++ s) := by
  obtain ⟨old, hold, hstore⟩ := Option.bind_eq_some_iff.mp h
  obtain ⟨hnul, rest, hrest⟩ := stringAt_eq_some_iff.mp hold
  refine ⟨old, hold, stringAt_eq_some_iff.mpr ⟨by simp [hnul, hs], ?_⟩⟩
  rw [List.drop_zero] at hrest ⊢
  refine ⟨buf.toList.drop (old.length + (s ++ [0]).length), ?_⟩
  rw [toList_store hstore, hrest, List.take_left]
  simp

/-- A copy fits if there is room for the string and its NUL. -/
theorem strcpy_isSome_iff (buf : Vector UInt8 n) (s : List UInt8) :
    (∃ buf', strcpy buf s = some buf') ↔ s.length < n := by
  constructor
  · rintro ⟨buf', h⟩
    have hfits := store_fits h
    rw [List.length_append, List.length_singleton] at hfits
    omega
  · intro h
    apply store_isSome
    rw [List.length_append, List.length_singleton]
    omega

/-- An append fits if there is room for both strings and the NUL. -/
theorem strcat_isSome_iff {buf : Vector UInt8 n} {old : List UInt8}
    (h : stringAt buf 0 = some old) (s : List UInt8) :
    (∃ buf', strcat buf s = some buf') ↔ old.length + s.length < n := by
  unfold strcat
  simp only [h, Option.bind_eq_bind, Option.bind_some]
  constructor
  · rintro ⟨buf', hstore⟩
    have hfits := store_fits hstore
    rw [List.length_append, List.length_singleton] at hfits
    omega
  · intro hlt
    apply store_isSome
    rw [List.length_append, List.length_singleton]
    omega

theorem stringAt_strcat_of {buf buf' : Vector UInt8 n} {old s : List UInt8}
    (hold : stringAt buf 0 = some old) (h : strcat buf s = some buf') (hs : 0 ∉ s) :
    stringAt buf' 0 = some (old ++ s) := by
  obtain ⟨old', hold', hnew⟩ := stringAt_strcat h hs
  obtain rfl := Option.some.inj (hold.symm.trans hold')
  exact hnew

/-- `strncpy` into a longer array ends its string if there is room for the NUL. -/
theorem stringAt_store_strncpy {m : ℕ} {buf buf' : Vector UInt8 n} {s : List UInt8}
    (h : store buf 0 (strncpy m s).toList = some buf') (hlt : s.length < m) (hs : 0 ∉ s) :
    stringAt buf' 0 = some s := by
  refine stringAt_eq_some_iff.mpr ⟨hs, List.replicate (m - s.length - 1) 0 ++
    buf.toList.drop (0 + (strncpy m s).toList.length), ?_⟩
  rw [drop_store h, toList_strncpy (Nat.le_of_lt hlt)]
  have hsucc : m - s.length = m - s.length - 1 + 1 := by omega
  rw [hsucc, List.replicate_succ, Nat.add_sub_cancel, List.append_assoc, List.cons_append]

end Arrays

end OsaspLabs.CString
