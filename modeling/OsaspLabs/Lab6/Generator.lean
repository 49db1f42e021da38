import OsaspLabs.Lab6.IndexFile
import OsaspLabs.Library.CString
import OsaspLabs.Library.SignedInt

/-! # The generator of LAB_6

An `int` expression that overflows has no result: the build does not ask for arithmetic that
wraps around. Neither has a store outside the allocated block. -/

namespace OsaspLabs.Lab6.Generator

open Memory

/-- What a run meets. -/
structure Machine where
  order : ByteOrder
  /-- A new block of `n` bytes with what it holds. -/
  malloc : (n : ℕ) → Option (Vector UInt8 n)
  /-- The bits of the time mark that the random numbers give a record. -/
  timeMark : ℕ → UInt64
  fopen : Bool
  /-- The number of bytes, out of `n`, that `fwrite` and `fclose` get into the file. -/
  fwrite : ℕ → ℕ

inductive Outcome where
  | failed (code : ℤ)
  | generated (num_records : ℤ) (file : List UInt8)

def numRecords (size : ℤ) : Option ℤ := do
  let kilobytes ← checked 32 (size * 1024)
  let bytes ← checked 32 (kilobytes * 1024)
  pure (bytes.tdiv 16)

def headerSize (num_records : ℤ) : Option ℤ := do
  let bytes ← checked 32 (num_records * 16)
  checked 32 (8 + bytes)

/-- The loop over the records from `i` on. -/
def fill (m : Machine) (num_records : ℤ) {n : ℕ} (header : Vector UInt8 n) (i : ℕ) :
    Option (Vector UInt8 n) :=
  if i < num_records then do
    let header ← store header (8 + 16 * i) (m.order.bytes 8 (m.timeMark i).toNat)
    let header ← store header (8 + 16 * i + 8) (m.order.bytes 8 (toUnsigned i))
    fill m num_records header (i + 1)
  else some header
termination_by (num_records - i).toNat

/-- `main` from `malloc` on, with the `header_size` that its calls get. -/
def writeIndex (m : Machine) (num_records : ℤ) (header_size : ℕ) : Option Outcome :=
  match m.malloc header_size with
  | none => some (.failed 1)
  | some header => do
      let header ← store header 0 (m.order.bytes 8 (toUnsigned num_records))
      let header ← fill m num_records header 0
      if m.fopen then
        some (.generated num_records (header.toList.take (m.fwrite header_size)))
      else some (.failed 1)

/-- `main` after its arguments are read. -/
def generate (m : Machine) (size : ℤ) : Option Outcome := do
  let num_records ← numRecords size
  let header_size ← headerSize num_records
  writeIndex m num_records (toUnsigned header_size)

/-- The C library narrows the `long` that it reads. -/
def atoi (s : List UInt8) : ℤ := wrapped 32 (CString.strtol s)

def main (m : Machine) (argv : List (List UInt8)) : Option Outcome :=
  match argv with
  | [_, _, size] => generate m (atoi size)
  | _ => some (.failed 1)

/-! ## What a run should leave -/

/-- The file has `size * 65536` records, numbered from 0 on. -/
def Filled (order : ByteOrder) (size : ℤ) (file : List UInt8) : Prop :=
  ∃ records : List IndexS, file = indexFile order records ∧ records.length = size * 65536 ∧
    ∀ (i : ℕ) (record : IndexS), records[i]? = some record → record.recno.toNat = i

/-- No product or sum of `num_records` and `header_size` leaves the range of `int`. -/
structure NoOverflow (size : ℤ) : Prop where
  kilobytes : FitsSigned 32 (size * 1024)
  bytes : FitsSigned 32 (size * 1024 * 1024)
  records : FitsSigned 32 ((size * 1024 * 1024).tdiv 16 * 16)
  header : FitsSigned 32 (8 + (size * 1024 * 1024).tdiv 16 * 16)

/-- The run stops with an error, or it leaves the whole file. -/
def Correct (m : Machine) (size : ℤ) : Prop :=
  (∃ code, generate m size = some (.failed code)) ∨
    ∃ n file, generate m size = some (.generated n file) ∧ Filled m.order size file ∧
      NoOverflow size

/-- Every byte gets into the file. -/
def Machine.TakesAll (m : Machine) : Prop := ∀ n, n ≤ m.fwrite n

/-! ## The arithmetic -/

theorem fitsInt {x : ℤ} (h : -2147483648 ≤ x) (h' : x < 2147483648) : FitsSigned 32 x :=
  ⟨h, h'⟩

theorem numRecords_of_small {size : ℤ} (hpos : 0 < size) (hsmall : size < 2048) :
    numRecords size = some (size * 65536) := by
  have hbytes : size * 1024 * 1024 = size * 65536 * 16 := by omega
  rw [numRecords, checked_bind_of_fits (fitsInt (by omega) (by omega)),
    checked_bind_of_fits (fitsInt (by omega) (by omega)), hbytes,
    Int.mul_tdiv_cancel _ (by decide)]
  rfl

/-- From 2048 megabytes on the number of bytes leaves the range of `int`. -/
theorem numRecords_of_large {size : ℤ} (hlarge : 2048 ≤ size) : numRecords size = none := by
  cases hnum : numRecords size with
  | none => rfl
  | some num_records =>
      have hbytes := of_checked_bind hnum
      have hunfit : ¬ FitsSigned 32 (size * 1024 * 1024) := by
        intro hfits
        have hlt : size * 1024 * 1024 < 2147483648 := hfits.2
        omega
      simp only [checked, if_neg hunfit] at hbytes
      cases hbytes

theorem headerSize_of_small {R : ℕ} (hR : R < 2 ^ 27) :
    headerSize R = some (8 + (R : ℤ) * 16) := by
  have hfits : FitsSigned 32 (8 + (R : ℤ) * 16) := fitsInt (by omega) (by omega)
  rw [headerSize, checked_bind_of_fits (fitsInt (by omega) (by omega)), checked, if_pos hfits]

theorem noOverflow_iff {size : ℤ} (hpos : 0 < size) : NoOverflow size ↔ size < 2048 := by
  have hexact : (size * 1024 * 1024).tdiv 16 = size * 65536 := by
    have hdiv : size * 1024 * 1024 = size * 65536 * 16 := by omega
    rw [hdiv, Int.mul_tdiv_cancel _ (by decide)]
  constructor
  · intro h
    have hbytes : size * 1024 * 1024 < 2147483648 := h.bytes.2
    omega
  · intro h
    refine ⟨fitsInt (by omega) (by omega), fitsInt (by omega) (by omega), ?_, ?_⟩
    · rw [hexact]
      exact fitsInt (by omega) (by omega)
    · rw [hexact]
      exact fitsInt (by omega) (by omega)

/-! ## The fill loop -/

/-- Record `i` of a run. -/
def Machine.record (m : Machine) (i : ℕ) : IndexS where
  timeMark := m.timeMark i
  recno := UInt64.ofNat i

/-- The loop appends the records that are left to what stands in front of them. -/
theorem fill_eq (m : Machine) {R i : ℕ} (header : Vector UInt8 (8 + 16 * R)) (hi : i ≤ R)
    (hR : R < 2 ^ 31) :
    ∃ header', fill m R header i = some header' ∧
      header'.toList = header.toList.take (8 + 16 * i) ++
        (List.range' i (R - i)).flatMap fun j => (m.record j).toBytes m.order := by
  induction hd : R - i generalizing i header with
  | zero =>
      have hend : ¬ ((i : ℤ) < R) := by omega
      have hall : header.toList.length ≤ 8 + 16 * i := by
        rw [Vector.length_toList]
        omega
      refine ⟨header, ?_, ?_⟩
      · rw [fill, if_neg hend]
      · rw [List.take_of_length_le hall]
        simp
  | succ d ih =>
      have hmore : (i : ℤ) < R := by omega
      have hlen : (m.order.bytes 8 (m.timeMark i).toNat).length = 8 := by simp
      have hlen' : (m.order.bytes 8 (toUnsigned i)).length = 8 := by simp
      have hrecno : toUnsigned i = (UInt64.ofNat i).toNat := by
        rw [UInt64.toNat_ofNat', Nat.mod_eq_of_lt (by omega)]
        unfold toUnsigned
        omega
      obtain ⟨header₁, h₁⟩ := store_isSome header (k := 8 + 16 * i)
        (v := m.order.bytes 8 (m.timeMark i).toNat) (by rw [hlen]; omega)
      obtain ⟨header₂, h₂⟩ := store_isSome header₁ (k := 8 + 16 * i + 8)
        (v := m.order.bytes 8 (toUnsigned i)) (by rw [hlen']; omega)
      obtain ⟨header', hrest, hlist⟩ := ih (i := i + 1) header₂ (by omega) (by omega)
      have hfront := take_store_store h₁ (by rw [hlen]; exact h₂)
      rw [hlen, hlen'] at hfront
      refine ⟨header', ?_, ?_⟩
      · rw [fill, if_pos hmore]
        simp only [Option.bind_eq_bind, h₁, h₂, Option.bind_some]
        exact_mod_cast hrest
      · have hnext : 8 + 16 * (i + 1) = 8 + 16 * i + 8 + 8 := by omega
        rw [hlist, hnext, hfront, List.range'_succ, List.flatMap_cons, List.append_assoc,
          IndexS.toBytes, Machine.record, hrecno]

/-! ## Whole runs -/

def Machine.records (m : Machine) (R : ℕ) : List IndexS := (List.range R).map m.record

theorem Machine.flatMap_records (m : Machine) (R : ℕ) :
    (List.range R).flatMap (fun i => (m.record i).toBytes m.order) =
      (m.records R).flatMap (IndexS.toBytes m.order) := by
  rw [Machine.records, List.flatMap_map]

theorem Machine.length_records (m : Machine) (R : ℕ) : (m.records R).length = R := by
  simp [Machine.records]

/-- A run without overflow that gets its block fills it up. -/
theorem generate_eq {m : Machine} {size : ℤ} {R : ℕ} (hpos : 0 < size) (hsmall : size < 2048)
    (hR : (R : ℤ) = size * 65536) :
    generate m size = match m.malloc (8 + 16 * R) with
      | none => some (.failed 1)
      | some _ => if m.fopen then
          some (.generated R ((indexFile m.order (m.records R)).take (m.fwrite (8 + 16 * R))))
        else some (.failed 1) := by
  have hbytes : toUnsigned (8 + R * 16) = 8 + 16 * R := by
    rw [toUnsigned]
    omega
  have hcount : toUnsigned R = R := by
    rw [toUnsigned]
    omega
  have hlen : (m.order.bytes 8 R).length = 8 := by simp
  have hheader : headerSize R = some (8 + (R : ℤ) * 16) := headerSize_of_small (by omega)
  have hwrite : generate m size = writeIndex m R (8 + 16 * R) := by
    rw [generate, numRecords_of_small hpos hsmall, ← hR, Option.bind_eq_bind, Option.bind_some,
      hheader, Option.bind_some, hbytes]
  rw [hwrite]
  unfold writeIndex
  rw [hcount]
  cases m.malloc (8 + 16 * R) with
  | none => rfl
  | some header =>
      obtain ⟨header₁, h₁⟩ := store_isSome header (k := 0) (v := m.order.bytes 8 R) (by omega)
      obtain ⟨header₂, h₂, hlist⟩ := fill_eq m header₁ (Nat.zero_le R) (by omega)
      have hfront : header₁.toList.take (8 + 16 * 0) = m.order.bytes 8 R := by
        rw [toList_store h₁, List.take_zero, List.nil_append]
        exact List.take_left' hlen
      have hfile : header₂.toList = indexFile m.order (m.records R) := by
        rw [hlist, hfront, Nat.sub_zero, ← List.range_eq_range', m.flatMap_records, indexFile,
          m.length_records]
      simp only [Option.bind_eq_bind, h₁, h₂, Option.bind_some, hfile]

theorem generate_of_large (m : Machine) {size : ℤ} (hlarge : 2048 ≤ size) :
    generate m size = none := by
  rw [generate, numRecords_of_large hlarge]
  rfl

theorem correct_of_failed {m : Machine} {size code : ℤ}
    (h : generate m size = some (.failed code)) : Correct m size :=
  .inl ⟨code, h⟩

theorem correct_iff_of_generated {m : Machine} {size n : ℤ} {file : List UInt8}
    (h : generate m size = some (.generated n file)) :
    Correct m size ↔ Filled m.order size file ∧ NoOverflow size := by
  unfold Correct
  rw [h]
  constructor
  · intro hcorrect
    rcases hcorrect with ⟨code, hfailed⟩ | ⟨n', file', hgenerated, hfilled⟩
    · cases hfailed
    · cases hgenerated
      exact hfilled
  · intro hfilled
    exact .inr ⟨n, file, rfl, hfilled⟩

theorem Machine.recno_records {m : Machine} {R i : ℕ} {record : IndexS} (hR : R < 2 ^ 31)
    (h : (m.records R)[i]? = some record) : record.recno.toNat = i := by
  have hi : i < R := by
    have hlt := (List.getElem?_eq_some_iff.mp h).1
    rwa [m.length_records] at hlt
  have hrecord : record = m.record i := by
    simpa [Machine.records, List.getElem?_range hi] using h.symm
  rw [hrecord, Machine.record, UInt64.toNat_ofNat', Nat.mod_eq_of_lt (by omega)]

/-- The file is the right one if `fwrite` gets all of it out. -/
theorem filled_iff {m : Machine} {size : ℤ} {R k : ℕ} (hsize : (R : ℤ) = size * 65536)
    (hR : R < 2 ^ 31) :
    Filled m.order size ((indexFile m.order (m.records R)).take k) ↔ 8 + 16 * R ≤ k := by
  have hlen := length_indexFile m.order (m.records R)
  rw [m.length_records] at hlen
  constructor
  · intro h
    obtain ⟨records, hfile, hcount, -⟩ := h
    have hlength := congrArg List.length hfile
    rw [List.length_take, hlen, length_indexFile] at hlength
    omega
  · intro h
    rw [List.take_of_length_le (by omega)]
    refine ⟨m.records R, rfl, ?_, fun i record => m.recno_records hR⟩
    rw [m.length_records, hsize]

/-- The bytes that are asked for, as `malloc` and `fwrite` see their number. -/
def requested (size : ℤ) : ℕ := (8 + 1048576 * size).toNat

/-- A size without overflow, and no memory, no file, or a file that gets out. -/
def Fits (m : Machine) (size : ℤ) : Prop :=
  size < 2048 ∧ (m.malloc (requested size) = none ∨ m.fopen = false ∨
    requested size ≤ m.fwrite (requested size))

theorem not_correct_of_large (m : Machine) {size : ℤ} (hlarge : 2048 ≤ size) :
    ¬ Correct m size := by
  have hnone := generate_of_large m hlarge
  rintro (⟨code, hfailed⟩ | ⟨n, file, hgenerated, -⟩)
  · rw [hnone] at hfailed
    cases hfailed
  · rw [hnone] at hgenerated
    cases hgenerated

theorem correct_iff {m : Machine} {size : ℤ} (hpos : 0 < size) :
    Correct m size ↔ Fits m size := by
  unfold Fits
  by_cases hsmall : size < 2048
  · obtain ⟨R, hR⟩ : ∃ R : ℕ, (R : ℤ) = size * 65536 := ⟨(size * 65536).toNat, by omega⟩
    have hbytes : requested size = 8 + 16 * R := by
      rw [requested]
      omega
    have hrun : generate m size = _ := generate_eq hpos hsmall hR
    rw [hbytes, and_iff_right hsmall]
    cases hblock : m.malloc (8 + 16 * R) with
    | none =>
        rw [hblock] at hrun
        exact iff_of_true (correct_of_failed hrun) (.inl rfl)
    | some block =>
        rw [hblock] at hrun
        simp only at hrun
        by_cases hopen : m.fopen = true
        · rw [if_pos hopen] at hrun
          rw [correct_iff_of_generated hrun, noOverflow_iff hpos, and_iff_left hsmall,
            filled_iff hR (by omega)]
          simp [hopen]
        · rw [if_neg hopen] at hrun
          exact iff_of_true (correct_of_failed hrun) (.inr (.inl (by simpa using hopen)))
  · exact iff_of_false (not_correct_of_large m (Int.not_lt.mp hsmall)) fun h => hsmall h.1

/-- A machine with memory and disk space for everything. -/
def roomyMachine : Machine where
  order := .little
  malloc n := some (Vector.replicate n 0)
  timeMark _ := 0
  fopen := true
  fwrite n := n

theorem roomyMachine_takesAll : roomyMachine.TakesAll := fun n => Nat.le_refl n

/-- With room for the file the size decides. -/
theorem correct_size_iff {size : ℤ} (hpos : 0 < size) :
    (∀ m : Machine, m.TakesAll → Correct m size) ↔ size < 2048 := by
  constructor
  · intro h
    exact ((correct_iff hpos).mp (h roomyMachine roomyMachine_takesAll)).1
  · intro h m hall
    exact (correct_iff hpos).mpr ⟨h, .inr (.inr (hall _))⟩

/-- A run is right exactly if the size is below 2048 and the run ends in an error or gets the
whole file out. -/
theorem generator_correct_iff {size : ℤ} (hpos : 0 < size) :
    (∀ m : Machine, Correct m size ↔ Fits m size) ∧
      ((∀ m : Machine, m.TakesAll → Correct m size) ↔ size < 2048) :=
  ⟨fun _ => correct_iff hpos, correct_size_iff hpos⟩

theorem generator_correct_iff_one :
    (∀ m : Machine, Correct m 1 ↔ Fits m 1) ∧
      ((∀ m : Machine, m.TakesAll → Correct m 1) ↔ (1 : ℤ) < 2048) :=
  generator_correct_iff (by decide)

/-- A machine whose disk is full. -/
def fullMachine : Machine := { roomyMachine with fwrite := fun _ => 0 }

/-- For 4096 megabytes the products overflow; on a full disk an empty file is reported as one
of 65536 records. -/
theorem generator_not_correct :
    generate roomyMachine 4096 = none ∧
      generate fullMachine 1 = some (.generated 65536 []) ∧ ¬ Correct fullMachine 1 ∧
      ¬ ∀ (m : Machine) (size : ℤ), 0 < size → size < 2 ^ 31 → m.TakesAll → Correct m size := by
  refine ⟨generate_of_large roomyMachine (by decide), ?_, ?_, fun h => ?_⟩
  · exact generate_eq (m := fullMachine) (R := 65536) (by decide) (by decide) (by decide)
  · rw [correct_iff (by decide)]
    rintro ⟨-, hblock | hopen | hout⟩
    · cases hblock
    · cases hopen
    · exact absurd hout (by decide)
  · exact not_correct_of_large roomyMachine (by decide)
      (h roomyMachine 4096 (by decide) (by decide) roomyMachine_takesAll)

end OsaspLabs.Lab6.Generator
