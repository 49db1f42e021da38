import OsaspLabs.Records.Store

/-! # Reading back what `put_record` wrote

The file is compared with a table of slots in which a put also creates the free slots before it. -/

namespace OsaspLabs.Records

/-- `put_record` with its `lseek`; nothing is said about an offset that overflows. -/
def putRecordAt (file : List UInt8) (recordNum : ℤ) (record : Record) : Option (List UInt8) :=
  if offsetFits recordNum then
    if recordNum < 0 then some file else some (putRecord file recordNum.toNat record)
  else none

/-- A call of `put_record` after another. -/
def putRecords (file : List UInt8) (puts : List (ℤ × Record)) : Option (List UInt8) :=
  puts.foldlM (fun file put => putRecordAt file put.1 put.2) file

/-- The record of the last put to the slot `j`. -/
def lastPut (puts : List (ℤ × Record)) (j : ℤ) : Option Record :=
  (puts.reverse.find? fun put => decide (put.1 = j)).map Prod.snd

/-! ## The table -/

/-- The record of each slot that can be read. -/
abbrev Slots := ℤ → Option Record

namespace Slots

def empty : Slots := fun _ => none

def put (s : Slots) (n : ℤ) (r : Record) : Slots := fun j =>
  if j = n then some r else if j < n then some ((s j).getD Record.zero) else s j

def puts (s : Slots) (l : List (ℤ × Record)) : Slots := l.foldl (fun s put => s.put put.1 put.2) s

@[simp] theorem put_self (s : Slots) (n : ℤ) (r : Record) : s.put n r n = some r := if_pos rfl

theorem put_of_lt (s : Slots) {j n : ℤ} (h : j < n) (r : Record) :
    s.put n r j = some ((s j).getD Record.zero) := by
  rw [put, if_neg (by omega), if_pos h]

theorem put_of_gt (s : Slots) {j n : ℤ} (h : n < j) (r : Record) : s.put n r j = s j := by
  rw [put, if_neg (by omega), if_neg (by omega)]

@[simp] theorem puts_concat (s : Slots) (l : List (ℤ × Record)) (n : ℤ) (r : Record) :
    s.puts (l ++ [(n, r)]) = (s.puts l).put n r := by
  simp [puts, List.foldl_append]

end Slots

@[simp] theorem lastPut_nil (j : ℤ) : lastPut [] j = none := rfl

theorem lastPut_concat (l : List (ℤ × Record)) (n : ℤ) (r : Record) (j : ℤ) :
    lastPut (l ++ [(n, r)]) j = if n = j then some r else lastPut l j := by
  unfold lastPut
  rw [List.reverse_append, List.reverse_singleton, List.singleton_append, List.find?_cons]
  by_cases h : n = j <;> simp [h]

/-- A slot holds the last record put to it; before a larger slot that was written stand zeros. -/
theorem puts_empty (l : List (ℤ × Record)) (j : ℤ) :
    Slots.empty.puts l j =
      match lastPut l j with
      | some r => some r
      | none => if ∃ put ∈ l, j < put.1 then some Record.zero else none := by
  induction l using List.reverseRecOn with
  | nil => simp [Slots.puts, Slots.empty]
  | append_singleton l put ih =>
      obtain ⟨n, r⟩ := put
      rw [Slots.puts_concat, lastPut_concat]
      rcases Int.lt_trichotomy n j with hlt | heq | hgt
      · have hiff : (∃ put ∈ l ++ [(n, r)], j < put.1) ↔ ∃ put ∈ l, j < put.1 := by
          simp only [List.mem_append, List.mem_singleton]
          constructor
          · rintro ⟨put, hmem | rfl, h⟩
            · exact ⟨put, hmem, h⟩
            · exact absurd h (Int.not_lt.mpr (Int.le_of_lt hlt))
          · rintro ⟨put, hmem, h⟩
            exact ⟨put, Or.inl hmem, h⟩
        rw [Slots.put_of_gt _ hlt, if_neg (Int.ne_of_lt hlt), ih]
        simp only [hiff]
      · subst heq
        rw [Slots.put_self, if_pos rfl]
      · have hlarger : ∃ put ∈ l ++ [(n, r)], j < put.1 := ⟨(n, r), by simp, hgt⟩
        rw [Slots.put_of_lt _ hgt, if_neg (Int.ne_of_gt hgt), ih]
        cases lastPut l j with
        | some r' => rfl
        | none => simp only [if_pos hlarger]; split <;> rfl

/-! ## The file -/

theorem Record.toBytes_ne_nil (r : Record) : r.toBytes ≠ [] := by
  intro h
  simpa [recordBytes, h] using r.length_toBytes

theorem Record.toBytes_zero : Record.zero.toBytes = List.replicate recordBytes 0 := by
  simp [Record.toBytes, Record.zero, recordBytes]

theorem Record.overwrite_toBytes (record r : Record) : record.overwrite r.toBytes = r := by
  have hname : ∀ i : Fin 80, r.toBytes[i.val]? = some r.name[i] := by
    intro i
    rw [Record.getElem?_toBytes, if_pos i.isLt]
    simp
  have haddress : ∀ i : Fin 80, r.toBytes[80 + i.val]? = some r.address[i] := by
    intro i
    rw [Record.getElem?_toBytes, if_neg (by omega), if_pos (by omega), Nat.add_sub_cancel_left]
    simp
  have hsemester : r.toBytes[160]? = some r.semester := by
    rw [Record.getElem?_toBytes, if_neg (by omega), if_neg (by omega), if_pos rfl]
  simp [Record.overwrite, hname, haddress, hsemester]

/-- The file holds the bytes of the records in the table, and nothing of the other slots. -/
def Represents (file : List UInt8) (s : Slots) : Prop :=
  ∀ n : ℕ, slot file n = (s n).elim [] Record.toBytes

section Represents

variable {file : List UInt8} {s : Slots}

theorem represents_empty : Represents [] Slots.empty := by
  intro n
  simp [slot, ByteFile.pread, Slots.empty]

/-- What one put does to the file is what it does to the table. -/
theorem represents_putRecord (h : Represents file s) (n : ℕ) (r : Record) :
    Represents (putRecord file n r) (s.put n r) := by
  intro j
  rcases lt_trichotomy n j with hlt | heq | hgt
  · rw [slot_putRecord_of_lt file hlt, Slots.put_of_gt _ (by omega), h j]
  · rw [heq, slot_putRecord_self, Slots.put_self, Option.elim_some]
  · rw [slot_putRecord_of_gt file hgt, Slots.put_of_lt _ (by omega), h j]
    cases s j with
    | none => simp [Record.toBytes_zero]
    | some r' => exact ByteFile.takeD_of_length_eq r'.length_toBytes 0

theorem represents_put (h : Represents file s) {n : ℤ} (hn : 0 ≤ n) (r : Record) :
    Represents (putRecord file n.toNat r) (s.put n r) := by
  have hput := represents_putRecord h n.toNat r
  rwa [Int.toNat_of_nonneg hn] at hput

theorem putRecordAt_of_nonneg {n : ℤ} (hn : 0 ≤ n) (hfits : offsetFits n = true) (r : Record) :
    putRecordAt file n r = some (putRecord file n.toNat r) := by
  rw [putRecordAt, if_pos hfits, if_neg (Int.not_lt.mpr hn)]

theorem represents_putRecords {l : List (ℤ × Record)} (h : Represents file s)
    (hl : ∀ put ∈ l, 0 ≤ put.1 ∧ offsetFits put.1 = true) :
    ∃ file', putRecords file l = some file' ∧ Represents file' (s.puts l) := by
  induction l generalizing file s with
  | nil => exact ⟨file, rfl, h⟩
  | cons put l ih =>
      obtain ⟨n, r⟩ := put
      have hput := hl (n, r) List.mem_cons_self
      obtain ⟨file', hrun, hrep⟩ := ih (represents_put h hput.1 r) fun put hmem =>
        hl put (List.mem_cons_of_mem _ hmem)
      refine ⟨file', ?_, hrep⟩
      unfold putRecords at hrun ⊢
      rw [List.foldlM_cons, putRecordAt_of_nonneg hput.1 hput.2]
      exact hrun

/-- `get_record` reads a record of the table, all of it, or fails. -/
theorem getRecord_of_represents (h : Represents file s) {j : ℤ} (hj : 0 ≤ j) (record : Record) :
    getRecord file j record =
      match s j with
      | some r => (0, r)
      | none => (-1, record) := by
  have hslot := h j.toNat
  rw [Int.toNat_of_nonneg hj] at hslot
  rw [getRecord, if_neg (Int.not_lt.mpr hj), hslot]
  cases s j with
  | none => rfl
  | some r =>
      simp only [Option.elim_some, if_neg r.toBytes_ne_nil, Record.overwrite_toBytes]

end Represents

/-- A put to another slot does not change the record that is read. -/
theorem getRecord_putRecord_of_ne {file : List UInt8} {s : Slots} (h : Represents file s)
    {n j : ℤ} (hn : 0 ≤ n) (hj : 0 ≤ j) (hne : n ≠ j) (r record : Record)
    (hread : (getRecord file j record).1 = 0) :
    getRecord (putRecord file n.toNat r) j record = getRecord file j record := by
  rw [getRecord_of_represents h hj] at hread ⊢
  rw [getRecord_of_represents (represents_put h hn r) hj]
  cases hs : s j with
  | none => simp [hs] at hread
  | some r' =>
      rcases Int.lt_or_gt_of_ne hne with hlt | hgt
      · rw [Slots.put_of_gt _ hlt, hs]
      · rw [Slots.put_of_lt _ hgt, hs, Option.getD_some]

/-- After puts on an empty file each slot reads as the last record put to it, as zeros if only
larger slots were written, and not at all if none was. -/
theorem getRecord_putRecords {l : List (ℤ × Record)}
    (hputs : ∀ put ∈ l, 0 ≤ put.1 ∧ offsetFits put.1 = true) :
    ∃ file, putRecords [] l = some file ∧
      ∀ j, 0 ≤ j → offsetFits j = true → ∀ record,
        (∀ r, lastPut l j = some r → getRecord file j record = (0, r)) ∧
        (lastPut l j = none → (∃ put ∈ l, j < put.1) →
          getRecord file j record = (0, Record.zero)) ∧
        (lastPut l j = none → (¬∃ put ∈ l, j < put.1) →
          getRecord file j record = (-1, record)) ∧
        ∀ n r, 0 ≤ n → offsetFits n = true → n ≠ j → (getRecord file j record).1 = 0 →
          ∃ file', putRecordAt file n r = some file' ∧
            getRecord file' j record = getRecord file j record := by
  obtain ⟨file, hrun, hrep⟩ := represents_putRecords represents_empty hputs
  refine ⟨file, hrun, fun j hj _ record => ?_⟩
  have hread := getRecord_of_represents hrep hj record
  rw [puts_empty] at hread
  refine ⟨?_, ?_, ?_, ?_⟩
  · intro r hlast
    simpa [hlast] using hread
  · intro hlast hlarger
    simpa only [hlast, if_pos hlarger] using hread
  · intro hlast hlarger
    simpa only [hlast, if_neg hlarger] using hread
  · intro n r hn hfits hne hzero
    exact ⟨_, putRecordAt_of_nonneg hn hfits r,
      getRecord_putRecord_of_ne hrep hn hj hne r record hzero⟩

/-- A student of the first semester. -/
def freshman : Record := { Record.zero with semester := 1 }

/-- Slot 3 is written twice and slot 0 in between; slot 1 is never written. -/
def threePuts : List (ℤ × Record) := [(3, Record.zero), (0, freshman), (3, freshman)]

theorem getRecord_putRecords_hole :
    ∃ file, putRecords [] threePuts = some file ∧
      getRecord file 3 Record.zero = (0, freshman) ∧
      getRecord file 1 freshman = (0, Record.zero) ∧
      getRecord file 4 freshman = (-1, freshman) ∧
      ∃ file', putRecordAt file 1 freshman = some file' ∧
        getRecord file' 3 Record.zero = getRecord file 3 Record.zero := by
  obtain ⟨file, hrun, hread⟩ :=
    getRecord_putRecords (l := threePuts) (by simp [threePuts, offsetFits, recordSize])
  obtain ⟨hlast, -, -, hframe⟩ := hread 3 (by decide) (by decide) Record.zero
  obtain ⟨-, hhole, -, -⟩ := hread 1 (by decide) (by decide) freshman
  obtain ⟨-, -, hend, -⟩ := hread 4 (by decide) (by decide) freshman
  have hthree := hlast freshman rfl
  refine ⟨file, hrun, hthree, hhole rfl ⟨_, List.mem_cons_self, by decide⟩, hend rfl ?_, ?_⟩
  · simp [threePuts]
  · exact hframe 1 freshman (by decide) (by decide) (by decide) (by rw [hthree])

end OsaspLabs.Records
