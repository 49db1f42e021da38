import OsaspLabs.Library.ByteFile
import OsaspLabs.Library.CString

/-! # The record file of LAB_7 p2

Slot `n` starts at byte `168 * n`; a record fills 161 of its bytes. -/

namespace OsaspLabs.Records

open ByteFile CString

def recordSize : ℕ := 168

def numRecords : ℕ := 15

/-- `sizeof(struct record_s)` -/
def recordBytes : ℕ := 161

/-- `struct record_s` -/
structure Record where
  name : Vector UInt8 80
  address : Vector UInt8 80
  semester : UInt8
  deriving DecidableEq

def Record.toBytes (r : Record) : List UInt8 :=
  r.name.toList ++ r.address.toList ++ [r.semester]

/-- `read` stores what it got over the first bytes of the record. -/
def Record.overwrite (r : Record) (bytes : List UInt8) : Record where
  name := Vector.ofFn fun i => bytes[i.val]?.getD r.name[i]
  address := Vector.ofFn fun i => bytes[80 + i.val]?.getD r.address[i]
  semester := bytes[160]?.getD r.semester

/-- The record that `memset` with 0 leaves. -/
def Record.zero : Record := ⟨Vector.replicate 80 0, Vector.replicate 80 0, 0⟩

/-- The offset `record_num * RECORD_SIZE` is an `int`. -/
def offsetFits (recordNum : ℤ) : Bool :=
  -2 ^ 31 ≤ recordNum * recordSize && recordNum * recordSize < 2 ^ 31

/-- What the file holds of the record in slot `n`; nothing if the file ends before it. -/
def slot (file : List UInt8) (n : ℕ) : List UInt8 := pread file (recordSize * n) recordBytes

/-- `get_record` returns -1 if `lseek` refuses the offset or there is nothing to read. -/
def getRecord (file : List UInt8) (recordNum : ℤ) (record : Record) : ℤ × Record :=
  if recordNum < 0 then (-1, record)
  else
    let got := slot file recordNum.toNat
    if got = [] then (-1, record) else (0, record.overwrite got)

/-- The `write` of `put_record`. -/
def putRecord (file : List UInt8) (recordNum : ℕ) (record : Record) : List UInt8 :=
  pwrite file (recordSize * recordNum) record.toBytes

/-- A line from `fgets` into 80 bytes, cut at its newline. -/
structure Line where
  text : List UInt8
  short : text.length < 80
  noNul : 0 ∉ text
  noNewline : 10 ∉ text

/-- The three lines that `modify_record` reads. -/
structure Edit where
  name : Line
  address : Line
  semester : Line

def noLine : Line := ⟨[], by decide, by decide, by decide⟩

def noEdit : Edit := ⟨noLine, noLine, noLine⟩

def modifyRecord (record : Record) (edit : Edit) : Record :=
  { record with
    name := strncpy 80 edit.name.text
    address := strncpy 80 edit.address.text
    semester := UInt8.ofNat (strtol edit.semester.text % 256).toNat }

def cmpRecord (record1 record2 : Record) : Bool :=
  ofArray record1.name == ofArray record2.name &&
    ofArray record1.address == ofArray record2.address && record1.semester == record2.semester

inductive Command where
  | lst
  | add
  | mod
  | get (recordNum : ℤ)
  | put
  | quit
  | unknown
  deriving DecidableEq, Repr

/-- The comparisons of `main` with its input line, in their order. -/
def Command.parse (input : List UInt8) : Command :=
  if input = ascii ['L', 'S', 'T'] then .lst
  else if input = ascii ['A', 'D', 'D'] then .add
  else if input.take 3 = ascii ['M', 'O', 'D'] then .mod
  else if input.take 4 = ascii ['G', 'E', 'T', ' '] then
    .get ((strtol (input.drop 4)).bmod (2 ^ 32))
  else if input = ascii ['P', 'U', 'T'] then .put
  else if input = ascii ['Q', 'U', 'I', 'T'] then .quit
  else .unknown

example : Command.parse (ascii ['G', 'E', 'T', ' ', '-', '7']) = .get (-7) := by decide

/-! ## Records as bytes -/

@[simp] theorem Record.length_toBytes (r : Record) : r.toBytes.length = recordBytes := by
  simp [Record.toBytes, recordBytes]

theorem Record.getElem?_toBytes (r : Record) (i : ℕ) :
    r.toBytes[i]? =
      if i < 80 then r.name[i]? else if i < 160 then r.address[i - 80]?
      else if i = 160 then some r.semester else none := by
  unfold Record.toBytes
  rw [List.append_assoc, List.getElem?_append, Vector.length_toList, Vector.getElem?_toList]
  split
  · rfl
  · rw [List.getElem?_append, Vector.length_toList, Vector.getElem?_toList]
    split
    · rw [if_pos (by omega)]
    · rw [if_neg (by omega), List.getElem?_singleton]
      split
      · rw [if_pos (by omega)]
      · rw [if_neg (by omega)]

/-- A whole record read from the file replaces all of the old one. -/
theorem Record.toBytes_overwrite (r : Record) {bytes : List UInt8}
    (h : bytes.length = recordBytes) : (r.overwrite bytes).toBytes = bytes := by
  have hbytes : recordBytes = 161 := rfl
  refine List.ext_getElem? fun i => ?_
  rw [Record.getElem?_toBytes]
  split
  · rename_i hname
    have hlt : i < bytes.length := by omega
    simp [Record.overwrite, hname, hlt]
  · split
    · have hlt : i < bytes.length := by omega
      have hsub : 80 + (i - 80) = i := by omega
      simp [Record.overwrite, hsub, hlt]
      omega
    · split
      · rename_i hsemester
        have hlt : 160 < bytes.length := by omega
        simp [Record.overwrite, hsemester, hlt]
      · exact (List.getElem?_eq_none (by omega)).symm

/-! ## Slots -/

theorem slot_putRecord_self (file : List UInt8) (n : ℕ) (r : Record) :
    slot (putRecord file n r) n = r.toBytes := by
  have hself := pread_pwrite_self file (recordSize * n) r.toBytes
  rw [Record.length_toBytes] at hself
  exact hself

/-- A put to a lower slot ends before this one. -/
theorem slot_putRecord_of_lt (file : List UInt8) {m n : ℕ} (h : m < n) (r : Record) :
    slot (putRecord file m r) n = slot file n := by
  refine pread_pwrite_after file ?_ recordBytes
  rw [Record.length_toBytes]
  simp only [recordSize, recordBytes]
  omega

/-- A put to a higher slot fills this one up with zeros. -/
theorem slot_putRecord_of_gt (file : List UInt8) {m n : ℕ} (h : n < m) (r : Record) :
    slot (putRecord file m r) n = (slot file n).takeD recordBytes 0 := by
  refine pread_pwrite_before file ?_
  simp only [recordSize, recordBytes]
  omega

/-- A put leaves the whole records of other slots alone. -/
theorem slot_putRecord_of_ne (file : List UInt8) {m n : ℕ} (h : m ≠ n) (r : Record)
    (hwhole : (slot file n).length = recordBytes) :
    slot (putRecord file m r) n = slot file n := by
  rcases Nat.lt_or_gt_of_ne h with hlt | hgt
  · exact slot_putRecord_of_lt file hlt r
  · rw [slot_putRecord_of_gt file hgt, takeD_of_length_eq hwhole]

end OsaspLabs.Records
