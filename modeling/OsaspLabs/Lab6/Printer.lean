import OsaspLabs.Lab6.IndexFile
import OsaspLabs.Library.CString
import OsaspLabs.Library.SignedInt

/-! # The printer of LAB_6

The header is the bytes of a local variable. Neither it nor the buffer of the path is
initialised. What leaves an object has no result. -/

namespace OsaspLabs.Lab6.Printer

open Memory CString

def pathMax : ℕ := 4096

/-- `sizeof(index_hdr_s)`. -/
def sizeofHeader : ℕ := 8 + 16 * 10000000

structure Host where
  order : ByteOrder
  /-- What the buffer from `malloc(PATH_MAX)` holds. -/
  path : Vector UInt8 pathMax
  /-- The descriptor that `open` returns for a path, with the bytes of its file. -/
  openFile : List UInt8 → Option (ℕ × List UInt8)
  /-- The largest number of bytes that `read` can be asked for. -/
  limit : ℕ

/-- What is printed. -/
structure Printed where
  absolute_filename : List UInt8
  records : ℕ
  lines : List IndexS

/-- `header.idx[i]`. -/
def idx (order : ByteOrder) (header : Vector UInt8 sizeofHeader) (i : ℕ) : Option IndexS :=
  (load header (8 + 16 * i) 16).map (IndexS.ofBytes order)

/-- The loop over the records from `i` on. -/
def printLoop (order : ByteOrder) (header : Vector UInt8 sizeofHeader) (records i : ℕ) :
    Option (List IndexS) :=
  if i < records then do
    let record ← idx order header i
    let rest ← printLoop order header records (i + 1)
    some (record :: rest)
  else some []
termination_by records - i

/-- The number of bytes that `generate` asks for, as a `size_t`. -/
def readCount (size : ℕ) : ℕ := (8 + size * 16) % 2 ^ 64

/-- The bytes that `read` delivers; without an open file there are none. -/
def readFile (host : Host) (file : Option (ℕ × List UInt8)) (count : ℕ) : List UInt8 :=
  match file with
  | none => []
  | some (_, content) => if count ≤ host.limit then content.take count else []

/-- `header` is what the local variable holds before. The left value is an exit code. -/
def generate (host : Host) (header : Vector UInt8 sizeofHeader) (filename : List UInt8)
    (size : ℕ) : Option (Except ℤ Printed) := do
  let absolute_filename ← strcat host.path filename
  let path ← stringAt absolute_filename 0
  let file := host.openFile path
  if file.map Prod.fst = some 0 then some (.error (-4))
  else
    let header ← store header 0 (readFile host file (readCount size))
    let records := host.order.value (header.toList.take 8)
    let lines ← printLoop host.order header records 0
    some (.ok ⟨path, records, lines⟩)

def main (host : Host) (header : Vector UInt8 sizeofHeader) (argv : List (List UInt8)) :
    Option (Except ℤ Printed) :=
  if argv.length < 2 then some (.error (-1))
  else do
    let filesize := strtol (← argv[2]?)
    if filesize = 0 then some (.error (-2))
    else if filesize.tmod 256 ≠ 0 then some (.error (-3))
    else generate host header (← argv[1]?) (toUnsigned filesize)

/-! ## What the loop prints -/

theorem idx_eq_some_iff {order : ByteOrder} {header : Vector UInt8 sizeofHeader} {i : ℕ}
    {record : IndexS} :
    idx order header i = some record ↔
      record.toBytes order <+: header.toList.drop (8 + 16 * i) := by
  unfold idx load
  constructor
  · intro h
    split at h
    · rename_i hfit
      have hlen : ((header.toList.drop (8 + 16 * i)).take 16).length = 16 := by
        simp only [List.length_take, List.length_drop, Vector.length_toList]
        omega
      have hrecord : IndexS.ofBytes order ((header.toList.drop (8 + 16 * i)).take 16) = record :=
        Option.some.inj h
      rw [← hrecord, IndexS.toBytes_ofBytes order hlen]
      exact List.take_prefix _ _
    · cases h
  · intro h
    have hlen := h.length_le
    rw [IndexS.length_toBytes, List.length_drop, Vector.length_toList] at hlen
    have htake := List.prefix_iff_eq_take.mp h
    rw [IndexS.length_toBytes] at htake
    rw [if_pos (by omega), ← htake, Option.map_some, IndexS.ofBytes_toBytes]

/-- The lines are the records whose bytes stand in the array. -/
theorem printLoop_eq_some_iff {order : ByteOrder} {header : Vector UInt8 sizeofHeader}
    {records i : ℕ} {lines : List IndexS} :
    printLoop order header records i = some lines ↔ lines.length = records - i ∧
      lines.flatMap (IndexS.toBytes order) <+: header.toList.drop (8 + 16 * i) := by
  induction hd : records - i generalizing i lines with
  | zero =>
      have hend : ¬ i < records := by omega
      rw [printLoop, if_neg hend, List.length_eq_zero_iff]
      constructor
      · intro h
        cases h
        simp
      · intro h
        rw [h.1]
  | succ d ih =>
      have hmore : i < records := by omega
      have hnext : 8 + 16 * (i + 1) = 8 + 16 * i + 16 := by omega
      rw [printLoop, if_pos hmore]
      simp only [Option.bind_eq_bind, Option.bind_eq_some_iff, idx_eq_some_iff,
        ih (i := i + 1) (by omega), hnext, Option.some.injEq]
      constructor
      · rintro ⟨record, hrecord, rest, ⟨hlen, hrest⟩, rfl⟩
        refine ⟨by rw [List.length_cons, hlen], ?_⟩
        rw [List.flatMap_cons]
        apply append_prefix_iff.mpr
        rw [IndexS.length_toBytes, List.drop_drop]
        exact ⟨hrecord, hrest⟩
      · rintro ⟨hlen, hlines⟩
        obtain ⟨record, rest, rfl⟩ := List.exists_cons_of_length_eq_add_one hlen
        rw [List.flatMap_cons] at hlines
        obtain ⟨hrecord, hrest⟩ := append_prefix_iff.mp hlines
        rw [IndexS.length_toBytes, List.drop_drop] at hrest
        exact ⟨record, hrecord, rest, ⟨Nat.succ.inj hlen, hrest⟩, rfl⟩

/-- The records of a file are printed if the header starts with the bytes of the file. -/
theorem printLoop_records_iff {order : ByteOrder} {header : Vector UInt8 sizeofHeader}
    {records : List IndexS} :
    printLoop order header (order.value (header.toList.take 8)) 0 = some records ↔
      indexFile order records <+: header.toList := by
  have hsize : sizeofHeader = 8 + 16 * 10000000 := rfl
  have hfirst : (header.toList.take 8).length = 8 := by
    rw [List.length_take, Vector.length_toList]
    omega
  rw [printLoop_eq_some_iff, indexFile, append_prefix_iff, ByteOrder.length_bytes, Nat.mul_zero,
    Nat.add_zero, Nat.sub_zero]
  refine and_congr_left fun hrecords => ?_
  constructor
  · intro hlen
    rw [hlen, order.bytes_value hfirst]
    exact List.take_prefix _ _
  · intro hcount
    have hle := hrecords.length_le
    rw [length_flatMap_toBytes, List.length_drop, Vector.length_toList] at hle
    have htake := List.prefix_iff_eq_take.mp hcount
    rw [ByteOrder.length_bytes] at htake
    rw [← htake, order.value_bytes (by omega)]

/-! ## What a run prints -/

/-- The lines of the run are these records. -/
def Prints (host : Host) (header : Vector UInt8 sizeofHeader) (filename : List UInt8) (size : ℕ)
    (records : List IndexS) : Prop :=
  ∃ printed, generate host header filename size = some (.ok printed) ∧ printed.lines = records

/-- The path is usable, and the header starts with the file's bytes after the `read`. -/
theorem prints_iff {host : Host} {header : Vector UInt8 sizeofHeader} {filename : List UInt8}
    {size : ℕ} {records : List IndexS} (hname : 0 ∉ filename) :
    Prints host header filename size records ↔
      ∃ junk data, stringAt host.path 0 = some junk ∧
        junk.length + filename.length < pathMax ∧
        (host.openFile (junk ++ filename)).map Prod.fst ≠ some 0 ∧
        readFile host (host.openFile (junk ++ filename)) (readCount size) = data ∧
        data.length ≤ sizeofHeader ∧
        indexFile host.order records <+: data ++ header.toList.drop data.length := by
  have hstored : ∀ {data : List UInt8} {header' : Vector UInt8 sizeofHeader},
      store header 0 data = some header' →
        header'.toList = data ++ header.toList.drop data.length := by
    intro data header' h
    simpa using drop_store h
  unfold Prints generate
  constructor
  · rintro ⟨printed, hrun, hlines⟩
    simp only [Option.bind_eq_bind, Option.bind_eq_some_iff] at hrun
    obtain ⟨absolute_filename, hcat, path, hpath, hrun⟩ := hrun
    obtain ⟨junk, hjunk, hfull⟩ := stringAt_strcat hcat hname
    obtain rfl := Option.some.inj (hpath.symm.trans hfull)
    have hfits := (strcat_isSome_iff hjunk filename).mp ⟨absolute_filename, hcat⟩
    split at hrun
    · cases hrun
    · rename_i hopen
      simp only [Option.bind_eq_some_iff, Option.some.injEq, Except.ok.injEq] at hrun
      obtain ⟨header', hstore, lines, hloop, hprinted⟩ := hrun
      rw [← hlines, ← hprinted]
      have hprefix := printLoop_records_iff.mp hloop
      rw [hstored hstore] at hprefix
      have hroom := store_fits hstore
      exact ⟨junk, _, hjunk, hfits, hopen, rfl, by omega, hprefix⟩
  · rintro ⟨junk, data, hjunk, hfits, hopen, hdata, hroom, hprefix⟩
    obtain ⟨absolute_filename, hcat⟩ := (strcat_isSome_iff hjunk filename).mpr hfits
    have hpath := stringAt_strcat_of hjunk hcat hname
    obtain ⟨header', hstore⟩ := store_isSome header (k := 0) (v := data) (by omega)
    rw [← hstored hstore] at hprefix
    have hloop := printLoop_records_iff.mpr hprefix
    refine ⟨⟨junk ++ filename, host.order.value (header'.toList.take 8), records⟩, ?_, rfl⟩
    simp only [Option.bind_eq_bind, hcat, Option.bind_some, hpath, if_neg hopen, hdata,
      hstore, hloop]

/-- What the run meets when it prints the records of the file, whatever its header held: in front
of the file name, the buffer of the path holds a string that leads to the file; the bytes of the
records are among those that are read; and these fit into the header. -/
structure ReadsAll (host : Host) (filename : List UInt8) (size : ℕ) (records : List IndexS)
    (junk : List UInt8) (fd : ℕ) (content : List UInt8) : Prop where
  path : stringAt host.path 0 = some junk
  path_fits : junk.length + filename.length < pathMax
  opened : host.openFile (junk ++ filename) = some (fd, content)
  /-- Descriptor 0 is taken for a failure. -/
  fd_ne : fd ≠ 0
  accepted : readCount size ≤ host.limit
  fits : (content.take (readCount size)).length ≤ sizeofHeader
  read : indexFile host.order records <+: content.take (readCount size)

theorem ReadsAll.prints {host : Host} {filename : List UInt8} {size : ℕ} {records : List IndexS}
    {junk content : List UInt8} {fd : ℕ} (hname : 0 ∉ filename)
    (h : ReadsAll host filename size records junk fd content)
    (header : Vector UInt8 sizeofHeader) : Prints host header filename size records := by
  have hdata : readFile host (some (fd, content)) (readCount size) =
      content.take (readCount size) := if_pos h.accepted
  apply (prints_iff hname).mpr
  refine ⟨junk, content.take (readCount size), h.path, h.path_fits, ?_, ?_, h.fits,
    List.prefix_append_of_prefix h.read⟩
  · rw [h.opened]
    simpa using h.fd_ne
  · rw [h.opened, hdata]

/-- A header of one byte over and over. -/
theorem drop_replicate_header (x : UInt8) (k : ℕ) :
    (Vector.replicate sizeofHeader x).toList.drop k = List.replicate (sizeofHeader - k) x := by
  rw [Vector.toList_replicate, List.drop_replicate]

/-- The records are printed whatever the header held if and only if they are read. -/
theorem prints_all_iff {host : Host} {filename : List UInt8} {size : ℕ} {records : List IndexS}
    (hname : 0 ∉ filename) :
    (∀ header, Prints host header filename size records) ↔
      ∃ junk fd content, ReadsAll host filename size records junk fd content := by
  constructor
  · intro h
    obtain ⟨junk, data, hjunk, hfits, hopen, hdata, hroom, hzeros⟩ :=
      (prints_iff hname).mp (h (Vector.replicate sizeofHeader 0))
    obtain ⟨junk', data', hjunk', -, -, hdata', -, hones⟩ :=
      (prints_iff hname).mp (h (Vector.replicate sizeofHeader 1))
    obtain rfl := Option.some.inj (hjunk.symm.trans hjunk')
    obtain rfl := hdata.symm.trans hdata'
    rw [drop_replicate_header] at hzeros hones
    have hread := prefix_of_prefix_append (by decide) hzeros hones
    have hlen := hread.length_le
    rw [length_indexFile] at hlen
    cases hfile : host.openFile (junk ++ filename) with
    | none =>
        rw [hfile] at hdata
        simp [← hdata, readFile] at hlen
    | some file =>
        obtain ⟨fd, content⟩ := file
        rw [hfile] at hopen hdata
        by_cases haccepted : readCount size ≤ host.limit
        · have htaken : content.take (readCount size) = data := by
            rw [← hdata, readFile, if_pos haccepted]
          rw [← htaken] at hroom hread
          exact ⟨junk, fd, content, hjunk, hfits, hfile, by simpa using hopen, haccepted, hroom,
            hread⟩
        · simp [← hdata, readFile, if_neg haccepted] at hlen
  · rintro ⟨junk, fd, content, h⟩ header
    exact h.prints hname header

/-! ## The arguments -/

/-- `main` goes on with this size. -/
def Accepted (argument : List UInt8) : Prop :=
  strtol argument ≠ 0 ∧ (strtol argument).tmod 256 = 0

/-- Whatever the header held, the run prints these records and no others. -/
def PrintsFile (host : Host) (argv : List (List UInt8)) (records : List IndexS) : Prop :=
  ∀ header, ∃ printed, main host header argv = some (.ok printed) ∧ printed.lines = records

theorem main_of_accepted (host : Host) (header : Vector UInt8 sizeofHeader)
    {program filename argument : List UInt8} (h : Accepted argument) :
    main host header [program, filename, argument] =
      generate host header filename (toUnsigned (strtol argument)) := by
  simp [main, h.1, h.2]

theorem printsFile_iff {host : Host} {program filename argument : List UInt8}
    {records : List IndexS} (hname : 0 ∉ filename) (h : Accepted argument) :
    PrintsFile host [program, filename, argument] records ↔
      ∃ junk fd content,
        ReadsAll host filename (toUnsigned (strtol argument)) records junk fd content := by
  rw [← prints_all_iff hname]
  simp only [PrintsFile, Prints, main_of_accepted host _ h]

/-- The buffer of the path is empty, and the path leads to the file of the records. -/
structure Host.Serves (host : Host) (filename : List UInt8) (records : List IndexS) : Prop where
  clear : stringAt host.path 0 = some []
  short : filename.length < pathMax
  opened : ∃ fd, fd ≠ 0 ∧ host.openFile filename = some (fd, indexFile host.order records)

theorem readsAll_iff_of_serves {host : Host} {filename : List UInt8} {size : ℕ}
    {records : List IndexS} (h : host.Serves filename records) :
    (∃ junk fd content, ReadsAll host filename size records junk fd content) ↔
      records.length ≤ 10000000 ∧ 8 + 16 * records.length ≤ readCount size ∧
        readCount size ≤ host.limit := by
  have hsizeof : sizeofHeader = 8 + 16 * 10000000 := rfl
  have hlen := length_indexFile host.order records
  obtain ⟨fd, hfd, hopened⟩ := h.opened
  constructor
  · rintro ⟨junk, fd', content, hreads⟩
    have hjunk := hreads.path
    rw [h.clear] at hjunk
    obtain rfl := Option.some.inj hjunk
    have hcontent := hreads.opened
    rw [List.nil_append, hopened] at hcontent
    cases hcontent
    have hread := hreads.read.length_le
    have hfits := hreads.fits
    rw [List.length_take, hlen] at hread hfits
    exact ⟨by omega, by omega, hreads.accepted⟩
  · intro hbounds
    refine ⟨[], fd, indexFile host.order records, ?_⟩
    have hall : (indexFile host.order records).take (readCount size) =
        indexFile host.order records := List.take_of_length_le (by omega)
    exact {
      path := h.clear
      path_fits := by simpa using h.short
      opened := by rwa [List.nil_append]
      fd_ne := hfd
      accepted := hbounds.2.2
      fits := by
        rw [hall, hlen]
        omega
      read := by rw [hall] }

/-- As long as the number of bytes does not wrap around, it is the one of `size` records. -/
theorem readCount_of_lt {size : ℕ} (h : 8 + size * 16 < 2 ^ 64) :
    readCount size = 8 + 16 * size := by
  rw [readCount, Nat.mod_eq_of_lt h, Nat.mul_comm]

/-- The records of the file are printed if and only if all of them are read, on a host that
`Serves` the file if and only if there are at most ten million and the size covers them. -/
theorem printer_prints_iff {host : Host} {program filename argument : List UInt8}
    {records : List IndexS} (hname : 0 ∉ filename) (h : Accepted argument) :
    (PrintsFile host [program, filename, argument] records ↔
        ∃ junk fd content,
          ReadsAll host filename (toUnsigned (strtol argument)) records junk fd content) ∧
      (host.Serves filename records →
        (PrintsFile host [program, filename, argument] records ↔
          records.length ≤ 10000000 ∧
            8 + 16 * records.length ≤ readCount (toUnsigned (strtol argument)) ∧
            readCount (toUnsigned (strtol argument)) ≤ host.limit)) := by
  refine ⟨printsFile_iff hname h, fun hserves => ?_⟩
  rw [printsFile_iff hname h, readsAll_iff_of_serves hserves]

/-- A host with a clear heap and one file, for every path. -/
def fileHost (records : List IndexS) : Host where
  order := .little
  path := Vector.replicate pathMax 0
  openFile _ := some (3, indexFile .little records)
  limit := 2 ^ 62

theorem fileHost_serves (records : List IndexS) : (fileHost records).Serves [97] records where
  clear := stringAt_replicate (by decide)
  short := by decide
  opened := ⟨3, by decide, rfl⟩

theorem printer_prints_iff_one :
    (PrintsFile (fileHost [⟨0, 0⟩]) [[112], [97], [50, 53, 54]] [⟨0, 0⟩] ↔
        ∃ junk fd content,
          ReadsAll (fileHost [⟨0, 0⟩]) [97] (toUnsigned (strtol [50, 53, 54])) [⟨0, 0⟩] junk fd
            content) ∧
      ((fileHost [⟨0, 0⟩]).Serves [97] [⟨0, 0⟩] →
        (PrintsFile (fileHost [⟨0, 0⟩]) [[112], [97], [50, 53, 54]] [⟨0, 0⟩] ↔
          1 ≤ 10000000 ∧ 8 + 16 * 1 ≤ readCount (toUnsigned (strtol [50, 53, 54])) ∧
            readCount (toUnsigned (strtol [50, 53, 54])) ≤ 2 ^ 62)) :=
  printer_prints_iff (by decide) ⟨by decide, by decide⟩

/-- 65536 records and the size 256: most of what is printed was never read. -/
theorem printer_reads_256 :
    ¬ ∀ (host : Host) (program filename argument : List UInt8) (records : List IndexS),
      0 ∉ filename → Accepted argument → host.Serves filename records →
        PrintsFile host [program, filename, argument] records := by
  intro h
  have haccepted : Accepted [50, 53, 54] := ⟨by decide, by decide⟩
  have hserves := fileHost_serves (List.replicate 65536 ⟨0, 0⟩)
  have hprints := h _ [112] [97] [50, 53, 54] _ (by decide) haccepted hserves
  have hsize : toUnsigned (strtol [50, 53, 54]) = 256 := by decide
  have hbounds := (readsAll_iff_of_serves hserves).mp
    ((printsFile_iff (by decide) haccepted).mp hprints)
  rw [hsize, readCount_of_lt (by decide), List.length_replicate] at hbounds
  omega

end OsaspLabs.Lab6.Printer
