import OsaspLabs.Lab6.Generator
import OsaspLabs.Lab6.Printer
import OsaspLabs.Library.Doubles
import OsaspLabs.SortIndex.FineFile

/-! # The three programs of LAB_6 one after the other

The generator writes an index file, `sort_index` sorts its windows, and the printer reads it. -/

namespace OsaspLabs.Lab6

open Memory CString SortIndex

/-- A record with a time mark that is no negative number, as it stands in the file. -/
def stored (record : SortIndex.IndexS Double) : IndexS :=
  ⟨record.timeMark.bits, record.recno⟩

/-- `sort_index` turns the one file into the other. -/
def SortsFile (order : ByteOrder) (pageSize : ℤ) (a : Arguments) (bytes bytes' : List UInt8) :
    Prop :=
  ∃ file file' : Window Double, bytes = indexFile order (file.map stored) ∧
    FineFileRun pageSize a 0 file file' ∧ bytes' = indexFile order (file'.map stored)

/-! ## What a file holds -/

theorem IndexS.toBytes_injective (order : ByteOrder) :
    Function.Injective (IndexS.toBytes order) := by
  intro x y h
  rw [← IndexS.ofBytes_toBytes order x, h, IndexS.ofBytes_toBytes]

theorem flatMap_toBytes_injective (order : ByteOrder) {xs ys : List IndexS}
    (h : xs.flatMap (IndexS.toBytes order) = ys.flatMap (IndexS.toBytes order)) : xs = ys := by
  induction xs generalizing ys with
  | nil =>
      have hlen := congrArg List.length h
      rw [length_flatMap_toBytes, length_flatMap_toBytes, List.length_nil] at hlen
      exact (List.length_eq_zero_iff.mp (by omega)).symm
  | cons x xs ih =>
      cases ys with
      | nil =>
          have hlen := congrArg List.length h
          rw [length_flatMap_toBytes, length_flatMap_toBytes, List.length_nil] at hlen
          simp at hlen
      | cons y ys =>
          rw [List.flatMap_cons, List.flatMap_cons] at h
          have hlen : (x.toBytes order).length = (y.toBytes order).length := by simp
          obtain ⟨hx, hrest⟩ := List.append_inj h hlen
          rw [IndexS.toBytes_injective order hx, ih hrest]

/-- A file determines its records. -/
theorem indexFile_injective (order : ByteOrder) : Function.Injective (indexFile order) := by
  intro xs ys h
  have hlen : (order.bytes 8 xs.length).length = (order.bytes 8 ys.length).length := by simp
  exact flatMap_toBytes_injective order (List.append_inj h hlen).2

/-- What the generator leaves when it leaves a file. -/
theorem Generator.file_of_generated {m : Generator.Machine} {size n : ℤ} {bytes : List UInt8}
    (hpos : 0 < size) (hsmall : size < 2048) (htakes : m.TakesAll)
    (h : generate m size = some (.generated n bytes)) :
    ∃ R : ℕ, (R : ℤ) = size * 65536 ∧ n = R ∧ bytes = indexFile m.order (m.records R) := by
  obtain ⟨R, hR⟩ : ∃ R : ℕ, (R : ℤ) = size * 65536 := ⟨(size * 65536).toNat, by omega⟩
  have hrun : generate m size = _ := generate_eq hpos hsmall hR
  have hlen := length_indexFile m.order (m.records R)
  rw [m.length_records] at hlen
  have hall := htakes (8 + 16 * R)
  rw [List.take_of_length_le (by omega)] at hrun
  rw [hrun] at h
  refine ⟨R, hR, ?_⟩
  cases hblock : m.malloc (8 + 16 * R) with
  | none =>
      rw [hblock] at h
      cases h
  | some block =>
      rw [hblock] at h
      by_cases hopen : m.fopen = true
      · simp only [if_pos hopen] at h
        cases h
        exact ⟨rfl, rfl⟩
      · simp only [if_neg hopen] at h
        cases h

/-- Generated, sorted and printed: whatever the schedule of the threads, the printer shows each
generated record once, and those of each window in ascending order of their times. -/
theorem generated_sorted_printed {m : Generator.Machine} {size n pageSize argc : ℤ}
    {a a' : Arguments} {bytes bytes' : List UInt8} {host : Printer.Host}
    {program filename argument : List UInt8} {fd : ℕ} (hpos : 0 < size) (hsmall : size ≤ 152)
    (htakes : m.TakesAll) (hgenerated : Generator.generate m size = some (.generated n bytes))
    (haccepted : checkArgs pageSize argc a = .ok a') (hmemsize : 0 < a.memsize)
    (hblocks : a.blocks ∣ a.memsize) (hwindows : a.memsize ∣ n)
    (hsorted : SortsFile m.order pageSize a bytes bytes') (horder : host.order = m.order)
    (hclear : stringAt host.path 0 = some []) (hname : 0 ∉ filename)
    (hshort : filename.length < Printer.pathMax) (hfd : fd ≠ 0)
    (hopened : host.openFile filename = some (fd, bytes'))
    (hargument : Printer.Accepted argument) (hcovers : n ≤ strtol argument)
    (hlimit : 8 + 16 * strtol argument ≤ host.limit) (hword : host.limit < 2 ^ 64) :
    ∃ file' : Window Double,
      Printer.PrintsFile host [program, filename, argument] (file'.map stored) ∧
      (file'.map stored).Perm (m.records (size * 65536).toNat) ∧
      ∀ i, (i + 1) * a.memsize.toNat ≤ (size * 65536).toNat →
        (slice a.memsize.toNat i file').Pairwise fun x y =>
          x.timeMark.value ≤ y.timeMark.value := by
  obtain ⟨R, hR, rfl, rfl⟩ := Generator.file_of_generated hpos (by omega) htakes hgenerated
  obtain ⟨file, file', hbytes, hrun, rfl⟩ := hsorted
  have hfile : file.map stored = m.records R := (indexFile_injective m.order hbytes).symm
  have hlen : file.length = R := by
    rw [← m.length_records R, ← hfile, List.length_map]
  have hacc := (checkArgs_ok haccepted).2
  have hwindows' : a.memsize ∣ file.length := hlen ▸ hwindows
  have hoffset : 16 * (file.length - a.memsize) < 2 ^ 31 := by omega
  have hcoarse := hrun.coarse_of_windows hacc hblocks hwindows' hmemsize hoffset
  obtain ⟨hperm, hslices⟩ := hcoarse.windows_sorted hacc hblocks hwindows' hmemsize hoffset
  have hlen' : (file'.map stored).length = R := by
    rw [List.length_map, hperm.length_eq, hlen]
  have hrecords : (size * 65536).toNat = R := by omega
  rw [hrecords]
  refine ⟨file', ?_, hfile ▸ hperm.map stored, fun i hi => ?_⟩
  · have hserves : host.Serves filename (file'.map stored) := {
      clear := hclear
      short := hshort
      opened := ⟨fd, hfd, by rw [horder]; exact hopened⟩ }
    obtain ⟨size', hsize'⟩ : ∃ k : ℕ, strtol argument = k :=
      ⟨(strtol argument).toNat, by omega⟩
    have hunsigned : toUnsigned (strtol argument) = size' := by
      rw [hsize', toUnsigned]
      omega
    apply (Printer.printsFile_iff hname hargument).mpr
    rw [Printer.readsAll_iff_of_serves hserves, hlen', hunsigned,
      Printer.readCount_of_lt (by omega)]
    omega
  · have hsorted := (hslices i (by rw [hlen]; exact hi)).1
    exact hsorted.imp Double.le_iff.mp

/-! ## A file of one megabyte -/

def megabyteFile : Window Double :=
  (List.range 65536).map fun i => ⟨⟨0, by decide⟩, UInt64.ofNat i⟩

theorem length_megabyteFile : megabyteFile.length = 65536 := by simp [megabyteFile]

theorem stored_megabyteFile :
    megabyteFile.map stored = Generator.roomyMachine.records 65536 := by
  rw [megabyteFile, Generator.Machine.records, List.map_map]
  rfl

theorem megabyteFile_sorts :
    ∃ bytes', SortsFile .little 4096 ⟨65536, 16, 8⟩
      (indexFile .little (megabyteFile.map stored)) bytes' := by
  have hlen := length_megabyteFile
  have hwindow : ∃ w, FineWindowRun 8 65536 16 megabyteFile w :=
    FineWindowRun.exists (k := 4) (by decide) rfl (by decide) (by decide) hlen (by decide)
  obtain ⟨w, hw⟩ := hwindow
  have hcoarse : WindowRun 8 65536 16 megabyteFile w :=
    hw.coarse (k := 4) (by decide) rfl (by decide) (by decide) hlen
  have hdvd : 16 ∣ 65536 := by decide
  have hlenw : w.length = 65536 :=
    (hcoarse.sorted (k := 4) (by decide) rfl (by decide) hdvd hlen).2.length_eq.trans hlen
  have hset : writeAt 0 w megabyteFile = w := by
    rw [writeAt, List.take_zero, List.nil_append, Nat.zero_add, hlenw,
      List.drop_of_length_le hlen.le, List.append_nil]
  have hrun : FineFileRun 4096 ⟨65536, 16, 8⟩ 0 megabyteFile w := by
    have hrest : FineFileRun 4096 ⟨65536, 16, 8⟩ (0 + 65536) (writeAt 0 w megabyteFile) w := by
      rw [hset]
      exact .finished (by rw [hlenw]; decide)
    have hfirst : FineWindowRun 8 65536 16 ((megabyteFile.drop 0).take 65536) w := by
      rw [List.drop_zero, List.take_of_length_le (by rw [hlen])]
      exact hw
    exact .window (by rw [hlen]; decide) (by rw [hlen]; decide) hfirst hrest
  exact ⟨_, megabyteFile, w, rfl, hrun, rfl⟩

/-- A host with one file, for every path. -/
def hostOf (bytes : List UInt8) : Printer.Host where
  order := .little
  path := Vector.replicate Printer.pathMax 0
  openFile _ := some (3, bytes)
  limit := 2 ^ 62

/-- The file name is "a" and the size of the printer 65536. -/
theorem generated_sorted_printed_megabyte :
    ∃ (bytes bytes' : List UInt8) (file' : Window Double),
      Generator.generate Generator.roomyMachine 1 = some (.generated 65536 bytes) ∧
      SortsFile .little 4096 ⟨65536, 16, 8⟩ bytes bytes' ∧
      Printer.PrintsFile (hostOf bytes') [[112], [97], [54, 53, 53, 51, 54]]
        (file'.map stored) := by
  have hgenerated : Generator.generate Generator.roomyMachine 1 =
      some (.generated 65536 (indexFile .little (megabyteFile.map stored))) := by
    have hrun : Generator.generate Generator.roomyMachine 1 = _ :=
      Generator.generate_eq (R := 65536) (by decide) (by decide) (by decide)
    have hblock : Generator.roomyMachine.malloc (8 + 16 * 65536) =
        some (Vector.replicate (8 + 16 * 65536) 0) := rfl
    have hlen := length_indexFile .little (megabyteFile.map stored)
    rw [List.length_map, length_megabyteFile] at hlen
    rw [hblock, ← stored_megabyteFile] at hrun
    rw [hrun]
    have htake : (indexFile .little (megabyteFile.map stored)).take (8 + 16 * 65536) =
        indexFile .little (megabyteFile.map stored) := List.take_of_length_le (by rw [hlen])
    exact congrArg (fun file => some (Generator.Outcome.generated 65536 file)) htake
  obtain ⟨bytes', hsorts⟩ := megabyteFile_sorts
  have haccepted : checkArgs 4096 5 ⟨65536, 16, 8⟩ = .ok ⟨65536, 16, 8⟩ :=
    checkArgs_of_accepted (by decide)
      { memsize := by decide
        pages := by decide
        blocks := ⟨4, by decide⟩
        threads_ge := by decide
        threads_le := by decide
        threads_lt := by decide }
  have hstrtol : strtol [54, 53, 53, 51, 54] = 65536 := by decide
  have hlimit : (hostOf bytes').limit = 2 ^ 62 := rfl
  have hpipeline : ∃ file' : Window Double,
      Printer.PrintsFile (hostOf bytes') [[112], [97], [54, 53, 53, 51, 54]]
        (file'.map stored) ∧
      (file'.map stored).Perm (Generator.roomyMachine.records ((1 : ℤ) * 65536).toNat) ∧
      ∀ i, (i + 1) * (65536 : ℤ).toNat ≤ ((1 : ℤ) * 65536).toNat →
        (slice (65536 : ℤ).toNat i file').Pairwise fun x y =>
          x.timeMark.value ≤ y.timeMark.value :=
    generated_sorted_printed (by decide) (by decide) Generator.roomyMachine_takesAll hgenerated
      haccepted (by decide) (by decide) (by decide) hsorts rfl (stringAt_replicate (by decide))
      (by decide) (by decide) (by decide : 3 ≠ 0) rfl ⟨by decide, by decide⟩ (by rw [hstrtol])
      (by rw [hstrtol, hlimit]; decide) (by rw [hlimit]; decide)
  obtain ⟨file', hprints, -⟩ := hpipeline
  exact ⟨_, bytes', file', hgenerated, hsorts, hprints⟩

end OsaspLabs.Lab6
