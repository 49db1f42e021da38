import OsaspLabs.Library.Runs
import OsaspLabs.Records.Store

/-! # The sessions of LAB_7 p2

Any number of processes run `main` on one file. Each has its own buffers and file offset;
they share the bytes of the file and its locks. -/

namespace OsaspLabs.Records

/-- The two calls of `put_record`. -/
inductive Caller where
  | add
  | put
  deriving DecidableEq, Repr

inductive Pc where
  /-- Waits for the next command. -/
  | prompt
  | list (i : ℕ)
  | addScan (i : ℕ)
  | addTest
  | addLock
  | addModify
  /-- At the label `AGAIN`. -/
  | modModify
  | modTest
  | modLock
  | modRead
  | modUnlock (same : Bool)
  | getRead
  | putTest
  | putLock
  /-- At the start of `put_record`. -/
  | lseek (caller : Caller)
  /-- After the `sleep` in `put_record`. -/
  | write (caller : Caller)
  | unlock
  /-- After QUIT. -/
  | closed
  deriving DecidableEq, Repr

structure Session where
  pc : Pc
  recordNum : ℤ
  record : Record
  recordSav : Record
  recordNew : Record
  /-- The slot whose whole content `record` was read from, or that ADD filled it for. -/
  loaded : Option ℤ
  /-- The same for `recordNew`. -/
  loadedNew : Option ℤ
  /-- `modify_record` has worked on `record` since then. -/
  edited : Bool
  /-- The last command reported a failure. -/
  failed : Bool
  /-- `(record_num, record)` before the last command. -/
  before : ℤ × Record

/-- What a session has done to a slot. -/
inductive Event where
  /-- The session `k` reads in GET or MOD. -/
  | read (k n : ℕ) (content : List UInt8)
  | write (k n : ℕ) (caller : Caller) (record : Record)
  deriving DecidableEq

structure Shared where
  file : List UInt8
  /-- The session that holds the write lock on the region of a slot. -/
  locks : ℕ → Option ℕ
  /-- The reads and writes so far, the last one first. -/
  log : List Event

structure State where
  shared : Shared
  sessions : List Session

/-- No session runs; `file` is what `records.dat` holds. -/
def init (file : List UInt8) : State := ⟨⟨file, fun _ => none, []⟩, []⟩

/-! ## Locks -/

/-- `get_lock_state` asks for a lock of another process. A negative offset is an error, for
which it reports false. -/
def getLockState (locks : ℕ → Option ℕ) (k : ℕ) (recordNum : ℤ) : Bool :=
  if recordNum < 0 then false
  else
    match locks recordNum.toNat with
    | none => false
    | some j => j ≠ k

/-- `F_SETLK` with `F_WRLCK` grants the lock if no other process holds it, and else fails. -/
def lockRecord (locks : ℕ → Option ℕ) (k : ℕ) (recordNum : ℤ) : ℕ → Option ℕ :=
  if recordNum < 0 ∨ getLockState locks k recordNum then locks
  else fun m => if m = recordNum.toNat then some k else locks m

/-- `F_SETLK` with `F_UNLCK` drops the own lock on the region. -/
def unlockRecord (locks : ℕ → Option ℕ) (k : ℕ) (recordNum : ℤ) : ℕ → Option ℕ :=
  fun m => if (m : ℤ) = recordNum ∧ locks m = some k then none else locks m

/-- The end of a process drops all its locks. -/
def releaseAll (locks : ℕ → Option ℕ) (k : ℕ) : ℕ → Option ℕ :=
  fun m => if locks m = some k then none else locks m

/-! ## One session -/

/-- The slot, if all of its record is in the file. -/
def wholeSlot (file : List UInt8) (recordNum : ℤ) : Option ℤ :=
  if 0 ≤ recordNum ∧ (slot file recordNum.toNat).length = recordBytes then some recordNum
  else none

/-- `get_record` into `record`. -/
def Session.getRecord (t : Session) (file : List UInt8) (recordNum : ℤ) : ℤ × Session :=
  let (res, record) := Records.getRecord file recordNum t.record
  if res = 0 then
    (res, { t with record := record, loaded := wholeSlot file recordNum, edited := false })
  else (res, t)

def readEvent (file : List UInt8) (k : ℕ) (recordNum : ℤ) : List Event :=
  if recordNum < 0 then [] else [.read k recordNum.toNat (slot file recordNum.toNat)]

/-- The session `k` reads a command line. -/
def dispatch (k : ℕ) (line : Line) (sh : Shared) (t : Session) : Shared × Session :=
  let t := { t with before := (t.recordNum, t.record), failed := false }
  match Command.parse line.text with
  | .lst => (sh, { t with pc := .list 0 })
  | .add => (sh, { t with recordNum := -1, pc := .addScan 0 })
  | .mod =>
      if t.recordNum = -1 then (sh, { t with failed := true })
      else (sh, { t with pc := .modModify })
  | .get n => (sh, { t with recordNum := n, pc := .getRead })
  | .put => (sh, { t with pc := .putTest })
  | .quit => ({ sh with locks := releaseAll sh.locks k }, { t with pc := .closed })
  | .unknown => (sh, t)

/-- The next step of the session `k`. `edit` is what the user enters in it, `garbage` what an
uninitialised local record holds. Nothing is said about a product `record_num * RECORD_SIZE`
that overflows. -/
def sessionStep (k : ℕ) (edit : Edit) (garbage : Record) (sh : Shared) (t : Session) :
    Option (Shared × Session) :=
  match t.pc with
  | .prompt | .closed => none
  | .list i =>
      if i < numRecords ∧ (getRecord sh.file i garbage).1 = 0 then
        some (sh, { t with pc := .list (i + 1) })
      else some (sh, { t with pc := .prompt })
  | .addScan i =>
      if i < numRecords then
        let (res, t) := t.getRecord sh.file i
        if res = 0 then some (sh, { t with pc := .addScan (i + 1) })
        else some (sh, { t with recordNum := i, pc := .addTest })
      else some (sh, { t with pc := .addTest })
  | .addTest =>
      if t.recordNum = -1 ∨ getLockState sh.locks k t.recordNum then
        some (sh, { t with pc := .prompt, failed := true })
      else some (sh, { t with pc := .addLock })
  | .addLock =>
      some ({ sh with locks := lockRecord sh.locks k t.recordNum }, { t with pc := .addModify })
  | .addModify =>
      some (sh,
        { t with
          record := modifyRecord Record.zero edit
          loaded := some t.recordNum
          edited := true
          pc := .lseek .add })
  | .modModify =>
      let record := modifyRecord t.record edit
      some (sh,
        { t with
          recordSav := t.record
          record := record
          edited := true
          pc := if cmpRecord record t.record then .prompt else .modTest })
  | .modTest =>
      if getLockState sh.locks k t.recordNum then
        some (sh, { t with pc := .prompt, failed := true })
      else some (sh, { t with pc := .modLock })
  | .modLock =>
      some ({ sh with locks := lockRecord sh.locks k t.recordNum }, { t with pc := .modRead })
  | .modRead =>
      let (res, recordNew) := getRecord sh.file t.recordNum garbage
      some ({ sh with log := readEvent sh.file k t.recordNum ++ sh.log },
        { t with
          recordNew := recordNew
          loadedNew := if res = 0 then wholeSlot sh.file t.recordNum else none
          pc := .modUnlock (cmpRecord t.recordSav recordNew) })
  | .modUnlock same =>
      let sh := { sh with locks := unlockRecord sh.locks k t.recordNum }
      if same then some (sh, { t with pc := .prompt })
      else
        some (sh,
          { t with
            record := t.recordNew, loaded := t.loadedNew, edited := false, pc := .modModify })
  | .getRead =>
      if offsetFits t.recordNum then
        let sh := { sh with log := readEvent sh.file k t.recordNum ++ sh.log }
        let (res, t) := t.getRecord sh.file t.recordNum
        some (sh, { t with pc := .prompt, failed := res ≠ 0 })
      else none
  | .putTest =>
      if t.recordNum = -1 ∨ getLockState sh.locks k t.recordNum then
        some (sh, { t with pc := .prompt, failed := true })
      else some (sh, { t with pc := .putLock })
  | .putLock =>
      some ({ sh with locks := lockRecord sh.locks k t.recordNum },
        { t with pc := .lseek .put })
  | .lseek caller =>
      if t.recordNum < 0 then some (sh, { t with pc := .unlock, failed := true })
      else some (sh, { t with pc := .write caller })
  | .write caller =>
      some ({ sh with
          file := putRecord sh.file t.recordNum.toNat t.record
          log := .write k t.recordNum.toNat caller t.record :: sh.log },
        { t with pc := .unlock, edited := false })
  | .unlock =>
      some ({ sh with locks := unlockRecord sh.locks k t.recordNum }, { t with pc := .prompt })

/-- A session whose buffers hold anything. -/
def Session.start (record recordSav recordNew : Record) : Session where
  pc := .prompt
  recordNum := -1
  record := record
  recordSav := recordSav
  recordNew := recordNew
  loaded := none
  loadedNew := none
  edited := false
  failed := false
  before := (-1, record)

/-! ## All sessions -/

inductive Action where
  | start (record recordSav recordNew : Record)
  | line (k : ℕ) (line : Line)
  | run (k : ℕ) (edit : Edit) (garbage : Record)

def step (s : State) : Action → Option State
  | .start record recordSav recordNew =>
      some { s with sessions := s.sessions ++ [.start record recordSav recordNew] }
  | .line k line =>
      match s.sessions[k]? with
      | none => none
      | some t =>
          if t.pc = .prompt then
            let (sh, t) := dispatch k line s.shared t
            some ⟨sh, s.sessions.set k t⟩
          else none
  | .run k edit garbage =>
      match s.sessions[k]? with
      | none => none
      | some t =>
          match sessionStep k edit garbage s.shared t with
          | none => none
          | some (sh, t) => some ⟨sh, s.sessions.set k t⟩

/-- What a step can do. -/
inductive Effect (s : State) (a : Action) (s' : State) : Prop where
  | start (record recordSav recordNew : Record)
      (action : a = .start record recordSav recordNew) (shared : s'.shared = s.shared)
      (sessions : s'.sessions = s.sessions ++ [.start record recordSav recordNew])
  | line (k : ℕ) (line : Line) (t t' : Session) (action : a = .line k line)
      (at? : s.sessions[k]? = some t) (prompt : t.pc = .prompt)
      (dispatched : dispatch k line s.shared t = (s'.shared, t'))
      (sessions : s'.sessions = s.sessions.set k t')
  | run (k : ℕ) (edit : Edit) (garbage : Record) (t t' : Session)
      (action : a = .run k edit garbage) (at? : s.sessions[k]? = some t)
      (stepped : sessionStep k edit garbage s.shared t = some (s'.shared, t'))
      (sessions : s'.sessions = s.sessions.set k t')

theorem step_effect {s s' : State} {a : Action} (h : step s a = some s') : Effect s a s' := by
  cases a with
  | start record recordSav recordNew =>
      obtain rfl := Option.some.inj h
      exact .start record recordSav recordNew rfl rfl rfl
  | line k line =>
      simp only [step] at h
      split at h
      · cases h
      · rename_i t ht
        split at h
        · rename_i hpc
          obtain rfl := Option.some.inj h
          exact .line k line t _ rfl ht hpc rfl rfl
        · cases h
  | run k edit garbage =>
      simp only [step] at h
      split at h
      · cases h
      · rename_i t ht
        split at h
        · cases h
        · rename_i sh t' hstep
          obtain rfl := Option.some.inj h
          exact .run k edit garbage t t' rfl ht hstep rfl

end OsaspLabs.Records
