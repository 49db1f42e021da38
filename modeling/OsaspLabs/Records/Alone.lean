import OsaspLabs.Records.LostUpdate

/-! # One session of LAB_7 p2 on its own

GET sets `record_num` before it reads the record, and ADD reads one slot after the other into
the buffer before it knows whether one is free. -/

namespace OsaspLabs.Records

open Runs CString

/-- The buffer holds the slot `record_num` as it was read, or as MOD has changed it since. -/
structure HoldsSlot (file : List UInt8) (t : Session) : Prop where
  inFile : 0 ≤ t.recordNum
  loaded : t.loaded = some t.recordNum
  content : ∃ (r : Record) (edits : List Edit), r.toBytes = slot file t.recordNum.toNat ∧
    t.record = edits.foldl modifyRecord r ∧ (t.edited = false → edits = [])

/-- What a command leaves behind. -/
structure Sound (file : List UInt8) (t : Session) : Prop where
  holds : t.recordNum ≠ -1 → HoldsSlot file t
  kept : t.failed = true → (t.recordNum, t.record) = t.before

/-- Every command of a session leaves it sound, and PUT writes no slot but the one that the
record was read from. -/
def SessionInvariant (s : State) : Prop :=
  ∀ (k : ℕ) (t : Session), s.sessions[k]? = some t →
    (t.pc = .prompt → Sound s.shared.file t) ∧
    (t.pc = .write .put → t.loaded = some t.recordNum)

/-- The buffer after `count` reads of ADD, the first one of slot `i`. -/
def scanned (file : List UInt8) : ℕ → ℕ → Record → Record
  | _, 0, record => record
  | i, count + 1, record => scanned file (i + 1) count (getRecord file i record).2

/-- GET reads a whole record, or there was none before and there is none now. -/
def GetFits (file : List UInt8) (t : Session) (n : ℤ) : Prop :=
  wholeSlot file n = some n ∨ n = -1 ∧ t.recordNum = -1

/-- ADD finds a free slot, or what it has read instead makes no difference. -/
def AddFits (file : List UInt8) (t : Session) : Prop :=
  (∃ i < numRecords, slot file i = []) ∨
    t.recordNum = -1 ∧ scanned file 0 numRecords t.record = t.record

/-- There is no second session. -/
def OneSession (s : State) (a : Action) : Prop :=
  ∀ record recordSav recordNew : Record, a = .start record recordSav recordNew → s.sessions = []

/-- There is no second session, and every GET and ADD fits. -/
structure AloneFits (s : State) (a : Action) : Prop where
  one : OneSession s a
  fits : ∀ (k : ℕ) (line : Line) (t : Session), a = .line k line → s.sessions[k]? = some t →
    (∀ n : ℤ, Command.parse line.text = .get n → GetFits s.shared.file t n) ∧
    (Command.parse line.text = .add → AddFits s.shared.file t)

/-- The command of a line fits. -/
def CommandFits (file : List UInt8) (t : Session) : Command → Prop
  | .get n => GetFits file t n
  | .add => AddFits file t
  | _ => True

section Decide

variable {s : State} {k : ℕ}

theorem aloneFits_start_iff {record recordSav recordNew : Record} :
    AloneFits s (.start record recordSav recordNew) ↔ s.sessions = [] :=
  ⟨fun h => h.one _ _ _ rfl, fun h => ⟨fun _ _ _ _ => h, fun _ _ _ ha => by cases ha⟩⟩

theorem aloneFits_line_iff {line : Line} :
    AloneFits s (.line k line) ↔
      ∀ t ∈ s.sessions[k]?, CommandFits s.shared.file t (Command.parse line.text) := by
  constructor
  · intro h t ht
    obtain ⟨hget, hadd⟩ := h.fits k line t rfl ht
    cases hparse : Command.parse line.text with
    | get n => exact hget n hparse
    | add => exact hadd hparse
    | _ => trivial
  · refine fun h => ⟨fun _ _ _ ha => (by cases ha), fun _ _ t ha ht => ?_⟩
    cases ha
    have hfits := h t ht
    exact ⟨fun n hparse => (by rwa [hparse] at hfits), fun hparse => (by rwa [hparse] at hfits)⟩

theorem aloneFits_run (edit : Edit) (garbage : Record) : AloneFits s (.run k edit garbage) :=
  ⟨fun _ _ _ ha => (by cases ha), fun _ _ _ ha => (by cases ha)⟩

instance (file : List UInt8) (t : Session) (n : ℤ) : Decidable (GetFits file t n) :=
  inferInstanceAs (Decidable (wholeSlot file n = some n ∨ n = -1 ∧ t.recordNum = -1))

instance (file : List UInt8) (t : Session) : Decidable (AddFits file t) :=
  inferInstanceAs (Decidable ((∃ i < numRecords, slot file i = []) ∨
    t.recordNum = -1 ∧ scanned file 0 numRecords t.record = t.record))

instance (file : List UInt8) (t : Session) : DecidablePred (CommandFits file t)
  | .get n => inferInstanceAs (Decidable (GetFits file t n))
  | .add => inferInstanceAs (Decidable (AddFits file t))
  | .lst | .mod | .put | .quit | .unknown => isTrue trivial

instance (s : State) : DecidablePred (AloneFits s)
  | .start _ _ _ => decidable_of_iff' _ aloneFits_start_iff
  | .line _ _ => decidable_of_iff' _ aloneFits_line_iff
  | .run _ edit garbage => isTrue (aloneFits_run edit garbage)

end Decide

/-! ## Reads -/

theorem getRecord_of_empty {file : List UInt8} {i : ℕ} (record : Record)
    (h : slot file i = []) : getRecord file i record = (-1, record) := by
  have hpos : ¬ (i : ℤ) < 0 := by omega
  simp [getRecord, hpos, h]

theorem getRecord_of_ne_empty {file : List UInt8} {i : ℕ} (record : Record)
    (h : slot file i ≠ []) :
    getRecord file i record = (0, record.overwrite (slot file i)) := by
  have hpos : ¬ (i : ℤ) < 0 := by omega
  simp [getRecord, hpos, h]

theorem wholeSlot_eq_self {file : List UInt8} {n : ℤ} :
    wholeSlot file n = some n ↔ 0 ≤ n ∧ (slot file n.toNat).length = recordBytes := by
  simp [wholeSlot]

/-- What a whole slot holds is what `get_record` reads. -/
theorem getRecord_of_whole {file : List UInt8} {n : ℤ} (record : Record)
    (h : wholeSlot file n = some n) :
    (getRecord file n record).1 = 0 ∧
      (getRecord file n record).2.toBytes = slot file n.toNat := by
  obtain ⟨hpos, hwhole⟩ := wholeSlot_eq_self.mp h
  obtain ⟨i, rfl⟩ := Int.eq_ofNat_of_zero_le hpos
  rw [Int.toNat_natCast] at hwhole ⊢
  have hsome : slot file i ≠ [] := List.ne_nil_of_length_pos (hwhole ▸ by decide)
  rw [getRecord_of_ne_empty record hsome]
  exact ⟨rfl, record.toBytes_overwrite hwhole⟩

theorem HoldsSlot.whole {file : List UInt8} {t : Session} (h : HoldsSlot file t) :
    wholeSlot file t.recordNum = some t.recordNum := by
  obtain ⟨r, _, hr, _⟩ := h.content
  exact wholeSlot_eq_self.mpr ⟨h.inFile, hr ▸ r.length_toBytes⟩

/-! ## The invariant of one session -/

/-- What holds of the session where it is. -/
def Stage (file : List UInt8) (t : Session) : Prop :=
  match t.pc with
  | .prompt => Sound file t
  | .closed => True
  | .list _ => t.recordNum ≠ -1 → HoldsSlot file t
  | .addScan i =>
      t.recordNum = -1 ∧
        ((∃ j, i ≤ j ∧ j < numRecords ∧ slot file j = []) ∨
          t.before = (-1, scanned file i (numRecords - i) t.record))
  | .addTest => 0 ≤ t.recordNum ∨ t.recordNum = -1 ∧ t.before = (-1, t.record)
  | .addLock | .addModify => 0 ≤ t.recordNum
  | .lseek .add | .write .add => 0 ≤ t.recordNum ∧ t.loaded = some t.recordNum
  | .modUnlock _ =>
      HoldsSlot file t ∧ t.loadedNew = some t.recordNum ∧
        t.recordNew.toBytes = slot file t.recordNum.toNat
  | .getRead =>
      wholeSlot file t.recordNum = some t.recordNum ∨
        t.recordNum = -1 ∧ t.before = (-1, t.record)
  | .putTest => Sound file t ∧ t.before = (t.recordNum, t.record)
  | _ => HoldsSlot file t

/-- No command has failed before it is over. -/
structure Ready (file : List UInt8) (t : Session) : Prop where
  quiet : t.pc ≠ .prompt → t.failed = false
  stage : Stage file t

theorem HoldsSlot.congr {file : List UInt8} {t u : Session} (h : HoldsSlot file t)
    (hnum : u.recordNum = t.recordNum) (hrecord : u.record = t.record)
    (hloaded : u.loaded = t.loaded) (hedited : u.edited = t.edited) : HoldsSlot file u where
  inFile := hnum ▸ h.inFile
  loaded := by rw [hloaded, hnum, h.loaded]
  content := by
    rw [hnum, hrecord, hedited]
    exact h.content

/-- `modify_record` is one more edit. -/
theorem HoldsSlot.modify {file : List UInt8} {t : Session} (h : HoldsSlot file t) (edit : Edit)
    (recordSav : Record) (pc : Pc) :
    HoldsSlot file { t with
      recordSav := recordSav, record := modifyRecord t.record edit, edited := true, pc := pc } := by
  obtain ⟨r, edits, hr, hrecord, _⟩ := h.content
  refine ⟨h.inFile, h.loaded, r, edits ++ [edit], hr, ?_, nofun⟩
  rw [List.foldl_append, ← hrecord]
  rfl

/-- A record that was just read, or just written, is the slot. -/
theorem HoldsSlot.of_eq {file : List UInt8} {t : Session} (hpos : 0 ≤ t.recordNum)
    (hloaded : t.loaded = some t.recordNum)
    (h : t.record.toBytes = slot file t.recordNum.toNat) : HoldsSlot file t :=
  ⟨hpos, hloaded, t.record, [], h, rfl, fun _ => rfl⟩

theorem HoldsSlot.sound {file : List UInt8} {t : Session} (h : HoldsSlot file t)
    (hquiet : t.failed = false) : Sound file t :=
  ⟨fun _ => h, fun hfailed => absurd (hquiet.symm.trans hfailed) (by decide)⟩

theorem dispatch_ready {k : ℕ} {line : Line} {sh sh' : Shared} {t t' : Session}
    (h : dispatch k line sh t = (sh', t')) (hpc : t.pc = .prompt) (hsound : Sound sh.file t)
    (hget : ∀ n : ℤ, Command.parse line.text = .get n → GetFits sh.file t n)
    (hadd : Command.parse line.text = .add → AddFits sh.file t) : Ready sh'.file t' := by
  have hholds : ∀ u : Session, u.recordNum = t.recordNum → u.record = t.record →
      u.loaded = t.loaded → u.edited = t.edited → u.recordNum ≠ -1 → HoldsSlot sh.file u := by
    intro u hnum hrecord hloaded hedited hne
    exact (hsound.holds (hnum ▸ hne)).congr hnum hrecord hloaded hedited
  unfold dispatch at h
  cases hc : Command.parse line.text <;> simp only [hc] at h
  case lst =>
    cases h
    exact ⟨fun _ => rfl, hholds _ rfl rfl rfl rfl⟩
  case add =>
    cases h
    refine ⟨fun _ => rfl, rfl, ?_⟩
    rcases hadd hc with ⟨j, hj, hfree⟩ | ⟨hnum, hscan⟩
    · exact .inl ⟨j, Nat.zero_le j, hj, hfree⟩
    · right
      simp only [hnum, Nat.sub_zero, hscan]
  case mod =>
    split at h
    · cases h
      rename_i hnone
      refine ⟨fun hne => absurd hpc hne, ?_⟩
      simp only [Stage, hpc]
      exact ⟨fun hne => absurd hnone hne, fun _ => rfl⟩
    · cases h
      rename_i hsome
      exact ⟨fun _ => rfl, hholds _ rfl rfl rfl rfl hsome⟩
  case get n =>
    cases h
    refine ⟨fun _ => rfl, ?_⟩
    rcases hget n hc with hwhole | ⟨rfl, hnum⟩
    · exact .inl hwhole
    · refine .inr ⟨rfl, ?_⟩
      simp only [hnum]
  case put =>
    cases h
    exact ⟨fun _ => rfl, ⟨hholds _ rfl rfl rfl rfl, nofun⟩, rfl⟩
  case quit =>
    cases h
    exact ⟨fun _ => rfl, trivial⟩
  case unknown =>
    cases h
    refine ⟨fun hne => absurd hpc hne, ?_⟩
    simp only [Stage, hpc]
    exact ⟨hholds _ rfl rfl rfl rfl, nofun⟩

/-- The scan of ADD stops at a free slot, or goes on with a buffer that it has read. -/
theorem ready_addScan {file : List UInt8} {t : Session} {i : ℕ} (hi : i < numRecords)
    (hquiet : t.failed = false) (hnum : t.recordNum = -1)
    (hscan : (∃ j, i ≤ j ∧ j < numRecords ∧ slot file j = []) ∨
      t.before = (-1, scanned file i (numRecords - i) t.record)) :
    Ready file (if (t.getRecord file i).1 = 0 then
      { (t.getRecord file i).2 with pc := .addScan (i + 1) }
      else { (t.getRecord file i).2 with recordNum := i, pc := .addTest }) := by
  by_cases hslot : slot file i = []
  · have hread : t.getRecord file i = (-1, t) := by
      simp [Session.getRecord, getRecord_of_empty t.record hslot]
    rw [hread]
    exact ⟨fun _ => hquiet, .inl (Int.natCast_nonneg i)⟩
  · have hread : t.getRecord file i = (0, { t with
        record := t.record.overwrite (slot file i)
        loaded := wholeSlot file i
        edited := false }) := by
      simp [Session.getRecord, getRecord_of_ne_empty t.record hslot]
    rw [hread, if_pos rfl]
    refine ⟨fun _ => hquiet, hnum, ?_⟩
    rcases hscan with ⟨j, hij, hj, hfree⟩ | hbefore
    · refine .inl ⟨j, Nat.lt_of_le_of_ne hij ?_, hj, hfree⟩
      rintro rfl
      exact hslot hfree
    · right
      have hcount : numRecords - i = numRecords - (i + 1) + 1 := by omega
      rw [hcount, scanned, getRecord_of_ne_empty _ hslot] at hbefore
      exact hbefore

/-- The re-read of MOD finds the slot as it is. -/
theorem ready_modRead {file : List UInt8} {t : Session} (h : HoldsSlot file t)
    (hquiet : t.failed = false) (garbage : Record) (same : Bool) :
    Ready file { t with
      recordNew := (getRecord file t.recordNum garbage).2
      loadedNew :=
        if (getRecord file t.recordNum garbage).1 = 0 then wholeSlot file t.recordNum else none
      pc := .modUnlock same } := by
  obtain ⟨hres, hnew⟩ := getRecord_of_whole garbage h.whole
  refine ⟨fun _ => hquiet, h.congr rfl rfl rfl rfl, ?_, hnew⟩
  simp only [hres, if_true]
  exact h.whole

/-- GET of a whole slot fills the buffer with it. -/
theorem ready_getRead {file : List UInt8} {t : Session}
    (hstage : wholeSlot file t.recordNum = some t.recordNum ∨
      t.recordNum = -1 ∧ t.before = (-1, t.record)) :
    Ready file { (t.getRecord file t.recordNum).2 with
      pc := .prompt, failed := (t.getRecord file t.recordNum).1 ≠ 0 } := by
  refine ⟨fun hne => absurd rfl hne, ?_⟩
  rcases hstage with hwhole | ⟨hnum, hbefore⟩
  · obtain ⟨hres, hread⟩ := getRecord_of_whole t.record hwhole
    have hget : t.getRecord file t.recordNum = (0, { t with
        record := (getRecord file t.recordNum t.record).2
        loaded := wholeSlot file t.recordNum
        edited := false }) := by
      simp [Session.getRecord, hres]
    rw [hget]
    exact HoldsSlot.sound (.of_eq (wholeSlot_eq_self.mp hwhole).1 hwhole hread) rfl
  · have hget : t.getRecord file t.recordNum = (-1, t) := by
      simp [Session.getRecord, getRecord, hnum]
    rw [hget]
    exact ⟨fun hne => absurd hnum hne, fun _ => by rw [hbefore, hnum]⟩

theorem sessionStep_ready {k : ℕ} {edit : Edit} {garbage : Record} {sh sh' : Shared}
    {t t' : Session} (h : sessionStep k edit garbage sh t = some (sh', t'))
    (hown : ∀ m j : ℕ, sh.locks m = some j → j = k) (hready : Ready sh.file t) :
    Ready sh'.file t' := by
  have hfree : ∀ n : ℤ, ¬ getLockState sh.locks k n = true := by
    intro n hlocked
    obtain ⟨_, j, hj, hjk⟩ := getLockState_eq_true.mp hlocked
    exact hjk (hown _ j hj)
  by_cases hprompt : t.pc = .prompt
  · simp [sessionStep, hprompt] at h
  obtain ⟨hquiet, hstage⟩ := hready
  have hquiet := hquiet hprompt
  unfold sessionStep at h
  unfold Stage at hstage
  cases hpc : t.pc <;> simp only [hpc] at h hstage
  case prompt | closed => cases h
  case list i =>
    split at h <;> cases h
    · exact ⟨fun _ => hquiet, fun hne => (hstage hne).congr rfl rfl rfl rfl⟩
    · refine ⟨fun _ => hquiet, fun hne => (hstage hne).congr rfl rfl rfl rfl, ?_⟩
      exact fun hfailed => absurd (hquiet.symm.trans hfailed) (by decide)
  case addScan i =>
    obtain ⟨hnum, hscan⟩ := hstage
    split at h
    · rename_i hi
      have hnext := ready_addScan hi hquiet hnum hscan
      split at h <;> cases h
      · rename_i hres
        rwa [if_pos hres] at hnext
      · rename_i hres
        rwa [if_neg hres] at hnext
    · cases h
      rename_i hi
      have hnone : numRecords - i = 0 := by omega
      rw [hnone] at hscan
      refine ⟨fun _ => hquiet, .inr ⟨hnum, hscan.resolve_left ?_⟩⟩
      rintro ⟨j, hij, hj, _⟩
      omega
  case addTest =>
    split at h <;> cases h
    · rename_i hstop
      have hnum := hstop.resolve_right (hfree _)
      obtain hpos | ⟨_, hbefore⟩ := hstage
      · omega
      · refine ⟨fun hne => absurd rfl hne, fun hne => absurd hnum hne, fun _ => ?_⟩
        rw [hbefore, hnum]
    · rename_i hgo
      refine ⟨fun _ => hquiet, hstage.resolve_right fun hnone => hgo (.inl hnone.1)⟩
  case addLock =>
    cases h
    exact ⟨fun _ => hquiet, hstage⟩
  case addModify =>
    cases h
    exact ⟨fun _ => hquiet, hstage, rfl⟩
  case modModify =>
    cases h
    by_cases hsame : cmpRecord (modifyRecord t.record edit) t.record = true
    · simp only [hsame, if_true]
      exact ⟨fun _ => hquiet, (hstage.modify edit t.record .prompt).sound hquiet⟩
    · simp only [hsame]
      exact ⟨fun _ => hquiet, hstage.modify edit t.record .modTest⟩
  case modTest =>
    rw [if_neg (hfree _)] at h
    cases h
    exact ⟨fun _ => hquiet, hstage.congr rfl rfl rfl rfl⟩
  case modLock | putLock =>
    cases h
    exact ⟨fun _ => hquiet, hstage.congr rfl rfl rfl rfl⟩
  case modRead =>
    cases h
    exact ready_modRead hstage hquiet garbage _
  case modUnlock same =>
    obtain ⟨hholds, hloaded, hnew⟩ := hstage
    split at h <;> cases h
    · exact ⟨fun _ => hquiet, HoldsSlot.sound (hholds.congr rfl rfl rfl rfl) hquiet⟩
    · exact ⟨fun _ => hquiet, .of_eq hholds.inFile hloaded hnew⟩
  case getRead =>
    split at h <;> cases h
    exact ready_getRead hstage
  case putTest =>
    obtain ⟨hsound, hbefore⟩ := hstage
    split at h <;> cases h
    · rename_i hstop
      have hnum := hstop.resolve_right (hfree _)
      exact ⟨fun hne => absurd rfl hne, fun hne => absurd hnum hne, fun _ => hbefore.symm⟩
    · rename_i hgo
      exact ⟨fun _ => hquiet,
        (hsound.holds fun hnum => hgo (.inl hnum)).congr rfl rfl rfl rfl⟩
  case lseek caller =>
    cases caller with
    | add =>
        simp only at hstage
        rw [if_neg (by omega)] at h
        cases h
        exact ⟨fun _ => hquiet, hstage⟩
    | put =>
        simp only at hstage
        have hpos := hstage.inFile
        rw [if_neg (by omega)] at h
        cases h
        exact ⟨fun _ => hquiet, hstage.congr rfl rfl rfl rfl⟩
  case write caller =>
    cases h
    have hwritten : 0 ≤ t.recordNum ∧ t.loaded = some t.recordNum := by
      cases caller with
      | add => exact hstage
      | put => exact ⟨HoldsSlot.inFile hstage, HoldsSlot.loaded hstage⟩
    exact ⟨fun _ => hquiet, .of_eq hwritten.1 hwritten.2 (slot_putRecord_self _ _ _).symm⟩
  case unlock =>
    cases h
    exact ⟨fun _ => hquiet, HoldsSlot.sound (hstage.congr rfl rfl rfl rfl) hquiet⟩

/-! ## Runs -/

/-- The only session is ready, and nobody else has a lock. -/
structure Alone (s : State) : Prop where
  one : s.sessions.length ≤ 1
  own : ∀ m j : ℕ, s.shared.locks m = some j → j = 0
  ready : ∀ (k : ℕ) (t : Session), s.sessions[k]? = some t → Ready s.shared.file t

theorem Alone.eq_zero {s : State} (h : Alone s) {k : ℕ} {t : Session}
    (hk : s.sessions[k]? = some t) : k = 0 := by
  have hlt := (List.getElem?_eq_some_iff.mp hk).1
  have hone := h.one
  omega

theorem Alone.invariant {s : State} (h : Alone s) : SessionInvariant s := by
  intro k t hk
  have hstage := (h.ready k t hk).stage
  unfold Stage at hstage
  refine ⟨fun hpc => ?_, fun hpc => ?_⟩
  · rwa [hpc] at hstage
  · rw [hpc] at hstage
    exact hstage.loaded

/-- A step of the session keeps it alone if it leaves it ready. -/
theorem Alone.set {s s' : State} (h : Alone s) {k : ℕ} {t t' : Session}
    (hk : s.sessions[k]? = some t) (hown : OnlyOwn k s.shared.locks s'.shared.locks)
    (hready : Ready s'.shared.file t') (hsessions : s'.sessions = s.sessions.set k t') :
    Alone s' := by
  obtain rfl := h.eq_zero hk
  refine ⟨?_, fun m j hj => (hown.new hj).elim (h.own m j) id, ?_⟩
  · rw [hsessions, List.length_set]
    exact h.one
  · rw [hsessions]
    exact forall_getElem?_set hready fun j u hne hj => absurd (h.eq_zero hj) hne

theorem Effect.alone {s s' : State} {a : Action} (he : Effect s a s') (hfits : AloneFits s a)
    (h : Alone s) : Alone s' := by
  cases he with
  | start record recordSav recordNew action shared sessions =>
      refine ⟨?_, shared ▸ h.own, ?_⟩
      · rw [sessions, hfits.one record recordSav recordNew action]
        exact Nat.le_refl 1
      · rw [sessions, shared]
        refine forall_getElem?_append_singleton h.ready ?_
        exact ⟨fun hne => absurd rfl hne, fun hne => absurd rfl hne, nofun⟩
  | line k line t t' action at? prompt dispatched sessions =>
      obtain ⟨hget, hadd⟩ := hfits.fits k line t action at?
      have hsound : Sound s.shared.file t := (h.invariant k t at?).1 prompt
      exact h.set at? (dispatch_dispatched prompt dispatched).locks
        (dispatch_ready dispatched prompt hsound hget hadd) sessions
  | run k edit garbage t t' action at? stepped sessions =>
      obtain rfl := h.eq_zero at?
      exact h.set at? (sessionStep_onlyOwn stepped)
        (sessionStep_ready stepped h.own (h.ready 0 t at?)) sessions

theorem alone_of_reaches {file : List UInt8} {s : State}
    (h : Reaches step AloneFits (init file) s) : Alone s :=
  h.invariant (I := Alone) ⟨by simp [init], by simp [init], by simp [init]⟩
    fun _ _ _ hu hfits hstep => (step_effect hstep).alone hfits hu

/-! ## When GET and ADD leave the session sound -/

theorem exec_run {s : State} {k : ℕ} {edit : Edit} {garbage : Record} {t t' : Session}
    {sh : Shared} (hk : s.sessions[k]? = some t)
    (h : sessionStep k edit garbage s.shared t = some (sh, t')) (as : List Action) :
    exec step s (.run k edit garbage :: as) = exec step ⟨sh, s.sessions.set k t'⟩ as := by
  simp [exec, step, hk, h]

theorem getElem?_set_of_some {l : List Session} {k : ℕ} {t : Session} (hk : l[k]? = some t)
    (t' : Session) : (l.set k t')[k]? = some t' :=
  List.getElem?_set_self (List.getElem?_eq_some_iff.mp hk).1

@[simp] theorem Session.getRecord_recordNum (t : Session) (file : List UInt8) (n : ℤ) :
    (t.getRecord file n).2.recordNum = t.recordNum := by
  unfold Session.getRecord
  dsimp only
  split <;> rfl

/-- The session after the line GET `n`. -/
def Session.enterGet (t : Session) (n : ℤ) : Session :=
  { t with before := (t.recordNum, t.record), failed := false, recordNum := n, pc := .getRead }

/-- The session after the read of GET. -/
def Session.leaveGet (t : Session) (file : List UInt8) : Session :=
  { (t.getRecord file t.recordNum).2 with
    pc := .prompt, failed := (t.getRecord file t.recordNum).1 ≠ 0 }

theorem leaveGet_sound_iff {file : List UInt8} {t : Session} {n : ℤ} :
    Sound file ((t.enterGet n).leaveGet file) ↔ GetFits file t n := by
  constructor
  · intro hsound
    by_cases hn : n = -1
    · subst hn
      have hread : (t.enterGet (-1)).getRecord file (-1) = (-1, t.enterGet (-1)) := by
        simp [Session.getRecord, getRecord]
      have hkept := hsound.kept
      rw [Session.leaveGet, show (t.enterGet (-1)).recordNum = -1 from rfl, hread] at hkept
      exact .inr ⟨rfl, (congrArg Prod.fst (hkept rfl)).symm⟩
    · have hnum : ((t.enterGet n).leaveGet file).recordNum = n :=
        Session.getRecord_recordNum _ _ _
      have hwhole := (hsound.holds (hnum.trans_ne hn)).whole
      rw [hnum] at hwhole
      exact .inl hwhole
  · intro hfits
    refine (ready_getRead (t := t.enterGet n) ?_).stage
    refine hfits.imp_right fun ⟨hn, hnum⟩ => ⟨hn, ?_⟩
    simp only [Session.enterGet, hnum]

/-- GET leaves the session sound exactly if it fits. -/
theorem get_sound_iff {s : State} {k : ℕ} {t : Session} {line : Line} {n : ℤ}
    (hk : s.sessions[k]? = some t) (hpc : t.pc = .prompt)
    (hget : Command.parse line.text = .get n) (hfits : offsetFits n = true) (edit : Edit)
    (garbage : Record) :
    ∃ s' t', exec step s [.line k line, .run k edit garbage] = some s' ∧
      s'.sessions[k]? = some t' ∧ t'.pc = .prompt ∧
      (Sound s'.shared.file t' ↔ GetFits s.shared.file t n) := by
  have hline : step s (.line k line) =
      some ⟨s.shared, s.sessions.set k (t.enterGet n)⟩ := by
    simp [step, hk, hpc, dispatch, hget, Session.enterGet]
  have hread : sessionStep k edit garbage s.shared (t.enterGet n) = some
      ({ s.shared with log := readEvent s.shared.file k n ++ s.shared.log },
        (t.enterGet n).leaveGet s.shared.file) := by
    simp [sessionStep, Session.enterGet, Session.leaveGet, hfits]
  have hat := getElem?_set_of_some hk (t.enterGet n)
  have hrun := exec_run (s := ⟨s.shared, s.sessions.set k (t.enterGet n)⟩) hat hread []
  refine ⟨⟨{ s.shared with log := readEvent s.shared.file k n ++ s.shared.log }, _⟩, _, ?_,
    getElem?_set_of_some hat ((t.enterGet n).leaveGet s.shared.file), rfl, leaveGet_sound_iff⟩
  rw [exec, hline, Option.bind_some, hrun, exec]

/-- While every slot is there, the scan of ADD goes on to its end. -/
theorem exec_scan {s : State} {k i count : ℕ} {t : Session} (hcount : i + count = numRecords)
    (hk : s.sessions[k]? = some t) (hpc : t.pc = .addScan i)
    (hfull : ∀ j < numRecords, slot s.shared.file j ≠ []) (edit : Edit) (garbage : Record) :
    ∃ s' t', exec step s (List.replicate count (.run k edit garbage)) = some s' ∧
      s'.shared = s.shared ∧ s'.sessions[k]? = some t' ∧ t'.pc = .addScan numRecords ∧
      t'.recordNum = t.recordNum ∧ t'.before = t.before ∧
      t'.record = scanned s.shared.file i count t.record := by
  induction count generalizing i s t with
  | zero =>
      rw [Nat.add_zero] at hcount
      exact ⟨s, t, rfl, rfl, hk, hcount ▸ hpc, rfl, rfl, rfl⟩
  | succ count ih =>
      have hi : i < numRecords := by omega
      have hread : ∃ u, sessionStep k edit garbage s.shared t = some (s.shared, u) ∧
          u.pc = .addScan (i + 1) ∧ u.recordNum = t.recordNum ∧ u.before = t.before ∧
          u.record = t.record.overwrite (slot s.shared.file i) := by
        simp [sessionStep, hpc, hi, Session.getRecord, getRecord_of_ne_empty _ (hfull i hi)]
      obtain ⟨u, hread, hpcu, hnumu, hbeforeu, hrecordu⟩ := hread
      obtain ⟨s', t', hexec, hshared, hat, hpc', hnum, hbefore, hrecord⟩ :=
        ih (s := ⟨s.shared, s.sessions.set k u⟩) (by omega) (getElem?_set_of_some hk u) hpcu
          hfull
      rw [hnumu] at hnum
      rw [hbeforeu] at hbefore
      rw [hrecordu] at hrecord
      refine ⟨s', t', ?_, hshared, hat, hpc', hnum, hbefore, ?_⟩
      · rw [List.replicate_succ, exec_run hk hread, hexec]
      · rw [hrecord, scanned, getRecord_of_ne_empty _ (hfull i hi)]

/-- ADD without a free slot leaves the session sound exactly if it fits. -/
theorem add_sound_iff {s : State} {k : ℕ} {t : Session} {line : Line}
    (hk : s.sessions[k]? = some t) (hpc : t.pc = .prompt)
    (hadd : Command.parse line.text = .add)
    (hfull : ∀ j < numRecords, slot s.shared.file j ≠ []) (edit : Edit) (garbage : Record) :
    ∃ s' t', exec step s
        (.line k line :: List.replicate (numRecords + 2) (.run k edit garbage)) = some s' ∧
      s'.sessions[k]? = some t' ∧ t'.pc = .prompt ∧
      (Sound s'.shared.file t' ↔ AddFits s.shared.file t) := by
  have hline : ∃ u, step s (.line k line) = some ⟨s.shared, s.sessions.set k u⟩ ∧
      u.pc = .addScan 0 ∧ u.recordNum = -1 ∧ u.before = (t.recordNum, t.record) ∧
      u.record = t.record := by
    refine ⟨{ t with
      before := (t.recordNum, t.record), failed := false, recordNum := -1, pc := .addScan 0 },
      ?_, rfl, rfl, rfl, rfl⟩
    simp [step, hk, hpc, dispatch, hadd]
  obtain ⟨u, hline, hpcu, hnumu, hbeforeu, hrecordu⟩ := hline
  obtain ⟨s₁, t₁, hexec, hshared, hat, hpc₁, hnum, hbefore, hrecord⟩ :=
    exec_scan (s := ⟨s.shared, s.sessions.set k u⟩) (Nat.zero_add numRecords)
      (getElem?_set_of_some hk u) hpcu hfull edit garbage
  rw [hnumu] at hnum
  rw [hbeforeu] at hbefore
  rw [hrecordu] at hrecord
  have hend : sessionStep k edit garbage s₁.shared t₁ =
      some (s₁.shared, { t₁ with pc := .addTest }) := by
    simp [sessionStep, hpc₁]
  have htest : sessionStep k edit garbage s₁.shared { t₁ with pc := .addTest } =
      some (s₁.shared, { t₁ with pc := .prompt, failed := true }) := by
    simp [sessionStep, hnum]
  have hat₂ := getElem?_set_of_some hat { t₁ with pc := .addTest }
  have hrun := exec_run (s := ⟨s₁.shared, s₁.sessions.set k _⟩) hat₂ htest []
  refine ⟨⟨s₁.shared, _⟩, _, ?_,
    getElem?_set_of_some hat₂ { t₁ with pc := .prompt, failed := true }, rfl, ?_⟩
  · rw [exec, hline, Option.bind_some, List.replicate_add, exec_append hexec]
    exact (exec_run hat hend _).trans hrun
  · constructor
    · intro hsound
      have hkept := hsound.kept rfl
      simp only [hnum, hrecord, hbefore, Prod.mk.injEq] at hkept
      exact .inr ⟨hkept.1.symm, hkept.2⟩
    · rintro (⟨j, hj, hfree⟩ | ⟨hnone, hscan⟩)
      · exact absurd hfree (hfull j hj)
      · refine ⟨fun hne => absurd hnum hne, fun _ => ?_⟩
        simp only [hnum, hrecord, hbefore, hnone, hscan]

/-- GET and ADD leave the session sound exactly if they fit, and if they do so throughout, the
session invariant holds throughout. -/
theorem session_invariant_iff (file : List UInt8) (s : State) :
    (∀ (k : ℕ) (t : Session) (line : Line) (n : ℤ) (edit : Edit) (garbage : Record),
      s.sessions[k]? = some t → t.pc = .prompt → Command.parse line.text = .get n →
      offsetFits n = true →
      ∃ s' t', exec step s [.line k line, .run k edit garbage] = some s' ∧
        s'.sessions[k]? = some t' ∧ t'.pc = .prompt ∧
        (Sound s'.shared.file t' ↔ GetFits s.shared.file t n)) ∧
    (∀ (k : ℕ) (t : Session) (line : Line) (edit : Edit) (garbage : Record),
      s.sessions[k]? = some t → t.pc = .prompt → Command.parse line.text = .add →
      (∀ j < numRecords, slot s.shared.file j ≠ []) →
      ∃ s' t', exec step s
          (.line k line :: List.replicate (numRecords + 2) (.run k edit garbage)) = some s' ∧
        s'.sessions[k]? = some t' ∧ t'.pc = .prompt ∧
        (Sound s'.shared.file t' ↔ AddFits s.shared.file t)) ∧
    (Reaches step AloneFits (init file) s → SessionInvariant s) :=
  ⟨fun _ _ _ _ edit garbage hk hpc hget hfits => get_sound_iff hk hpc hget hfits edit garbage,
    fun _ _ _ edit garbage hk hpc hadd hfull => add_sound_iff hk hpc hadd hfull edit garbage,
    fun h => (alone_of_reaches h).invariant⟩

/-- The user enters ADD. -/
def add : Line := ⟨ascii ['A', 'D', 'D'], by decide, by decide, by decide⟩

/-- A file with every slot. -/
def fullFile : List UInt8 := List.replicate (recordSize * numRecords) 0

/-- The run part goes from GET 0 to the write of PUT. -/
theorem session_invariant_iff_full :
    (∃ s t, Reaches step AloneFits (init fileA) s ∧ s.sessions[0]? = some t ∧
      t.pc = .write .put ∧ t.loaded = some t.recordNum) ∧
    ∃ s t, step (init fullFile) startSession = some s ∧ s.sessions[0]? = some t ∧
      (∃ s' t', exec step s [.line 0 get0, go 0] = some s' ∧ s'.sessions[0]? = some t' ∧
        t'.pc = .prompt ∧ (Sound s'.shared.file t' ↔ GetFits fullFile t 0)) ∧
      ∃ s' t', exec step s (.line 0 add :: List.replicate (numRecords + 2) (go 0)) = some s' ∧
        s'.sessions[0]? = some t' ∧ t'.pc = .prompt ∧
        (Sound s'.shared.file t' ↔ AddFits fullFile t) := by
  have hfull : ∀ j < numRecords, slot fullFile j ≠ [] := by
    intro j hj
    simp only [slot, ByteFile.pread, fullFile, List.drop_replicate, List.take_replicate]
    refine List.ne_nil_of_length_pos ?_
    rw [List.length_replicate]
    simp only [recordSize, numRecords, recordBytes] at hj ⊢
    omega
  have hrun : (exec (fun s a => if AloneFits s a then step s a else none) (init fileA)
      [startSession, .line 0 get0, go 0, .line 0 put, go 0, go 0, go 0]).map
        (fun s => s.sessions.map Session.pc) = some [.write .put] := by decide +kernel
  obtain ⟨s₁, hexec, hpcs⟩ := Option.map_eq_some_iff.mp hrun
  obtain ⟨t₁, ht₁, hpc⟩ := List.map_eq_singleton_iff.mp hpcs
  have hat : s₁.sessions[0]? = some t₁ := by rw [ht₁]; rfl
  have hreach := reaches_of_guarded hexec
  have hput := ((session_invariant_iff fileA s₁).2.2 hreach 0 t₁ hat).2 hpc
  refine ⟨⟨s₁, t₁, hreach, hat, hpc, hput⟩, ?_⟩
  let s : State := ⟨(init fullFile).shared, [.start Record.zero Record.zero Record.zero]⟩
  have hstart : step (init fullFile) startSession = some s := rfl
  obtain ⟨hget, hadd, -⟩ := session_invariant_iff fullFile s
  exact ⟨s, _, hstart, rfl,
    hget 0 _ get0 0 noEdit Record.zero rfl rfl (by decide) (by decide),
    hadd 0 _ add noEdit Record.zero rfl rfl (by decide) hfull⟩

/-! ## A record that PUT copies to another slot -/

/-- The user enters GET 5. -/
def get5 : Line := ⟨ascii ['G', 'E', 'T', ' ', '5'], by decide, by decide, by decide⟩

set_option maxRecDepth 4000 in
theorem session_invariant_fails :
    ¬ ∀ (file : List UInt8) (s : State), Reaches step OneSession (init file) s →
      SessionInvariant s := by
  intro hall
  have hrun : ∃ u s, step (init fileA) startSession = some u ∧
      exec step u [.line 0 get0, go 0, .line 0 get5, go 0, .line 0 put, go 0, go 0, go 0] =
        some s ∧
      (s.sessions[0]?.map fun t => (t.pc, t.recordNum, t.loaded)) =
        some (.write .put, 5, some 0) :=
    ⟨_, _, rfl, rfl, rfl⟩
  obtain ⟨u, s, hstart, hexec, hat⟩ := hrun
  obtain ⟨t, ht, heq⟩ := Option.map_eq_some_iff.mp hat
  simp only [Prod.mk.injEq] at heq
  obtain ⟨hpc, hnum, hloaded⟩ := heq
  have hreach : Reaches step OneSession (init fileA) s := by
    refine .head ⟨startSession, fun _ _ _ _ => rfl, hstart⟩ (reaches_of_exec ?_ hexec)
    intro a ha v record recordSav recordNew hstart
    subst hstart
    simp [go] at ha
  have hsame := (hall fileA s hreach 0 t ht).2 hpc
  rw [hloaded, hnum] at hsame
  exact absurd hsame (by decide)

end OsaspLabs.Records
