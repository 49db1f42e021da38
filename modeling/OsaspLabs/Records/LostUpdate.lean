import OsaspLabs.Records.Exclusion

/-! # What a PUT of LAB_7 p2 overwrites

MOD compares the slot with what the session has read, but the PUT that writes it does so in
another command and compares nothing. -/

namespace OsaspLabs.Records

open Runs CString

/-! ## The log -/

/-- The file after the writes of the log. -/
def replay (file : List UInt8) : List Event → List UInt8
  | [] => file
  | .read .. :: l => replay file l
  | .write _ n _ r :: l => putRecord (replay file l) n r

/-- What the session `k` last read from slot `n`, by GET or by the re-read of MOD. -/
def lastRead (k n : ℕ) : List Event → Option (List UInt8)
  | [] => none
  | .read j m c :: l => if j = k ∧ m = n then some c else lastRead k n l
  | .write .. :: l => lastRead k n l

/-- The events after that read. -/
def sinceRead (k n : ℕ) : List Event → List Event
  | [] => []
  | .read j m c :: l => if j = k ∧ m = n then [] else .read j m c :: sinceRead k n l
  | .write j m caller r :: l => .write j m caller r :: sinceRead k n l

/-- The record that was last written to slot `n`. -/
def lastWrite (n : ℕ) : List Event → Option Record
  | [] => none
  | .read .. :: l => lastWrite n l
  | .write _ m _ r :: l => if m = n then some r else lastWrite n l

/-- Each PUT overwrites what its session last read from the slot. -/
def NoLostUpdate (file : List UInt8) : List Event → Prop
  | [] => True
  | .write k n .put _ :: l =>
      lastRead k n l = some (slot (replay file l) n) ∧ NoLostUpdate file l
  | .write _ _ .add _ :: l => NoLostUpdate file l
  | .read .. :: l => NoLostUpdate file l

/-- Since the session `k` last read slot `n`, nobody, itself included, has written other bytes
to it; and if it was not wholly in the file then, nobody has written it or a slot behind it. -/
def LeftAlone (k n : ℕ) (log : List Event) : Prop :=
  ∃ c, lastRead k n log = some c ∧
    if c.length = recordBytes then
      ∀ r, lastWrite n (sinceRead k n log) = some r → r.toBytes = c
    else ∀ j m caller r, Event.write j m caller r ∈ sinceRead k n log → m < n

/-- Each PUT of the log found its slot left alone. -/
def PutsLeftAlone : List Event → Prop
  | [] => True
  | .write k n .put _ :: l => LeftAlone k n l ∧ PutsLeftAlone l
  | .write _ _ .add _ :: l => PutsLeftAlone l
  | .read .. :: l => PutsLeftAlone l

/-- The reads of the log delivered what the slots held. -/
def ReadsRight (file : List UInt8) : List Event → Prop
  | [] => True
  | .read _ n c :: l => c = slot (replay file l) n ∧ ReadsRight file l
  | .write .. :: l => ReadsRight file l

theorem slot_putRecord_whole {file : List UInt8} {m n : ℕ} {r : Record}
    (h : (slot file n).length = recordBytes) :
    (slot (putRecord file m r) n).length = recordBytes := by
  by_cases hmn : m = n
  · rw [hmn, slot_putRecord_self, Record.length_toBytes]
  · rw [slot_putRecord_of_ne file hmn r h, h]

/-- A slot that was read whole stays whole. -/
theorem ReadsRight.whole {file : List UInt8} {log : List Event} (h : ReadsRight file log)
    {k n : ℕ} {c : List UInt8} (hread : lastRead k n log = some c)
    (hwhole : c.length = recordBytes) : (slot (replay file log) n).length = recordBytes := by
  induction log with
  | nil => cases hread
  | cons e l ih =>
      cases e with
      | read j m d =>
          obtain ⟨hd, hl⟩ := h
          rw [lastRead] at hread
          split at hread
          · rename_i hjm
            obtain rfl := Option.some.inj hread
            rw [replay, ← hjm.2, ← hd, hwhole]
          · exact ih hl hread
      | write j m caller r => exact slot_putRecord_whole (ih h hread)

theorem leftAlone_read_self {k n : ℕ} {c : List UInt8} {l : List Event} :
    LeftAlone k n (.read k n c :: l) := by
  refine ⟨c, by simp [lastRead], ?_⟩
  split
  · simp [sinceRead, lastWrite]
  · simp [sinceRead]

theorem leftAlone_read_of_ne {k n j m : ℕ} {c : List UInt8} {l : List Event}
    (h : ¬ (j = k ∧ m = n)) : LeftAlone k n (.read j m c :: l) ↔ LeftAlone k n l := by
  simp [LeftAlone, lastRead, sinceRead, lastWrite, h]

theorem leftAlone_write_self {k n j : ℕ} {caller : Caller} {r : Record} {l : List Event} :
    LeftAlone k n (.write j n caller r :: l) ↔ lastRead k n l = some r.toBytes := by
  constructor
  · rintro ⟨c, hc, hafter⟩
    rw [lastRead] at hc
    rw [hc]
    split at hafter
    · rw [hafter r (by simp [sinceRead, lastWrite])]
    · exact absurd (hafter j n caller r (by simp [sinceRead])) (by omega)
  · intro hread
    refine ⟨r.toBytes, hread, ?_⟩
    rw [if_pos (Record.length_toBytes r)]
    intro r' hr'
    simp only [sinceRead, lastWrite, if_true, Option.some.injEq] at hr'
    rw [hr']

theorem leftAlone_write_of_lt {k n j m : ℕ} {caller : Caller} {r : Record} {l : List Event}
    (h : m < n) : LeftAlone k n (.write j m caller r :: l) ↔ LeftAlone k n l := by
  have hne : m ≠ n := by omega
  refine exists_congr fun c => and_congr_right fun _ => ?_
  split
  · simp [sinceRead, lastWrite, hne]
  · simp only [sinceRead, List.mem_cons]
    constructor
    · exact fun hall i p q s hmem => hall i p q s (.inr hmem)
    · rintro hall i p q s (heq | hmem)
      · cases heq
        exact h
      · exact hall i p q s hmem

/-- A write behind the slot only matters if it fills the slot up. -/
theorem leftAlone_write_of_gt {k n j m : ℕ} {caller : Caller} {r : Record} {l : List Event}
    (h : n < m) : LeftAlone k n (.write j m caller r :: l) ↔
      LeftAlone k n l ∧ ∃ c, lastRead k n l = some c ∧ c.length = recordBytes := by
  have hne : m ≠ n := by omega
  constructor
  · rintro ⟨c, hc, hafter⟩
    rw [lastRead] at hc
    split at hafter
    · rename_i hwhole
      refine ⟨⟨c, hc, ?_⟩, c, hc, hwhole⟩
      rw [if_pos hwhole]
      simpa [sinceRead, lastWrite, hne] using hafter
    · exact absurd (hafter j m caller r (by simp [sinceRead])) (by omega)
  · rintro ⟨⟨c, hc, hafter⟩, d, hd, hwhole⟩
    obtain rfl := Option.some.inj (hc.symm.trans hd)
    refine ⟨c, hc, ?_⟩
    rw [if_pos hwhole] at hafter ⊢
    simpa [sinceRead, lastWrite, hne] using hafter

/-- The slot holds what the session last read exactly if it was left alone since. -/
theorem ReadsRight.lastRead_iff {file : List UInt8} {log : List Event}
    (h : ReadsRight file log) (k n : ℕ) :
    lastRead k n log = some (slot (replay file log) n) ↔ LeftAlone k n log := by
  induction log with
  | nil => simp [lastRead, LeftAlone]
  | cons e l ih =>
      cases e with
      | read j m c =>
          obtain ⟨hc, hl⟩ := h
          by_cases hjm : j = k ∧ m = n
          · obtain ⟨rfl, rfl⟩ := hjm
            exact iff_of_true (by simp [lastRead, replay, hc]) leftAlone_read_self
          · rw [leftAlone_read_of_ne hjm, ← ih hl]
            simp [lastRead, replay, hjm]
      | write j m caller r =>
          have hl : ReadsRight file l := h
          rw [lastRead, replay]
          rcases Nat.lt_trichotomy m n with hlt | heq | hgt
          · rw [slot_putRecord_of_lt _ hlt, leftAlone_write_of_lt hlt]
            exact ih hl
          · rw [heq, slot_putRecord_self, leftAlone_write_self]
          · rw [leftAlone_write_of_gt hgt, ← ih hl, slot_putRecord_of_gt _ hgt]
            constructor
            · intro hread
              have hlen : ((slot (replay file l) n).takeD recordBytes 0).length = recordBytes :=
                List.takeD_length _ _ _
              have hwhole := hl.whole hread hlen
              rw [ByteFile.takeD_of_length_eq hwhole] at hread
              exact ⟨hread, _, hread, hwhole⟩
            · rintro ⟨hread, c, hc, hwhole⟩
              obtain rfl := Option.some.inj (hread.symm.trans hc)
              rw [ByteFile.takeD_of_length_eq hwhole, hread]

theorem ReadsRight.noLostUpdate_iff {file : List UInt8} {log : List Event}
    (h : ReadsRight file log) : NoLostUpdate file log ↔ PutsLeftAlone log := by
  induction log with
  | nil => exact Iff.rfl
  | cons e l ih =>
      cases e with
      | read j m c => exact ih h.2
      | write j m caller r =>
          have hl : ReadsRight file l := h
          cases caller with
          | add => exact ih hl
          | put => exact and_congr (hl.lastRead_iff j m) (ih hl)

/-! ## Runs -/

/-- What a step of a session does to the file and to the log. -/
inductive Logged (k : ℕ) (sh : Shared) (t : Session) (sh' : Shared) : Prop where
  | same (file : sh'.file = sh.file) (log : sh'.log = sh.log)
  | read (file : sh'.file = sh.file) (log : sh'.log = readEvent sh.file k t.recordNum ++ sh.log)
  | write (caller : Caller) (pc : t.pc = .write caller)
      (file : sh'.file = putRecord sh.file t.recordNum.toNat t.record)
      (log : sh'.log = .write k t.recordNum.toNat caller t.record :: sh.log)

theorem sessionStep_logged {k : ℕ} {edit : Edit} {garbage : Record} {sh sh' : Shared}
    {t t' : Session} (h : sessionStep k edit garbage sh t = some (sh', t')) :
    Logged k sh t sh' := by
  unfold sessionStep at h
  cases hpc : t.pc <;> simp only [hpc] at h
  case prompt | closed => cases h
  case modRead =>
    cases h
    exact .read rfl rfl
  case getRead =>
    split at h <;> cases h
    exact .read rfl rfl
  case write caller =>
    cases h
    exact .write caller hpc rfl rfl
  case addScan i =>
    split at h
    · split at h <;> cases h <;> exact .same rfl rfl
    · cases h
      exact .same rfl rfl
  case list | addTest | modTest | putTest | lseek | modUnlock =>
    split at h <;> cases h <;> exact .same rfl rfl
  all_goals
    cases h
    exact .same rfl rfl

/-- No PUT of a run writes a slot that was not left alone. -/
def PutsLeftAloneSlots (s : State) (a : Action) : Prop :=
  ∀ (k : ℕ) (edit : Edit) (garbage : Record) (t : Session), a = .run k edit garbage →
    s.sessions[k]? = some t → t.pc = .write .put →
    LeftAlone k t.recordNum.toNat s.shared.log

/-- The log tells the whole history of the file. -/
structure Recorded (file : List UInt8) (s : State) : Prop where
  replayed : s.shared.file = replay file s.shared.log
  reads : ReadsRight file s.shared.log

theorem Effect.recorded {file : List UInt8} {s s' : State} {a : Action} (he : Effect s a s')
    (h : Recorded file s) : Recorded file s' := by
  cases he with
  | start record recordSav recordNew action shared sessions => exact ⟨shared ▸ h.1, shared ▸ h.2⟩
  | line k line t t' action at? prompt dispatched sessions =>
      have hspec := dispatch_dispatched prompt dispatched
      refine ⟨?_, hspec.log ▸ h.reads⟩
      rw [hspec.file, hspec.log, h.replayed]
  | run k edit garbage t t' action at? stepped sessions =>
      cases sessionStep_logged stepped with
      | same hfile hlog =>
          refine ⟨?_, hlog ▸ h.reads⟩
          rw [hfile, hlog, h.replayed]
      | read hfile hlog =>
          by_cases hneg : t.recordNum < 0
          · simp only [readEvent, if_pos hneg, List.nil_append] at hlog
            refine ⟨?_, hlog ▸ h.reads⟩
            rw [hfile, hlog, h.replayed]
          · simp only [readEvent, if_neg hneg, List.cons_append, List.nil_append] at hlog
            refine ⟨?_, ?_⟩
            · rw [hfile, hlog, replay, h.replayed]
            · rw [hlog]
              exact ⟨by rw [h.replayed], h.reads⟩
      | write caller hpc hfile hlog =>
          refine ⟨?_, ?_⟩
          · rw [hfile, hlog, replay, h.replayed]
          · rw [hlog]
            exact h.reads

theorem recorded_of_reaches {allowed : State → Action → Prop} {file : List UInt8} {s : State}
    (h : Reaches step allowed (init file) s) : Recorded file s :=
  h.invariant (I := Recorded file) ⟨rfl, trivial⟩
    fun _ _ _ hu _ hstep => (step_effect hstep).recorded hu

theorem Effect.putsLeftAlone {s s' : State} {a : Action} (he : Effect s a s')
    (halone : PutsLeftAloneSlots s a) (h : PutsLeftAlone s.shared.log) :
    PutsLeftAlone s'.shared.log := by
  cases he with
  | start record recordSav recordNew action shared sessions => exact shared ▸ h
  | line k line t t' action at? prompt dispatched sessions =>
      exact (dispatch_dispatched prompt dispatched).log ▸ h
  | run k edit garbage t t' action at? stepped sessions =>
      cases sessionStep_logged stepped with
      | same hfile hlog => exact hlog ▸ h
      | read hfile hlog =>
          rw [hlog]
          by_cases hneg : t.recordNum < 0
          · simpa [readEvent, hneg] using h
          · simp only [readEvent, if_neg hneg, List.cons_append, List.nil_append]
            exact h
      | write caller hpc hfile hlog =>
          rw [hlog]
          cases caller with
          | add => exact h
          | put => exact ⟨halone k edit garbage t action at? hpc, h⟩

/-- A PUT overwrites what its session last read exactly if the slot was left alone since; a
run in which this is so at each PUT loses no update. -/
theorem no_lost_update_iff (file : List UInt8) (s : State) :
    (Reaches step anything (init file) s →
      (NoLostUpdate file s.shared.log ↔ PutsLeftAlone s.shared.log) ∧
      ∀ (k : ℕ) (t : Session), s.sessions[k]? = some t → t.pc = .write .put →
        (lastRead k t.recordNum.toNat s.shared.log =
            some (slot s.shared.file t.recordNum.toNat) ↔
          LeftAlone k t.recordNum.toNat s.shared.log)) ∧
    (Reaches step PutsLeftAloneSlots (init file) s → NoLostUpdate file s.shared.log) := by
  constructor
  · intro h
    have hrec := recorded_of_reaches h
    refine ⟨hrec.reads.noLostUpdate_iff, fun k t _ _ => ?_⟩
    rw [hrec.replayed]
    exact hrec.reads.lastRead_iff k _
  · intro h
    refine (recorded_of_reaches h).reads.noLostUpdate_iff.mpr ?_
    have hnone : PutsLeftAlone (init file).shared.log := trivial
    exact h.invariant (I := fun u => PutsLeftAlone u.shared.log) hnone
      fun _ _ _ hu halone hstep => (step_effect hstep).putsLeftAlone halone hu

theorem putsLeftAloneSlots_go {s : State} {k : ℕ} {pc : Pc}
    (h : s.sessions[k]?.map Session.pc = some pc) (hpc : pc ≠ .write .put) :
    PutsLeftAloneSlots s (go k) := by
  intro j edit garbage t ha ht hwrite
  exact absurd ((pc_of_go h ha ht).symm.trans hwrite) hpc

theorem putsLeftAloneSlots_line (s : State) (k : ℕ) (line : Line) :
    PutsLeftAloneSlots s (.line k line) := by
  intro j edit garbage t ha
  cases ha

theorem no_lost_update_iff_put :
    ∃ s s', step s (go 0) = some s' ∧ s'.shared.log.length = 2 ∧
      (lastRead 0 0 s.shared.log = some (slot s.shared.file 0) ↔ LeftAlone 0 0 s.shared.log) ∧
      NoLostUpdate [] s'.shared.log := by
  have hrun : ∃ u₁ u₂ u₃ u₄ u₅ u₆ s s', step (init []) startSession = some u₁ ∧
      step u₁ (.line 0 get0) = some u₂ ∧ step u₂ (go 0) = some u₃ ∧
      step u₃ (.line 0 put) = some u₄ ∧ step u₄ (go 0) = some u₅ ∧ step u₅ (go 0) = some u₆ ∧
      step u₆ (go 0) = some s ∧ step s (go 0) = some s' ∧
      u₂.sessions[0]?.map Session.pc = some .getRead ∧
      u₄.sessions[0]?.map Session.pc = some .putTest ∧
      u₅.sessions[0]?.map Session.pc = some .putLock ∧
      u₆.sessions[0]?.map Session.pc = some (.lseek .put) ∧
      (s.sessions[0]?.map fun t => (t.pc, t.recordNum)) = some (.write .put, 0) ∧
      s.shared.log = [.read 0 0 []] ∧ s'.shared.log.length = 2 :=
    ⟨_, _, _, _, _, _, _, _, rfl, rfl, rfl, rfl, rfl, rfl, rfl, rfl, rfl, rfl, rfl, rfl, rfl, rfl,
      rfl⟩
  obtain ⟨u₁, u₂, u₃, u₄, u₅, u₆, s, s', h₁, h₂, h₃, h₄, h₅, h₆, hs, hs', hget, htest, hlock,
    hseek, hat, hlog, hlen⟩ := hrun
  obtain ⟨t, ht, hpair⟩ := Option.map_eq_some_iff.mp hat
  obtain ⟨hpc, hnum⟩ := Prod.mk.inj hpair
  have hstart : PutsLeftAloneSlots (init []) startSession := by
    intro j edit garbage t ha
    cases ha
  have hwrite : PutsLeftAloneSlots s (go 0) := by
    intro j edit garbage u ha hu _
    cases ha
    obtain rfl := Option.some.inj (ht.symm.trans hu)
    rw [hnum, hlog]
    exact leftAlone_read_self
  have hreach : Reaches step PutsLeftAloneSlots (init []) s :=
    .head ⟨_, hstart, h₁⟩ <| .head ⟨_, putsLeftAloneSlots_line u₁ 0 get0, h₂⟩ <|
    .head ⟨_, putsLeftAloneSlots_go hget (by decide), h₃⟩ <|
    .head ⟨_, putsLeftAloneSlots_line u₃ 0 put, h₄⟩ <|
    .head ⟨_, putsLeftAloneSlots_go htest (by decide), h₅⟩ <|
    .head ⟨_, putsLeftAloneSlots_go hlock (by decide), h₆⟩ <|
    .single ⟨_, putsLeftAloneSlots_go hseek (by decide), hs⟩
  have hiff := ((no_lost_update_iff [] s).1 hreach.anything).2 0 t ht hpc
  rw [hnum] at hiff
  exact ⟨s, s', hs', hlen, hiff, (no_lost_update_iff [] s').2 (hreach.tail ⟨_, hwrite, hs'⟩)⟩

/-! ## An update lost between two sessions -/

/-- The user enters MOD. -/
def mod : Line := ⟨ascii ['M', 'O', 'D'], by decide, by decide, by decide⟩

/-- The user enters the name B and nothing else. -/
def nameB : Edit := ⟨⟨ascii ['B'], by decide, by decide, by decide⟩, noLine, noLine⟩

/-- A record with the name A in slot 0. -/
def fileA : List UInt8 := 65 :: List.replicate 160 0

/-- The sessions 0 and 1 read slot 0; then session 1 modifies and saves it, and session 0
saves what it has read. -/
def overtaken : List Action :=
  [startSession, startSession, .line 0 get0, go 0, .line 1 get0, go 1, .line 1 mod,
    .run 1 nameB Record.zero, go 1, go 1, go 1, go 1, .line 1 put, go 1, go 1, go 1, go 1, go 1,
    .line 0 put, go 0, go 0, go 0, go 0]

theorem update_lost :
    ¬ ∀ (file : List UInt8) (s : State), Reaches step anything (init file) s →
      NoLostUpdate file s.shared.log := by
  intro hall
  have hrun : ∃ s l r, exec step (init fileA) overtaken = some s ∧
      s.shared.log = .write 0 0 .put r :: l ∧ (lastRead 0 0 l).bind List.head? = some 65 ∧
      (slot (replay fileA l) 0).head? = some 66 := ⟨_, _, _, rfl, rfl, rfl, rfl⟩
  obtain ⟨s, l, r, hexec, hlog, hread, hslot⟩ := hrun
  have hsafe := hall fileA s (reaches_anything_of_exec hexec)
  rw [hlog] at hsafe
  rw [hsafe.1, Option.bind_some, hslot] at hread
  exact absurd hread (by decide)

end OsaspLabs.Records
