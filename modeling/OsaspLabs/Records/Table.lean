import OsaspLabs.Library.Traces
import OsaspLabs.Records.Alone
import OsaspLabs.Records.Laws
import OsaspLabs.Records.LostUpdate

/-! # The file of LAB_7 p2 as a table shared by the sessions

Whatever the sessions do at the same time, the bytes of the file stand for a table of whole records
without gaps, and each read, each write and each line of a listing is one of this table. -/

namespace OsaspLabs.Records

open Runs CString

/-! ## Tables without gaps -/

namespace Slots

/-- Below a slot that can be read every slot can be read. -/
def GapFree (s : Slots) : Prop :=
  ∀ i j : ℤ, 0 ≤ i → i ≤ j → (s j).isSome = true → (s i).isSome = true

theorem gapFree_empty : empty.GapFree := fun _ _ _ _ h => by cases h

/-- A put takes nothing away. -/
theorem isSome_put {s : Slots} {i : ℤ} (h : (s i).isSome = true) (n : ℤ) (r : Record) :
    (s.put n r i).isSome = true := by
  rcases Int.lt_trichotomy i n with hlt | heq | hgt
  · rw [put_of_lt _ hlt]
    rfl
  · rw [heq, put_self]
    rfl
  · rw [put_of_gt _ hgt, h]

theorem GapFree.put {s : Slots} (h : s.GapFree) (n : ℤ) (r : Record) : (s.put n r).GapFree := by
  intro i j hi hij hj
  rcases Int.lt_trichotomy i n with hlt | heq | hgt
  · rw [put_of_lt _ hlt]
    rfl
  · rw [heq, put_self]
    rfl
  · rw [put_of_gt _ (by omega)] at hj
    rw [put_of_gt _ hgt]
    exact h i j hi hij hj

/-- A put behind existing slots changes its own slot only. -/
theorem put_eq_of_below {s : Slots} {n : ℤ} (r : Record)
    (h : ∀ j : ℤ, 0 ≤ j → j < n → (s j).isSome = true) {j : ℤ} (hj : 0 ≤ j) (hne : j ≠ n) :
    s.put n r j = s j := by
  rcases Int.lt_or_gt_of_ne hne with hlt | hgt
  · rw [put_of_lt _ hlt]
    cases hs : s j with
    | none =>
        have hsome := h j hj hlt
        rw [hs] at hsome
        cases hsome
    | some r' => rfl
  · exact put_of_gt _ hgt r

end Slots

/-! ## `list_records` -/

/-- What `list_records` does on the screen of the session `k`. -/
inductive ListEvent where
  | begins (k : ℕ)
  | line (k n : ℕ) (record : Record)
  /-- It finds no record in the slot `n`, or `n` is `NUM_RECORDS`. -/
  | stops (k n : ℕ)

def listEvents (u : State) : Action → List ListEvent
  | .start _ _ _ => []
  | .line k line => if Command.parse line.text = .lst then [.begins k] else []
  | .run k _ garbage =>
      match u.sessions[k]? with
      | none => []
      | some t =>
          match t.pc with
          | .list i =>
              if i < numRecords ∧ (getRecord u.shared.file i garbage).1 = 0 then
                [.line k i (getRecord u.shared.file i garbage).2]
              else [.stops k i]
          | _ => []

/-- What is on the screen of the session `k` since its last LST. -/
def ListEvent.shown (k : ℕ) (lines : List (ℕ × Record)) : ListEvent → List (ℕ × Record)
  | .begins j => if j = k then [] else lines
  | .line j n record => if j = k then lines ++ [(n, record)] else lines
  | .stops _ _ => lines

def lastLines (k : ℕ) (es : List ListEvent) : List (ℕ × Record) :=
  es.foldl (ListEvent.shown k) []

/-- The event tells the table as it is. -/
def ListEvent.Tells (table : Slots) : ListEvent → Prop
  | .begins _ => True
  | .line _ n record => table n = some record
  | .stops _ n => ∀ j : ℕ, n ≤ j → j < numRecords → table j = none

/-- A session in LST has shown the slots in front of the one it comes to next. -/
def ListsInOrder (es : List ListEvent) (u : State) : Prop :=
  ∀ (k : ℕ) (t : Session) (i : ℕ), u.sessions[k]? = some t → t.pc = .list i →
    (lastLines k es).map Prod.fst = List.range i

theorem lastLines_append (k : ℕ) (es fs : List ListEvent) :
    lastLines k (es ++ fs) = fs.foldl (ListEvent.shown k) (lastLines k es) :=
  List.foldl_append

/-- LST shows the record of the table in its slot, or there is none from there on. -/
theorem listEvents_tell {u : State} {table : Slots} (h : Represents u.shared.file table)
    (hgap : table.GapFree) {a : Action} {e : ListEvent} (he : e ∈ listEvents u a) :
    e.Tells table := by
  cases a with
  | start record recordSav recordNew => cases he
  | line k line =>
      simp only [listEvents] at he
      split at he
      · rw [List.mem_singleton.mp he]
        trivial
      · cases he
  | run k edit garbage =>
      simp only [listEvents] at he
      split at he
      · cases he
      · split at he
        · rename_i i _
          have hread := getRecord_of_represents h (Int.natCast_nonneg i) garbage
          split at he
          · rename_i hgoes
            rw [List.mem_singleton.mp he]
            cases hi : table i with
            | some r =>
                rw [hi] at hread
                rw [ListEvent.Tells, hread, hi]
            | none =>
                rw [hread, hi] at hgoes
                exact absurd (show (-1 : ℤ) = 0 from hgoes.2) (by decide)
          · rename_i hends
            rw [List.mem_singleton.mp he]
            intro j hij hj
            -- a record behind the slot would leave a gap
            cases hsj : table j with
            | none => rfl
            | some r =>
                have hsome := hgap i j (Int.natCast_nonneg i) (by omega) (by rw [hsj]; rfl)
                obtain ⟨r', hi⟩ := Option.isSome_iff_exists.mp hsome
                rw [hi] at hread
                exact absurd ⟨Nat.lt_of_le_of_lt hij hj, by rw [hread]⟩ hends
        · cases he

theorem dispatch_list {k i : ℕ} {line : Line} {sh sh' : Shared} {t t' : Session}
    (hpc : t.pc = .prompt) (h : dispatch k line sh t = (sh', t')) (hlist : t'.pc = .list i) :
    Command.parse line.text = .lst ∧ i = 0 := by
  unfold dispatch at h
  cases hc : Command.parse line.text <;> simp only [hc] at h
  case lst =>
    cases h
    cases hlist
    exact ⟨rfl, rfl⟩
  case mod =>
    split at h <;> cases h <;> simp [hpc] at hlist
  all_goals
    cases h
    simp [hpc] at hlist

/-- LST goes on to a slot only from the one in front of it. -/
theorem sessionStep_list {k i : ℕ} {edit : Edit} {garbage : Record} {sh sh' : Shared}
    {t t' : Session} (h : sessionStep k edit garbage sh t = some (sh', t'))
    (hlist : t'.pc = .list i) :
    ∃ j, i = j + 1 ∧ t.pc = .list j ∧ j < numRecords ∧
      (getRecord sh.file j garbage).1 = 0 := by
  unfold sessionStep at h
  cases hpc : t.pc <;> simp only [hpc] at h
  case prompt | closed => cases h
  case list j =>
    split at h
    · rename_i hgoes
      cases h
      cases hlist
      exact ⟨j, rfl, rfl, hgoes⟩
    · cases h
      cases hlist
  case addScan j =>
    split at h
    · split at h <;> cases h <;> cases hlist
    · cases h
      cases hlist
  case addTest | modTest | putTest | getRead | modUnlock | lseek =>
    split at h <;> cases h <;> cases hlist
  case modModify =>
    cases h
    dsimp only at hlist
    split at hlist <;> cases hlist
  all_goals
    cases h
    cases hlist

/-- What the session `j` does leaves the screens of the others alone. -/
theorem shown_of_ne {u : State} {a : Action} {j k : ℕ} (hne : k ≠ j)
    (ha : (∃ line, a = .line j line) ∨ ∃ edit garbage, a = .run j edit garbage)
    (lines : List (ℕ × Record)) : (listEvents u a).foldl (ListEvent.shown k) lines = lines := by
  rcases ha with ⟨line, rfl⟩ | ⟨edit, garbage, rfl⟩
  · simp only [listEvents]
    split
    · simp [ListEvent.shown, hne.symm]
    · rfl
  · simp only [listEvents]
    split
    · rfl
    · split
      · split
        · simp [ListEvent.shown, hne.symm]
        · rfl
      · rfl

theorem ListsInOrder.step {es : List ListEvent} {u v : State} {a : Action}
    (h : ListsInOrder es u) (he : Effect u a v) : ListsInOrder (es ++ listEvents u a) v := by
  intro k t i ht hpc
  rw [lastLines_append]
  cases he with
  | start record recordSav recordNew action shared sessions =>
      subst action
      rw [sessions] at ht
      by_cases hlt : k < u.sessions.length
      · rw [List.getElem?_append_left hlt] at ht
        exact h k t i ht hpc
      · rw [List.getElem?_append_right (Nat.not_lt.mp hlt)] at ht
        rw [List.mem_singleton.mp (List.mem_of_getElem? ht)] at hpc
        cases hpc
  | line j line t₀ t' action at? prompt dispatched sessions =>
      rw [sessions] at ht
      rcases getElem?_set_cases ht with ⟨rfl, rfl⟩ | ⟨hne, hold⟩
      · obtain ⟨hlst, rfl⟩ := dispatch_list prompt dispatched hpc
        rw [action, listEvents, if_pos hlst]
        simp [ListEvent.shown]
      · rw [shown_of_ne hne (.inl ⟨line, action⟩)]
        exact h k t i hold hpc
  | run j edit garbage t₀ t' action at? stepped sessions =>
      rw [sessions] at ht
      rcases getElem?_set_cases ht with ⟨rfl, rfl⟩ | ⟨hne, hold⟩
      · obtain ⟨m, rfl, hlist, hgoes⟩ := sessionStep_list stepped hpc
        have hbefore := h _ t₀ m at? hlist
        rw [action]
        simp only [listEvents, at?, hlist, if_pos hgoes, List.foldl_cons, List.foldl_nil,
          ListEvent.shown, if_true, List.map_append, hbefore, List.map_cons, List.map_nil,
          List.range_succ]
      · rw [shown_of_ne hne (.inr ⟨edit, garbage, action⟩)]
        exact h k t i hold hpc

/-! ## The log as a history of the table -/

/-- The writes of a log, the first one first. -/
def writes : List Event → List (ℤ × Record)
  | [] => []
  | .read .. :: l => writes l
  | .write _ n _ r :: l => writes l ++ [((n : ℤ), r)]

/-- The table after the writes of a log. -/
def Slots.after (s : Slots) (log : List Event) : Slots := s.puts (writes log)

/-- Each read delivered nothing or a whole record, the one of the table at that time. -/
def ReadsTable (s : Slots) : List Event → Prop
  | [] => True
  | .read _ n content :: l =>
      content = ((s.after l) n).elim [] Record.toBytes ∧ ReadsTable s l
  | .write .. :: l => ReadsTable s l

/-- Each write of ADD changed no other slot. -/
def AddsOwnSlot (s : Slots) : List Event → Prop
  | [] => True
  | .write _ n .add r :: l =>
      (∀ j : ℤ, 0 ≤ j → j ≠ n → (s.after l).put n r j = s.after l j) ∧ AddsOwnSlot s l
  | .write _ _ .put _ :: l => AddsOwnSlot s l
  | .read .. :: l => AddsOwnSlot s l

section Log

variable {file : List UInt8} {s : Slots}

@[simp] theorem after_nil : s.after [] = s := rfl

@[simp] theorem after_read (k n : ℕ) (content : List UInt8) (l : List Event) :
    s.after (.read k n content :: l) = s.after l := rfl

@[simp] theorem after_write (k n : ℕ) (caller : Caller) (r : Record) (l : List Event) :
    s.after (.write k n caller r :: l) = (s.after l).put n r :=
  Slots.puts_concat s (writes l) n r

theorem represents_replay (h : Represents file s) (log : List Event) :
    Represents (replay file log) (s.after log) := by
  induction log with
  | nil => exact h
  | cons e l ih =>
      cases e with
      | read k n content => exact ih
      | write k n caller r =>
          rw [after_write]
          exact represents_putRecord ih n r

theorem gapFree_after (h : s.GapFree) (log : List Event) : (s.after log).GapFree := by
  induction log with
  | nil => exact h
  | cons e l ih =>
      cases e with
      | read k n content => exact ih
      | write k n caller r =>
          rw [after_write]
          exact ih.put n r

theorem readsTable_of_readsRight (h : Represents file s) {log : List Event}
    (hreads : ReadsRight file log) : ReadsTable s log := by
  induction log with
  | nil => trivial
  | cons e l ih =>
      cases e with
      | read k n content =>
          obtain ⟨rfl, hl⟩ := hreads
          exact ⟨represents_replay h l n, ih hl⟩
      | write k n caller r => exact ih hreads

end Log

/-! ## The scan of ADD -/

/-- The number of slots that ADD has found to be taken. -/
def Session.passed (t : Session) : ℤ :=
  match t.pc with
  | .addScan i => i
  | .addTest | .addLock | .addModify | .lseek .add | .write .add => t.recordNum
  | _ => 0

/-- They can be read. While ADD still looks it has no slot. -/
structure Session.Scanned (s : Slots) (t : Session) : Prop where
  below : ∀ j : ℤ, 0 ≤ j → j < t.passed → (s j).isSome = true
  scanning : ∀ i, t.pc = .addScan i → t.recordNum = -1

theorem Session.Scanned.of_passed {s : Slots} {t : Session} (h : t.passed ≤ 0)
    (hscan : ∀ i, t.pc = .addScan i → t.recordNum = -1) : t.Scanned s where
  below j hj hlt := by omega
  scanning := hscan

theorem Session.Scanned.grown {s s' : Slots} {t : Session} (h : t.Scanned s)
    (hgrown : ∀ j : ℤ, (s j).isSome = true → (s' j).isSome = true) : t.Scanned s' where
  below j hj hlt := hgrown j (h.below j hj hlt)
  scanning := h.scanning

/-- The table only grows. -/
theorem sessionStep_grown {k : ℕ} {edit : Edit} {garbage : Record} {sh sh' : Shared}
    {t t' : Session} (s : Slots) (h : sessionStep k edit garbage sh t = some (sh', t')) (j : ℤ)
    (hj : (s.after sh.log j).isSome = true) : (s.after sh'.log j).isSome = true := by
  cases sessionStep_logged h with
  | same file log => rwa [log]
  | read file log =>
      rw [log]
      by_cases hneg : t.recordNum < 0
      · rwa [readEvent, if_pos hneg]
      · rwa [readEvent, if_neg hneg]
  | write caller pc file log =>
      rw [log, after_write]
      exact Slots.isSome_put hj _ _

theorem dispatch_scanned {k : ℕ} {line : Line} {sh sh' : Shared} {t t' : Session} {s : Slots}
    (hpc : t.pc = .prompt) (h : dispatch k line sh t = (sh', t')) : t'.Scanned s := by
  unfold dispatch at h
  cases hc : Command.parse line.text <;> simp only [hc] at h
  case mod =>
    split at h <;> cases h
    · exact .of_passed (by simp [Session.passed, hpc]) (by simp [hpc])
    · exact .of_passed (by simp [Session.passed]) (by simp)
  case unknown =>
    cases h
    exact .of_passed (by simp [Session.passed, hpc]) (by simp [hpc])
  all_goals
    cases h
    exact .of_passed (by simp [Session.passed]) (by simp)

/-- ADD goes on with its scan, or with the slot that it has found. -/
theorem sessionStep_scanned {k : ℕ} {edit : Edit} {garbage : Record} {sh sh' : Shared}
    {t t' : Session} {s : Slots} (h : sessionStep k edit garbage sh t = some (sh', t'))
    (hrep : Represents sh.file s) (hscan : t.Scanned s) : t'.Scanned s := by
  obtain ⟨hbelow, hscanning⟩ := hscan
  unfold sessionStep at h
  cases hpc : t.pc <;> simp only [hpc] at h
  case prompt | closed => cases h
  case addScan i =>
    have hpassed : t.passed = i := by simp [Session.passed, hpc]
    rw [hpassed] at hbelow
    split at h
    · have hread := getRecord_of_represents hrep (Int.natCast_nonneg i) t.record
      cases hs : s i with
      | some r =>
          rw [hs] at hread
          simp only [Session.getRecord, hread, if_true, Option.some.injEq, Prod.mk.injEq] at h
          obtain ⟨-, rfl⟩ := h
          refine ⟨fun j hj hlt => ?_, fun _ _ => hscanning i hpc⟩
          have hlt : j < ((i + 1 : ℕ) : ℤ) := hlt
          have hle : j < i ∨ j = i := by omega
          rcases hle with hlt | rfl
          · exact hbelow j hj hlt
          · rw [hs]
            rfl
      | none =>
          rw [hs] at hread
          have hfail : ¬ (-1 : ℤ) = 0 := by decide
          simp only [Session.getRecord, hread, if_neg hfail, Option.some.injEq,
            Prod.mk.injEq] at h
          obtain ⟨-, rfl⟩ := h
          exact ⟨hbelow, by simp⟩
    · -- no slot is free
      cases h
      refine .of_passed ?_ (by simp)
      show t.recordNum ≤ 0
      rw [hscanning i hpc]
      decide
  case addTest =>
    split at h <;> cases h
    · exact .of_passed (by simp [Session.passed]) (by simp)
    · refine ⟨?_, by simp⟩
      simpa [Session.passed, hpc] using hbelow
  case addLock =>
    cases h
    refine ⟨?_, by simp⟩
    simpa [Session.passed, hpc] using hbelow
  case addModify =>
    cases h
    refine ⟨?_, by simp⟩
    simpa [Session.passed, hpc] using hbelow
  case lseek caller =>
    split at h <;> cases h
    · exact .of_passed (by simp [Session.passed]) (by simp)
    · refine ⟨?_, by simp⟩
      cases caller <;> simpa [Session.passed, hpc] using hbelow
  case list i =>
    split at h <;> cases h <;> exact .of_passed (by simp [Session.passed]) (by simp)
  case modModify =>
    cases h
    cases hsame : cmpRecord (modifyRecord t.record edit) t.record with
    | true => exact .of_passed (by simp [Session.passed]) (by simp)
    | false => exact .of_passed (by simp [Session.passed]) (by simp)
  case modTest | getRead | putTest =>
    split at h <;> cases h <;> exact .of_passed (by simp [Session.passed]) (by simp)
  case modUnlock same =>
    split at h <;> cases h <;> exact .of_passed (by simp [Session.passed]) (by simp)
  all_goals
    cases h
    exact .of_passed (by simp [Session.passed]) (by simp)

/-! ## Every run -/

/-- The file stands for a table without gaps, and all that the sessions have done and list is told
in terms of this table. -/
structure SharedTable (s : Slots) (es : List ListEvent) (u : State) : Prop where
  represents : Represents u.shared.file (s.after u.shared.log)
  gapFree : (s.after u.shared.log).GapFree
  reads : ReadsTable s u.shared.log
  adds : AddsOwnSlot s u.shared.log
  lists : ListsInOrder es u
  tells : ∀ a, ∀ e ∈ listEvents u a, e.Tells (s.after u.shared.log)

/-- What ADD relies on, in every session. -/
structure AddsWell (s : Slots) (u : State) : Prop where
  scanned : ∀ t ∈ u.sessions, t.Scanned (s.after u.shared.log)
  adds : AddsOwnSlot s u.shared.log

/-- A step of a session writes behind existing slots if it is in ADD. -/
theorem sessionStep_adds {k : ℕ} {edit : Edit} {garbage : Record} {sh sh' : Shared}
    {t t' : Session} {s : Slots} (h : sessionStep k edit garbage sh t = some (sh', t'))
    (hscan : t.Scanned (s.after sh.log)) (hadds : AddsOwnSlot s sh.log) :
    AddsOwnSlot s sh'.log := by
  cases sessionStep_logged h with
  | same file log => rwa [log]
  | read file log =>
      rw [log]
      by_cases hneg : t.recordNum < 0
      · rwa [readEvent, if_pos hneg]
      · rw [readEvent, if_neg hneg]
        exact hadds
  | write caller pc file log =>
      rw [log]
      cases caller with
      | put => exact hadds
      | add =>
          refine ⟨fun j hj hne => Slots.put_eq_of_below _ (fun i hi hlt => ?_) hj hne, hadds⟩
          apply hscan.below i hi
          simp only [Session.passed, pc]
          omega

theorem Effect.addsWell {file : List UInt8} {s : Slots} {u v : State} {a : Action}
    (he : Effect u a v) (hrep : Represents file s) (hrec : Recorded file u) (h : AddsWell s u) :
    AddsWell s v := by
  cases he with
  | start record recordSav recordNew action shared sessions =>
      refine ⟨?_, shared ▸ h.adds⟩
      rw [shared, sessions]
      refine List.forall_mem_append.mpr ⟨h.scanned, fun t ht => ?_⟩
      rw [List.mem_singleton.mp ht]
      exact .of_passed (Int.le_refl 0) (by simp [Session.start])
  | line k line t t' action at? prompt dispatched sessions =>
      have hlog := (dispatch_dispatched prompt dispatched).log
      refine ⟨?_, hlog ▸ h.adds⟩
      rw [hlog, sessions]
      exact forall_mem_set h.scanned (dispatch_scanned prompt dispatched)
  | run k edit garbage t t' action at? stepped sessions =>
      have hscan := h.scanned t (List.mem_of_getElem? at?)
      have hfile : Represents u.shared.file (s.after u.shared.log) := by
        rw [hrec.replayed]
        exact represents_replay hrep _
      refine ⟨?_, sessionStep_adds stepped hscan h.adds⟩
      rw [sessions]
      have hgrown := sessionStep_grown s stepped
      refine forall_mem_set (fun t₁ ht₁ => (h.scanned t₁ ht₁).grown hgrown) ?_
      exact (sessionStep_scanned stepped hfile hscan).grown hgrown

/-- If the file stands for a table without gaps first, then it does so in every run of any number
of sessions: each GET and each comparison of MOD gets a whole record of the table or none, ADD
changes its own slot only, and LST, between whose reads other sessions may write, shows the slots
in order, each with its record at that moment, until there is none from there on. -/
theorem sessions_share_table {file : List UInt8} {s : Slots} {es : List ListEvent} {u : State}
    (hrep : Represents file s) (hgap : s.GapFree) (h : Traced step listEvents (init file) es u) :
    SharedTable s es u := by
  have hinv : Recorded file u ∧ AddsWell s u ∧ ListsInOrder es u := by
    refine h.invariant (I := fun es v => Recorded file v ∧ AddsWell s v ∧ ListsInOrder es v) ?_ ?_
    · exact ⟨⟨rfl, trivial⟩, ⟨fun t ht => absurd ht List.not_mem_nil, trivial⟩,
        fun _ _ _ ht => by cases ht⟩
    · intro fs v a w hv hstep
      have he := step_effect hstep
      exact ⟨he.recorded hv.1, he.addsWell hrep hv.1 hv.2.1, hv.2.2.step he⟩
  obtain ⟨hrec, hadds, hlists⟩ := hinv
  have hfile : Represents u.shared.file (s.after u.shared.log) := by
    rw [hrec.replayed]
    exact represents_replay hrep _
  have hfree := gapFree_after hgap u.shared.log
  exact ⟨hfile, hfree, readsTable_of_readsRight hrep hrec.reads, hadds.adds, hlists,
    fun _ _ he => listEvents_tell hfile hfree he⟩

def lst : Line := ⟨ascii ['L', 'S', 'T'], by decide, by decide, by decide⟩

/-- Two sessions look for a free slot at the same time; the second one finds the slot locked. It
lists the table while the first one adds another record. -/
def bothAdd : List Action :=
  [startSession, startSession, .line 0 add, .line 1 add, go 0, go 1, go 0, go 0, go 1,
    .run 0 nameB Record.zero, go 0, go 0, go 0, .line 1 lst, go 1, .line 0 add] ++
    List.replicate 8 (go 0) ++ [go 1]

theorem sessions_share_table_add :
    ∃ es u, Traced step listEvents (init []) es u ∧ SharedTable Slots.empty es u ∧
      (lastLines 1 es).map Prod.fst = [0, 1] := by
  have hrun : (trace step listEvents (init []) bothAdd).map
      (fun x => (lastLines 1 x.1).map Prod.fst) = some [0, 1] := by
    decide +kernel
  obtain ⟨⟨es, u⟩, htrace, hlines⟩ := Option.map_eq_some_iff.mp hrun
  exact ⟨es, u, .of_trace htrace,
    sessions_share_table represents_empty Slots.gapFree_empty (.of_trace htrace), hlines⟩

end OsaspLabs.Records
