import OsaspLabs.Lab4.Processes

/-! # The end of LAB_4

Each `kill` of the parent is followed by a `wait(NULL)`, and `atexit_handler` goes through both
tables. Meanwhile the processes run on, and one that leaves through an exit kills the parent,
wherever it stands. -/

namespace OsaspLabs.Lab4

open Ipc Runs

/-! ## The parent, statement by statement -/

inductive Role where
  | producer
  | consumer
  deriving DecidableEq

/-- Where the parent stands. -/
inductive ParentPc where
  | getchar
  /-- At the `wait(NULL)` of a removal. -/
  | removed
  /-- In a loop of `atexit_handler`, before a `kill`. -/
  | killing (role : Role) (i : ℕ)
  /-- In a loop of `atexit_handler`, at a `wait(NULL)`. -/
  | waiting (role : Role) (i : ℕ)
  | unlinking
  | ended
  deriving DecidableEq

structure Session where
  state : State
  /-- The processes that have been killed and not yet waited for. -/
  zombies : ℕ
  pc : ParentPc

/-- The state when the parent reads its first command. -/
def Session.start (memory : MsgQueue) : Session := ⟨init memory, 0, .getchar⟩

def State.table (s : State) : Role → List ℕ
  | .producer => s.producers
  | .consumer => s.consumers

def isLive (procs : List Proc) (pid : ℕ) : Bool := (procs[pid]?.map Proc.live).getD false

inductive Move where
  /-- The process `pid` takes its next step. -/
  | run (pid : ℕ) (rnd : Rand)
  | create (role : Role) (msg : Msg) (counter : UInt64)
  /-- `fork` fails in a creation. -/
  | forkFails (role : Role)
  | remove (role : Role)
  /-- `q`, or the end of the input. -/
  | quit
  /-- The next statement of the parent. -/
  | parent

def createChild (s : State) (msg : Msg) (counter : UInt64) : Role → State
  | .producer => createProducer s msg counter
  | .consumer => createConsumer s msg counter

def removeChild (s : State) : Role → State
  | .producer => removeProducer s
  | .consumer => removeConsumer s

/-- `kill(pid, SIGKILL)` -/
def Session.kill (s : Session) (pid : ℕ) : Session :=
  { s with
    state := { s.state with procs := Lab4.kill s.state.procs pid }
    zombies := s.zombies + (isLive s.state.procs pid).toNat }

/-- `wait(NULL)`, and then the parent goes on at `pc`. -/
def Session.wait (s : Session) (pc : ParentPc) : Option Session :=
  if s.zombies = 0 then none else some { s with zombies := s.zombies - 1, pc := pc }

/-- What follows a loop of `atexit_handler`. -/
def Role.next : Role → ParentPc
  | .producer => .killing .consumer 0
  | .consumer => .unlinking

def parentStep (s : Session) : Option Session :=
  match s.pc with
  | .getchar | .ended => none
  | .removed => s.wait .getchar
  | .killing role i =>
      match (s.state.table role)[i]? with
      | some pid => some { s.kill pid with pc := .waiting role i }
      | none => some { s with pc := role.next }
  | .waiting role i => s.wait (.killing role (i + 1))
  | .unlinking => some { s with pc := .ended }

/-- The parent reads commands while it runs and does nothing else. -/
def Session.reads (s : Session) : Bool := s.state.parent && s.pc == .getchar

def sessionStep (s : Session) : Move → Option Session
  | .run pid rnd => (runProc s.state pid rnd).map fun t => { s with state := t }
  | .create role msg counter =>
      if s.reads then some { s with state := createChild s.state msg counter role } else none
  | .forkFails role =>
      if s.reads then
        if (s.state.table role).length = childMax - 1 then some s
        else some { s with pc := .killing .producer 0 }
      else none
  | .remove role =>
      if s.reads then
        match (s.state.table role).getLast? with
        | none => some s
        | some pid =>
            some
              { s with
                state := removeChild s.state role
                zombies := s.zombies + (isLive s.state.procs pid).toNat
                pc := .removed }
      else none
  | .quit => if s.reads then some { s with pc := .killing .producer 0 } else none
  | .parent => if s.state.parent then parentStep s else none

/-! ## Who lives -/

/-- The tables that come after one in `atexit_handler`. -/
def State.behind (s : State) : Role → List ℕ
  | .producer => s.consumers
  | .consumer => []

/-- The processes in the tables that the parent has not killed. -/
def Session.toEnd (s : Session) : List ℕ :=
  match s.pc with
  | .getchar | .removed => s.state.producers ++ s.state.consumers
  | .killing role i => (s.state.table role).drop i ++ s.state.behind role
  | .waiting role i => (s.state.table role).drop (i + 1) ++ s.state.behind role
  | .unlinking | .ended => []

/-- How many processes the parent has still to wait for. -/
def ParentPc.waits : ParentPc → ℕ
  | .removed | .waiting _ _ => 1
  | _ => 0

/-- The handler has not started. -/
def ParentPc.beforeExit : ParentPc → Bool
  | .getchar | .removed => true
  | _ => false

/-- While the parent runs, exactly the processes that it has still to kill live. -/
structure Kept (s : Session) : Prop where
  distinct : (s.state.producers ++ s.state.consumers).Nodup
  live_iff : ∀ pid, isLive s.state.procs pid = true ↔ pid ∈ s.toEnd
  zombies : s.zombies = s.pc.waits
  fault : s.state.fault = none

/-- As long as the parent runs the tables tell who lives; only a process that leaves through an exit
ends it. -/
structure Sound (s : Session) : Prop where
  kept : s.state.parent = true → Kept s
  fault : s.state.parent = false → s.state.fault ≠ none

theorem isLive_set {procs : List Proc} {pid : ℕ} {p q : Proc} (h : procs[pid]? = some p)
    (hlive : q.live = p.live) (i : ℕ) : isLive (procs.set pid q) i = isLive procs i := by
  unfold isLive
  rw [List.getElem?_set]
  split
  · rename_i heq
    subst heq
    obtain ⟨hlt, hp⟩ := List.getElem?_eq_some_iff.mp h
    simp [hlt, hlive, hp]
  · rfl

theorem isLive_append (procs : List Proc) (w : Worker) (i : ℕ) :
    isLive (procs ++ [⟨w, true⟩]) i = (isLive procs i || i == procs.length) := by
  unfold isLive
  rw [List.getElem?_append]
  split
  · rename_i hlt
    simp [Nat.ne_of_lt hlt]
  · rename_i hge
    rw [List.getElem?_eq_none (not_lt.mp hge)]
    by_cases heq : i = procs.length
    · simp [heq]
    · have hpos : 0 < i - procs.length := by omega
      simp [heq, Nat.ne_of_gt hpos]

theorem isLive_kill (procs : List Proc) (pid i : ℕ) :
    isLive (kill procs pid) i = (isLive procs i && i != pid) := by
  unfold isLive kill
  rw [List.getElem?_modify]
  by_cases heq : pid = i
  · subst heq
    cases procs[pid]? <;> simp
  · cases procs[i]? <;> simp [heq, Ne.symm heq]

theorem lt_length_of_isLive {procs : List Proc} {pid : ℕ} (h : isLive procs pid = true) :
    pid < procs.length := by
  by_contra hge
  rw [isLive, List.getElem?_eq_none (not_lt.mp hge)] at h
  cases h

/-! ## Steps -/

theorem State.drop_table_sublist (s : State) (role : Role) (i : ℕ) :
    ((s.table role).drop i ++ s.behind role).Sublist (s.producers ++ s.consumers) := by
  cases role with
  | producer => exact (List.drop_sublist _ _).append_right _
  | consumer =>
      rw [State.behind, List.append_nil]
      exact (List.drop_sublist _ _).trans (List.sublist_append_right _ _)

theorem Session.toEnd_sublist (s : Session) :
    s.toEnd.Sublist (s.state.producers ++ s.state.consumers) := by
  unfold toEnd
  split
  · exact List.Sublist.refl _
  · exact List.Sublist.refl _
  · exact s.state.drop_table_sublist _ _
  · exact s.state.drop_table_sublist _ _
  · exact List.nil_sublist _
  · exact List.nil_sublist _

/-- One of the processes is killed and the others are left. -/
theorem Kept.live_kill {s : Session} (h : Kept s) {pid : ℕ} {l : List ℕ}
    (hsplit : s.toEnd.Perm (pid :: l)) (i : ℕ) :
    isLive (Lab4.kill s.state.procs pid) i = true ↔ i ∈ l := by
  obtain ⟨hnot, -⟩ :=
    List.nodup_cons.mp (hsplit.nodup (h.distinct.sublist s.toEnd_sublist))
  have hother : i ∈ l → i ≠ pid := fun hi heq => hnot (heq ▸ hi)
  rw [isLive_kill, Bool.and_eq_true, h.live_iff, hsplit.mem_iff, bne_iff_ne, List.mem_cons]
  tauto

/-- What a process does changes none of the tables, and nobody ends but one that leaves through an
exit, which takes the parent with it. -/
theorem runProc_cases {s t : State} {pid : ℕ} {rnd : Rand} (h : runProc s pid rnd = some t) :
    (t.producers = s.producers ∧ t.consumers = s.consumers ∧ t.parent = s.parent ∧
      t.fault = s.fault ∧ ∀ i, isLive t.procs i = isLive s.procs i) ∨
    (t.parent = false ∧ t.fault ≠ none) := by
  unfold runProc at h
  split at h
  · cases h
  · rename_i p hp
    split at h
    · rename_i hlive
      split at h
      · cases h
      · rename_i sh w _
        obtain rfl := Option.some.inj h
        exact .inl ⟨rfl, rfl, rfl, rfl, isLive_set hp hlive.symm⟩
      · obtain rfl := Option.some.inj h
        exact .inr ⟨rfl, by simp [exitChild]⟩
    · cases h

section Steps

variable {s t : Session}

/-- A process takes a step of its own. -/
theorem Sound.run (h : Sound s) {u : State} {pid : ℕ} {rnd : Rand}
    (hrun : runProc s.state pid rnd = some u) : Sound { s with state := u } := by
  rcases runProc_cases hrun with ⟨hproducers, hconsumers, hparent, hfault, hlive⟩ | ⟨hdead, hfault⟩
  · refine ⟨fun hpar => ?_, fun hpar => ?_⟩
    · have hkept := h.kept (hparent ▸ hpar)
      have htoEnd : Session.toEnd { s with state := u } = s.toEnd := by
        have htable : ∀ role, u.table role = s.state.table role := by
          intro role
          cases role <;> simp [State.table, hproducers, hconsumers]
        have hbehind : ∀ role, u.behind role = s.state.behind role := by
          intro role
          cases role <;> simp [State.behind, hconsumers]
        simp only [Session.toEnd, hproducers, hconsumers, htable, hbehind]
      refine ⟨?_, fun i => ?_, hkept.zombies, hfault.trans hkept.fault⟩
      · rw [hproducers, hconsumers]
        exact hkept.distinct
      · rw [htoEnd, hlive]
        exact hkept.live_iff i
    · rw [hfault]
      exact h.fault (hparent ▸ hpar)
  · exact ⟨fun hpar => absurd (hdead.symm.trans hpar) (by decide), fun _ => hfault⟩

/-- The loops of `atexit_handler` kill the next process of the table. -/
theorem Kept.killing (h : Kept s) {role : Role} {i pid : ℕ} (hpc : s.pc = .killing role i)
    (hpid : (s.state.table role)[i]? = some pid) :
    Kept { s.kill pid with pc := .waiting role i } := by
  obtain ⟨hi, hget⟩ := List.getElem?_eq_some_iff.mp hpid
  have hsplit : s.toEnd = pid :: ((s.state.table role).drop (i + 1) ++ s.state.behind role) := by
    simp only [Session.toEnd, hpc]
    rw [List.drop_eq_getElem_cons hi, hget, List.cons_append]
  have hlive : isLive s.state.procs pid = true := by
    rw [h.live_iff, hsplit]
    exact List.mem_cons_self
  have hkill := h.live_kill (List.Perm.of_eq hsplit)
  refine ⟨h.distinct, hkill, ?_, h.fault⟩
  simp [Session.kill, hlive, h.zombies, hpc, ParentPc.waits]

/-- A new process comes into one of the tables. -/
theorem Kept.forked (h : Kept s) (hpc : s.pc = .getchar) {u : State} {w : Worker}
    (hprocs : u.procs = s.state.procs ++ [⟨w, true⟩])
    (htables : (u.producers ++ u.consumers).Perm
      (s.state.procs.length :: (s.state.producers ++ s.state.consumers)))
    (hfault : u.fault = s.state.fault) : Kept { s with state := u } := by
  have hlive : ∀ i, isLive s.state.procs i = true ↔
      i ∈ s.state.producers ++ s.state.consumers := by
    intro i
    rw [h.live_iff]
    simp only [Session.toEnd, hpc]
  have hnew : s.state.procs.length ∉ s.state.producers ++ s.state.consumers := by
    intro hmem
    exact absurd (lt_length_of_isLive ((hlive _).mpr hmem)) (Nat.lt_irrefl _)
  refine ⟨htables.symm.nodup (List.nodup_cons.mpr ⟨hnew, h.distinct⟩), fun i => ?_, h.zombies,
    hfault.trans h.fault⟩
  simp only [Session.toEnd, hpc]
  rw [htables.mem_iff, List.mem_cons, ← hlive, hprocs, isLive_append, Bool.or_eq_true, beq_iff_eq,
    or_comm]

theorem Kept.createChild (h : Kept s) (hpc : s.pc = .getchar) (msg : Msg) (counter : UInt64)
    (role : Role) : Kept { s with state := Lab4.createChild s.state msg counter role } := by
  cases role with
  | producer =>
      simp only [Lab4.createChild, createProducer]
      split
      · exact h
      · refine h.forked hpc rfl ?_ rfl
        rw [List.append_assoc, List.singleton_append]
        exact List.perm_middle
  | consumer =>
      simp only [Lab4.createChild, createConsumer]
      split
      · exact h
      · refine h.forked hpc rfl ?_ rfl
        rw [← List.append_assoc]
        exact List.perm_append_singleton _ _

/-- The last process of a table is killed and leaves it. -/
theorem Kept.removed (h : Kept s) (hpc : s.pc = .getchar) {u : State} {pid : ℕ}
    (hprocs : u.procs = Lab4.kill s.state.procs pid)
    (htables : (s.state.producers ++ s.state.consumers).Perm
      (pid :: (u.producers ++ u.consumers)))
    (hfault : u.fault = s.state.fault) :
    Kept ⟨u, s.zombies + (isLive s.state.procs pid).toNat, .removed⟩ := by
  have htoEnd : s.toEnd = s.state.producers ++ s.state.consumers := by
    simp only [Session.toEnd, hpc]
  have hlive : isLive s.state.procs pid = true := by
    rw [h.live_iff, htoEnd, htables.mem_iff]
    exact List.mem_cons_self
  have hkill := h.live_kill (htoEnd ▸ htables)
  refine ⟨(List.nodup_cons.mp (htables.nodup h.distinct)).2, ?_, ?_, hfault.trans h.fault⟩
  · rw [hprocs]
    exact hkill
  · simp [hlive, h.zombies, hpc, ParentPc.waits]

theorem Kept.removeChild (h : Kept s) (hpc : s.pc = .getchar) {role : Role} {pid : ℕ}
    (hpid : (s.state.table role).getLast? = some pid) :
    Kept ⟨Lab4.removeChild s.state role, s.zombies + (isLive s.state.procs pid).toNat,
      .removed⟩ := by
  have hlast := List.dropLast_append_getLast? pid hpid
  cases role with
  | producer =>
      simp only [State.table] at hpid hlast
      simp only [Lab4.removeChild, removeProducer, hpid]
      refine h.removed hpc rfl ?_ rfl
      rw [← hlast, List.append_assoc, List.singleton_append, List.dropLast_concat]
      exact List.perm_middle
  | consumer =>
      simp only [State.table] at hpid hlast
      simp only [Lab4.removeChild, removeConsumer, hpid]
      refine h.removed hpc rfl ?_ rfl
      rw [← hlast, ← List.append_assoc, List.dropLast_concat]
      exact List.perm_append_singleton _ _

/-- The parent goes on to another statement and the processes that it has to kill stay the same. -/
theorem Kept.goOn (h : Kept s) {t : Session} (hstate : t.state = s.state)
    (htoEnd : t.toEnd = s.toEnd) (hzombies : t.zombies = t.pc.waits) : Kept t :=
  ⟨hstate ▸ h.distinct, fun i => by rw [hstate, htoEnd]; exact h.live_iff i, hzombies,
    hstate ▸ h.fault⟩

theorem eq_of_wait {pc : ParentPc} (h : s.wait pc = some t) :
    t = { s with zombies := s.zombies - 1, pc := pc } := by
  unfold Session.wait at h
  split at h
  · cases h
  · exact (Option.some.inj h).symm

theorem Kept.wait (h : Kept s) {pc : ParentPc} (hwait : s.wait pc = some t)
    (hwaits : pc.waits = 0) (hpos : s.pc.waits = 1)
    (htoEnd : Session.toEnd { s with pc := pc } = s.toEnd) : Kept t := by
  obtain rfl := eq_of_wait hwait
  refine h.goOn rfl htoEnd ?_
  rw [h.zombies, hpos, hwaits]

theorem Kept.parentStep (h : Kept s) (hstep : parentStep s = some t) : Kept t := by
  unfold Lab4.parentStep at hstep
  split at hstep
  · cases hstep
  · cases hstep
  · rename_i hpc
    exact h.wait hstep rfl (by rw [hpc]; rfl) (by simp only [Session.toEnd, hpc])
  · rename_i role i hpc
    split at hstep
    · rename_i pid hpid
      obtain rfl := Option.some.inj hstep
      exact h.killing hpc hpid
    · rename_i hnone
      obtain rfl := Option.some.inj hstep
      have hdrop : (s.state.table role).drop i = [] :=
        List.drop_eq_nil_of_le (List.getElem?_eq_none_iff.mp hnone)
      refine h.goOn rfl ?_ ?_
      · simp only [Session.toEnd, hpc, hdrop, List.nil_append]
        cases role <;> simp [Role.next, State.table, State.behind]
      · rw [h.zombies, hpc]
        cases role <;> rfl
  · rename_i role i hpc
    exact h.wait hstep rfl (by rw [hpc]; rfl) (by simp only [Session.toEnd, hpc])
  · rename_i hpc
    obtain rfl := Option.some.inj hstep
    refine h.goOn rfl (by simp only [Session.toEnd, hpc]) ?_
    rw [h.zombies, hpc]
    rfl

theorem Sound.of_kept (h : Kept t) (hparent : t.state.parent = true) : Sound t :=
  ⟨fun _ => h, fun hdead => absurd (hparent.symm.trans hdead) (by decide)⟩

theorem reads_iff : s.reads = true ↔ s.state.parent = true ∧ s.pc = .getchar := by
  rw [Session.reads, Bool.and_eq_true, beq_iff_eq]

theorem parent_createChild (u : State) (msg : Msg) (counter : UInt64) (role : Role) :
    (Lab4.createChild u msg counter role).parent = u.parent := by
  cases role with
  | producer =>
      simp only [Lab4.createChild, createProducer]
      split <;> rfl
  | consumer =>
      simp only [Lab4.createChild, createConsumer]
      split <;> rfl

theorem parent_removeChild (u : State) (role : Role) :
    (Lab4.removeChild u role).parent = u.parent := by
  cases role with
  | producer =>
      simp only [Lab4.removeChild, removeProducer]
      split <;> rfl
  | consumer =>
      simp only [Lab4.removeChild, removeConsumer]
      split <;> rfl

/-- The parent's own statements leave its flag alone. -/
theorem parent_parentStep (hstep : Lab4.parentStep s = some t) :
    t.state.parent = s.state.parent := by
  have hwait : ∀ pc, s.wait pc = some t → t.state.parent = s.state.parent := by
    intro pc h
    rw [eq_of_wait h]
  unfold Lab4.parentStep at hstep
  split at hstep
  · cases hstep
  · cases hstep
  · exact hwait _ hstep
  · split at hstep
    · obtain rfl := Option.some.inj hstep
      rfl
    · obtain rfl := Option.some.inj hstep
      rfl
  · exact hwait _ hstep
  · obtain rfl := Option.some.inj hstep
    rfl

/-- Before the handler the parent only comes back from `wait(NULL)`. -/
theorem parentStep_before (hstep : Lab4.parentStep s = some t) (hpc : t.pc.beforeExit = true) :
    t.state = s.state ∧ s.pc.beforeExit = true := by
  have hwait : ∀ pc, s.wait pc = some t → t.state = s.state ∧ t.pc = pc := by
    intro pc h
    rw [eq_of_wait h]
    exact ⟨rfl, rfl⟩
  unfold Lab4.parentStep at hstep
  split at hstep
  · cases hstep
  · cases hstep
  · rename_i hread
    exact ⟨(hwait _ hstep).1, by rw [hread]; rfl⟩
  · split at hstep
    · obtain rfl := Option.some.inj hstep
      cases hpc
    · rename_i role _ _ _ _
      obtain rfl := Option.some.inj hstep
      cases role <;> cases hpc
  · rw [(hwait _ hstep).2] at hpc
    cases hpc
  · obtain rfl := Option.some.inj hstep
    cases hpc

/-- The handler starts with the first table. -/
theorem Kept.quit (h : Kept s) (hpc : s.pc = .getchar) :
    Kept { s with pc := .killing .producer 0 } := by
  refine h.goOn rfl ?_ ?_
  · simp only [Session.toEnd, hpc]
    rfl
  · rw [h.zombies, hpc]
    rfl

theorem Sound.step (h : Sound s) {m : Move} (hstep : sessionStep s m = some t) : Sound t := by
  cases m with
  | run pid rnd =>
      obtain ⟨u, hrun, rfl⟩ := Option.map_eq_some_iff.mp hstep
      exact h.run hrun
  | create role msg counter =>
      obtain ⟨hreads, ht⟩ := Option.ite_none_right_eq_some.mp hstep
      obtain ⟨hparent, hpc⟩ := reads_iff.mp hreads
      obtain rfl := Option.some.inj ht
      exact .of_kept ((h.kept hparent).createChild hpc msg counter role)
        ((parent_createChild s.state msg counter role).trans hparent)
  | forkFails role =>
      obtain ⟨hreads, ht⟩ := Option.ite_none_right_eq_some.mp hstep
      obtain ⟨hparent, hpc⟩ := reads_iff.mp hreads
      split at ht
      · obtain rfl := Option.some.inj ht
        exact h
      · obtain rfl := Option.some.inj ht
        exact .of_kept ((h.kept hparent).quit hpc) hparent
  | remove role =>
      obtain ⟨hreads, ht⟩ := Option.ite_none_right_eq_some.mp hstep
      obtain ⟨hparent, hpc⟩ := reads_iff.mp hreads
      split at ht
      · obtain rfl := Option.some.inj ht
        exact h
      · rename_i pid hpid
        obtain rfl := Option.some.inj ht
        exact .of_kept ((h.kept hparent).removeChild hpc hpid)
          ((parent_removeChild s.state role).trans hparent)
  | quit =>
      obtain ⟨hreads, ht⟩ := Option.ite_none_right_eq_some.mp hstep
      obtain ⟨hparent, hpc⟩ := reads_iff.mp hreads
      obtain rfl := Option.some.inj ht
      exact .of_kept ((h.kept hparent).quit hpc) hparent
  | parent =>
      obtain ⟨hparent, ht⟩ := Option.ite_none_right_eq_some.mp hstep
      exact .of_kept ((h.kept hparent).parentStep ht) ((parent_parentStep ht).trans hparent)

end Steps

theorem sound_start (memory : MsgQueue) : Sound (.start memory) := by
  refine .of_kept ⟨List.nodup_nil, fun pid => ?_, rfl, rfl⟩ rfl
  simp [isLive, Session.start, init, Session.toEnd]

theorem sound_of_reaches {memory : MsgQueue} {s : Session}
    (h : Reaches sessionStep anything (.start memory) s) : Sound s :=
  h.invariant (I := Sound) (sound_start memory) fun _ _ _ hu _ hstep => hu.step hstep

/-- Until the handler starts, the sessions are runs of the processes and commands, with the removals
taken as single steps. -/
theorem reaches_state {memory : MsgQueue} {s : Session}
    (h : Reaches sessionStep anything (.start memory) s) (hpc : s.pc.beforeExit = true) :
    Reaches Lab4.step anything (init memory) s.state := by
  revert hpc
  refine h.invariant (I := fun u => u.pc.beforeExit = true →
    Reaches Lab4.step anything (init memory) u.state) (fun _ => .refl) ?_
  intro u m v hu _ hstep hpc
  have hgo : ∀ {a : Action} {w : State}, u.pc = .getchar → Lab4.step u.state a = some w →
      Reaches Lab4.step anything (init memory) w := by
    intro a w hread hnext
    exact (hu (by rw [hread]; rfl)).tail ⟨a, trivial, hnext⟩
  cases m with
  | run pid rnd =>
      obtain ⟨w, hrun, rfl⟩ := Option.map_eq_some_iff.mp hstep
      exact (hu hpc).tail ⟨.run pid rnd, trivial, hrun⟩
  | create role msg counter =>
      obtain ⟨hreads, ht⟩ := Option.ite_none_right_eq_some.mp hstep
      obtain ⟨hparent, hread⟩ := reads_iff.mp hreads
      obtain rfl := Option.some.inj ht
      cases role with
      | producer => exact hgo (a := .createProducer msg counter) hread (if_pos hparent)
      | consumer => exact hgo (a := .createConsumer msg counter) hread (if_pos hparent)
  | forkFails role =>
      obtain ⟨hreads, ht⟩ := Option.ite_none_right_eq_some.mp hstep
      split at ht
      · obtain rfl := Option.some.inj ht
        exact hu hpc
      · obtain rfl := Option.some.inj ht
        cases hpc
  | remove role =>
      obtain ⟨hreads, ht⟩ := Option.ite_none_right_eq_some.mp hstep
      obtain ⟨hparent, hread⟩ := reads_iff.mp hreads
      split at ht
      · obtain rfl := Option.some.inj ht
        exact hu hpc
      · obtain rfl := Option.some.inj ht
        cases role with
        | producer => exact hgo (a := .removeProducer) hread (if_pos hparent)
        | consumer => exact hgo (a := .removeConsumer) hread (if_pos hparent)
  | quit =>
      obtain ⟨-, ht⟩ := Option.ite_none_right_eq_some.mp hstep
      obtain rfl := Option.some.inj ht
      cases hpc
  | parent =>
      obtain ⟨-, ht⟩ := Option.ite_none_right_eq_some.mp hstep
      obtain ⟨hstate, hbefore⟩ := parentStep_before ht hpc
      rw [hstate]
      exact hu hbefore

/-! ## The way to the end -/

/-- What the parent does by itself. -/
def OfParent (_ : Session) (m : Move) : Prop := m = .quit ∨ m = .parent

/-- A bound on the statements that the parent is away from its end. -/
def Session.rank (s : Session) : ℕ :=
  let left (role : Role) (i : ℕ) := 2 * ((s.state.table role).length - i) +
    2 * (s.state.behind role).length
  match s.pc with
  | .removed => 2 * (s.state.producers.length + s.state.consumers.length) + 6
  | .getchar => 2 * (s.state.producers.length + s.state.consumers.length) + 5
  | .killing role i => left role i + (if role = .producer then 3 else 2)
  | .waiting role i => left role (i + 1) + (if role = .producer then 4 else 3)
  | .unlinking => 1
  | .ended => 0

section Way

variable {s t : Session}

/-- The parent never hangs in `wait(NULL)`, and each of its statements brings it nearer to its
end. -/
theorem Kept.nearer (h : Kept s) (hparent : s.state.parent = true) (hend : s.pc ≠ .ended) :
    ∃ m t, OfParent s m ∧ sessionStep s m = some t ∧ t.rank < s.rank := by
  have hwait : ∀ pc, s.pc.waits = 1 →
      s.wait pc = some { s with zombies := s.zombies - 1, pc := pc } := by
    intro pc hpos
    rw [Session.wait, if_neg (by rw [h.zombies, hpos]; decide)]
  cases hpc : s.pc with
  | getchar =>
      refine ⟨.quit, _, .inl rfl, if_pos (reads_iff.mpr ⟨hparent, hpc⟩), ?_⟩
      simp [Session.rank, hpc, State.table, State.behind]
      omega
  | removed =>
      refine ⟨.parent, { s with zombies := s.zombies - 1, pc := .getchar }, .inr rfl, ?_, ?_⟩
      · rw [sessionStep, if_pos hparent, Lab4.parentStep, hpc]
        exact hwait _ (by rw [hpc]; rfl)
      · simp [Session.rank, hpc]
  | killing role i =>
      cases hpid : (s.state.table role)[i]? with
      | some pid =>
          have hi := (List.getElem?_eq_some_iff.mp hpid).1
          refine ⟨.parent, { s.kill pid with pc := .waiting role i }, .inr rfl, ?_, ?_⟩
          · simp only [sessionStep, if_pos hparent, Lab4.parentStep, hpc, hpid]
          · have htable : (s.kill pid).state.table role = s.state.table role := by
              cases role <;> rfl
            have hbehind : (s.kill pid).state.behind role = s.state.behind role := by
              cases role <;> rfl
            simp only [Session.rank, hpc, htable, hbehind]
            split <;> omega
      | none =>
          refine ⟨.parent, { s with pc := role.next }, .inr rfl, ?_, ?_⟩
          · simp only [sessionStep, if_pos hparent, Lab4.parentStep, hpc, hpid]
          · cases role with
            | producer =>
                simp only [Session.rank, hpc, Role.next, State.table, State.behind,
                  List.length_nil, if_true, reduceCtorEq, if_false]
                omega
            | consumer =>
                simp only [Session.rank, hpc, Role.next, reduceCtorEq, if_false]
                omega
  | waiting role i =>
      refine ⟨.parent, { s with zombies := s.zombies - 1, pc := .killing role (i + 1) }, .inr rfl,
        ?_, ?_⟩
      · rw [sessionStep, if_pos hparent, Lab4.parentStep, hpc]
        exact hwait _ (by rw [hpc]; rfl)
      · simp only [Session.rank, hpc]
        split <;> omega
  | unlinking =>
      refine ⟨.parent, { s with pc := .ended }, .inr rfl, ?_, ?_⟩
      · simp only [sessionStep, if_pos hparent, Lab4.parentStep, hpc]
      · simp [Session.rank, hpc]
  | ended => exact absurd hpc hend

theorem Kept.ofParent (h : Kept s) (hparent : s.state.parent = true) {m : Move}
    (hm : OfParent s m) (hstep : sessionStep s m = some t) :
    Kept t ∧ t.state.parent = true := by
  rcases hm with rfl | rfl
  · obtain ⟨hreads, ht⟩ := Option.ite_none_right_eq_some.mp hstep
    obtain rfl := Option.some.inj ht
    exact ⟨h.quit (reads_iff.mp hreads).2, hparent⟩
  · obtain ⟨-, ht⟩ := Option.ite_none_right_eq_some.mp hstep
    exact ⟨h.parentStep ht, (parent_parentStep ht).trans hparent⟩

theorem Kept.ends (h : Kept s) (hparent : s.state.parent = true) :
    ∃ t, Reaches sessionStep OfParent s t ∧ Kept t ∧ t.pc = .ended := by
  obtain ⟨t, ht, ⟨hkept, -⟩, hend⟩ : ∃ t, Reaches sessionStep OfParent s t ∧
      (Kept t ∧ t.state.parent = true) ∧ t.pc = .ended := by
    apply Reaches.exists_final (I := fun u => Kept u ∧ u.state.parent = true) Session.rank ?_
      ⟨h, hparent⟩
    intro u hu hend
    obtain ⟨m, v, hm, hstep, hlt⟩ := hu.1.nearer hu.2 hend
    exact ⟨m, v, hm, hstep, hu.1.ofParent hu.2 hm hstep, hlt⟩
  exact ⟨t, ht, hkept, hend⟩

theorem Kept.nobody (h : Kept s) (hend : s.pc = .ended) :
    s.zombies = 0 ∧ ∀ pid, isLive s.state.procs pid = false := by
  refine ⟨by rw [h.zombies, hend]; rfl, fun pid => ?_⟩
  rw [← Bool.not_eq_true, h.live_iff]
  simp only [Session.toEnd, hend, List.not_mem_nil, not_false_eq_true]

end Way

/-- Whatever is created and removed and however the processes run meanwhile: as long as none of them
leaves through an exit, the processes that live are those in the tables that the parent has not
killed yet, no `wait(NULL)` hangs, and the parent can always go on to its end, where none lives and
all have been waited for. A process that leaves through an exit takes the parent with it, and from
then on nobody ends the others. -/
theorem quit_kills_all {memory : MsgQueue} {s : Session}
    (h : Reaches sessionStep anything (.start memory) s) :
    (s.state.fault = none →
      (∀ pid, isLive s.state.procs pid = true ↔ pid ∈ s.toEnd) ∧
      (s.pc = .ended → s.zombies = 0 ∧ ∀ pid, isLive s.state.procs pid = false) ∧
      ∃ t, Reaches sessionStep OfParent s t ∧ t.pc = .ended ∧ t.zombies = 0 ∧
        ∀ pid, isLive t.state.procs pid = false) ∧
    (s.state.fault ≠ none → ∀ m t, sessionStep s m = some t → ∃ pid rnd, m = .run pid rnd) := by
  have hsound := sound_of_reaches h
  constructor
  · intro hfault
    have hparent : s.state.parent = true := by
      cases hdead : s.state.parent with
      | true => rfl
      | false => exact absurd hfault (hsound.fault hdead)
    have hkept := hsound.kept hparent
    obtain ⟨t, ht, hkept', hend⟩ := hkept.ends hparent
    obtain ⟨hzombies, hnobody⟩ := hkept'.nobody hend
    exact ⟨hkept.live_iff, hkept.nobody, t, ht, hend, hzombies, hnobody⟩
  · intro hfault m t hstep
    have hdead : s.state.parent = false := by
      cases hparent : s.state.parent with
      | true => exact absurd (hsound.kept hparent).fault hfault
      | false => rfl
    cases m with
    | run pid rnd => exact ⟨pid, rnd, rfl⟩
    | create role msg counter => simp [sessionStep, Session.reads, hdead] at hstep
    | forkFails role => simp [sessionStep, Session.reads, hdead] at hstep
    | remove role => simp [sessionStep, Session.reads, hdead] at hstep
    | quit => simp [sessionStep, Session.reads, hdead] at hstep
    | parent => simp [sessionStep, hdead] at hstep

/-- Two producers and a consumer are created, a producer starts a message and is removed, and `q` is
typed. -/
def createdAndQuit : List Move :=
  [.create .producer Msg.zero 0, .create .consumer Msg.zero 0, .create .producer Msg.zero 0,
    .run 2 noRand, .run 2 noRand, .remove .producer, .parent, .run 0 noRand, .quit, .parent]

theorem quit_kills_all_handler :
    ∃ s, Reaches sessionStep anything (.start zeroMemory) s ∧ s.pc = .waiting .producer 0 ∧
      s.toEnd = [1] ∧ isLive s.state.procs 1 = true ∧
      ∃ t, Reaches sessionStep OfParent s t ∧ t.pc = .ended ∧
        ∀ pid, isLive t.state.procs pid = false := by
  have hrun : ∃ s, exec sessionStep (.start zeroMemory) createdAndQuit = some s ∧
      s.pc = .waiting .producer 0 ∧ s.toEnd = [1] ∧ s.state.fault = none := ⟨_, rfl, rfl, rfl, rfl⟩
  obtain ⟨s, hexec, hpc, htoEnd, hfault⟩ := hrun
  have hreach := reaches_anything_of_exec hexec
  obtain ⟨hlive, -, t, ht, hend, -, hnobody⟩ := (quit_kills_all hreach).1 hfault
  exact ⟨s, hreach, hpc, htoEnd, (hlive 1).mpr (by rw [htoEnd]; decide), t, ht, hend, hnobody⟩

end OsaspLabs.Lab4
