import OsaspLabs.Ipc.Progress
import OsaspLabs.Lab4.Removal
import OsaspLabs.Lab4.Statements

/-! # What a killed process of LAB_4 leaves behind

If it was inside the critical section, nobody gets in again. If no killed process has stopped
between its semaphore operations, the others can go on. -/

namespace OsaspLabs.Lab4

open Ipc Runs

def Alone (_ : State) (a : Action) : Prop := ∃ pid rnd, a = .run pid rnd

def State.crew (s : State) : Crew ℕ := ⟨s.shared, s.workers⟩

/-- `u` is what steps of the live processes of `s` have made of it. -/
structure GoneOn (s u : State) (c : Crew ℕ) : Prop where
  crew : u.crew = c
  live : u.procs.map Proc.live = s.procs.map Proc.live

def May (s : State) (pid : ℕ) (_ : Pc) : Prop :=
  ∃ p, s.procs[pid]? = some p ∧ p.live = true

theorem GoneOn.proc {s u : State} {c : Crew ℕ} {pid : ℕ} {w : Worker} {pc : Pc}
    (h : GoneOn s u c) (hw : c.workers[pid]? = some w) (hmay : May s pid pc) :
    u.procs[pid]? = some ⟨w, true⟩ := by
  have hworkers : u.workers = c.workers := congrArg Crew.workers h.crew
  rw [← hworkers, State.workers, List.getElem?_map] at hw
  obtain ⟨p, hp, rfl⟩ := Option.map_eq_some_iff.mp hw
  obtain ⟨p₀, hp₀, hlive⟩ := hmay
  have hsame : (s.procs.map Proc.live)[pid]? = some p.live := by
    rw [← h.live, List.getElem?_map, hp]
    rfl
  rw [List.getElem?_map, hp₀] at hsame
  have hp_live : p.live = true := (Option.some.inj hsame).symm.trans hlive
  rw [hp, ← hp_live]

theorem GoneOn.next {s u : State} {c c' : Crew ℕ} {pid : ℕ} (h : GoneOn s u c)
    (hallowed : c.Allowed (May s) pid) (hstep : crewStep program c pid = some c') :
    ∃ u', Runs.Step Lab4.step Alone u u' ∧ GoneOn s u' c' := by
  obtain ⟨w, hw, hmay⟩ := hallowed
  have hp := h.proc hw hmay
  have hshared : u.shared = c.shared := congrArg Crew.shared h.crew
  have hworkers : u.workers = c.workers := congrArg Crew.workers h.crew
  simp only [crewStep, hw] at hstep
  cases hnext : workerStep program pid noRand c.shared w with
  | blocked | exit e =>
      rw [hnext] at hstep
      cases hstep
  | next sh w' =>
      rw [hnext] at hstep
      obtain rfl := Option.some.inj hstep
      refine ⟨{ u with shared := sh, procs := u.procs.set pid ⟨w', true⟩ },
        ⟨.run pid noRand, ⟨pid, noRand, rfl⟩, ?_⟩, ?_, ?_⟩
      · simp only [Lab4.step, runProc, hp, if_true, hshared, hnext]
      · show Crew.mk sh ((u.procs.set pid ⟨w', true⟩).map Proc.worker) = _
        rw [List.map_set, ← hworkers]
        rfl
      · rw [← h.live]
        exact map_set_eq hp rfl

theorem GoneOn.reaches {s : State} {c : Crew ℕ}
    (h : Reaches (crewStep program) (Crew.Allowed (May s)) s.crew c) :
    ∃ u, Reaches Lab4.step Alone s u ∧ GoneOn s u c := by
  apply h.simulate (R := fun c u => GoneOn s u c) ⟨rfl, rfl⟩
  intro c pid c' u hgone hallowed hstep
  obtain ⟨u', hu', hgone'⟩ := hgone.next hallowed hstep
  exact ⟨u', .single hu', hgone'⟩

theorem NoneStranded.crew {s : State} (h : NoneStranded s)
    (hb : Balanced program s.shared s.workers) : s.crew.Ok program (May s) where
  balanced := hb
  holders pid w hw hholds := by
    have hworker : s.workers[pid]? = some w := hw
    rw [State.workers, List.getElem?_map] at hworker
    obtain ⟨p, hp, rfl⟩ := Option.map_eq_some_iff.mp hworker
    refine ⟨p, hp, ?_⟩
    cases hlive : p.live with
    | true => rfl
    | false =>
        rw [h p (List.mem_of_getElem? hp) hlive] at hholds
        cases hholds

/-! ## Dead in the critical section -/

/-- A killed process has stopped inside the critical section. -/
def DeadInside (s : State) : Prop :=
  ∃ (pid : ℕ) (p : Proc), s.procs[pid]? = some p ∧ p.live = false ∧
    p.worker.pc.inCriticalSection = true

theorem getElem?_kill {procs : List Proc} {pid v : ℕ} {p : Proc} (h : procs[v]? = some p)
    (hdead : p.live = false) : (kill procs pid)[v]? = some p := by
  rw [kill, List.getElem?_modify, h]
  by_cases hv : pid = v
  · simp [hv, ← hdead]
  · simp [hv]

theorem DeadInside.next {s s' : State} {a : Action} (h : DeadInside s) (he : Effect s a s') :
    DeadInside s' := by
  obtain ⟨v, p, hp, hdead, hcs⟩ := h
  refine ⟨v, p, ?_, hdead, hcs⟩
  cases he with
  | work pid rnd p' sh w action at? live next shared procs fault =>
      have hne : pid ≠ v := by
        intro heq
        subst heq
        obtain rfl := Option.some.inj (hp.symm.trans at?)
        rw [live] at hdead
        cases hdead
      rw [procs, List.getElem?_set_ne hne, hp]
  | exit pid rnd p' e action at? live next shared procs fault =>
      rw [procs]
      exact getElem?_kill hp hdead
  | fork w start spares shared procs fault =>
      rw [procs, List.getElem?_append_left (List.getElem?_eq_some_iff.mp hp).1, hp]
  | kill pid action shared procs fault =>
      rw [procs]
      exact getElem?_kill hp hdead
  | refuse same => rw [same, hp]

/-- Nobody else is at a queue call, so nothing is shown. -/
theorem DeadInside.silent {s s' : State} {a : Action} (h : DeadInside s)
    (hb : Balanced program s.shared s.workers) (hstep : step s a = some s') : shows s a = [] := by
  obtain ⟨v, p, hp, hdead, hcs⟩ := h
  cases a with
  | run pid rnd =>
      simp only [step, runProc] at hstep
      split at hstep
      · cases hstep
      · rename_i p' hp'
        have hlive : p'.live = true := by
          by_contra hlive
          rw [if_neg hlive] at hstep
          cases hstep
        have hw : s.workers[pid]? = some p'.worker := by simp [State.workers, hp']
        have hv : s.workers[v]? = some p.worker := by simp [State.workers, hp]
        have hout : p'.worker.pc.inCriticalSection = false := by
          cases hcs' : p'.worker.pc.inCriticalSection with
          | false => rfl
          | true =>
              obtain rfl := hb.exclusive hw hv hcs' hcs
              obtain rfl := Option.some.inj (hp.symm.trans hp')
              rw [hlive] at hdead
              cases hdead
        simp only [shows, hp']
        apply workerEvents_outside
        · intro hpc
          rw [hpc] at hout
          cases hout
        · intro hpc
          rw [hpc] at hout
          cases hout
  | createProducer | createConsumer | removeProducer | removeConsumer => rfl

/-- A process killed inside the critical section ends the traffic for good: in no run from there
is a message put or got again, whoever is created or removed. If on the other hand no killed
process has stopped between its semaphore operations, then as long as a producer and a consumer
live, the processes can go on alone until one takes the next message out, or a producer exits on
a full queue. -/
theorem traffic_after_removals {memory : MsgQueue} {s : State}
    (h : Reaches step anything (init memory) s) :
    (DeadInside s → ∀ es u, Traced step shows s es u → es = []) ∧
    (NoneStranded s → ∀ (p c : ℕ) (procp procc : Proc), s.procs[p]? = some procp →
      procp.live = true → procp.worker.pc.isProducer = true → s.procs[c]? = some procc →
      procc.live = true → procc.worker.pc.isProducer = false →
      ∃ u pid v, Reaches step Alone s u ∧ step u (.run pid noRand) = some v ∧
        ((∃ m n, shows u (.run pid noRand) = [.got pid m n]) ∨ v.fault = some overflow)) := by
  have hb := balanced_of_reaches h
  constructor
  · intro hdead es u hrun
    have hend : (DeadInside u ∧ Balanced program u.shared u.workers) ∧ es = [] := by
      apply hrun.invariant (I := fun es u =>
        (DeadInside u ∧ Balanced program u.shared u.workers) ∧ es = []) ⟨⟨hdead, hb⟩, rfl⟩
      rintro fs u a v ⟨⟨hdead, hb⟩, rfl⟩ hstep
      have he := step_effect hstep
      exact ⟨⟨hdead.next he, he.balanced hb⟩, hdead.silent hb hstep⟩
    exact hend.2
  · intro hstranded p c procp procc hp hlivep hkp hc hlivec hkc
    have hok := hstranded.crew hb
    have hmanned : s.crew.Manned p c := {
      producer := ⟨procp.worker, by simp [State.crew, State.workers, hp], hkp⟩
      consumer := ⟨procc.worker, by simp [State.crew, State.workers, hc], hkc⟩ }
    obtain ⟨d, hrun, hokd, pid, w, hw, hcases⟩ := hok.reaches_ready admits_semaphore
      (fun _ _ _ hmay _ => hmay) (fun _ => ⟨procp, hp, hlivep⟩) (fun _ => ⟨procc, hc, hlivec⟩)
      hmanned
    obtain ⟨u, hu, hgone⟩ := GoneOn.reaches hrun
    have hholds : w.pc.holdsSlot = true := by
      rcases hcases with hpc | ⟨hpc, -⟩
      · rw [hpc]
        rfl
      · rw [hpc]
        rfl
    have hproc := hgone.proc hw (hokd.holders pid w hw hholds)
    have hshared : u.shared = d.shared := congrArg Crew.shared hgone.crew
    rcases hcases with hpc | ⟨hpc, hover⟩
    · obtain ⟨m, n, q, hget⟩ := hokd.balanced.getMsg_ok hw hpc
      rw [← hshared] at hget
      have hnext : step u (.run pid noRand) = some { u with
          shared := { u.shared with queue := q }
          procs := u.procs.set pid ⟨⟨.consumer .unlock, m, n⟩, true⟩ } := by
        simp only [step, runProc, hproc, if_true, workerStep, hpc, consumerStep, hget]
      refine ⟨u, pid, _, hu, hnext, .inl ⟨m, n, ?_⟩⟩
      simp only [shows, hproc, workerEvents, hpc, hget]
    · rw [← hshared] at hover
      have hnext : step u (.run pid noRand) = some (exitChild u pid overflow) := by
        simp only [step, runProc, hproc, if_true, workerStep, hpc, producerStep, hover]
      exact ⟨u, pid, _, hu, hnext, .inr rfl⟩

/-- A producer is killed after `n` steps; another one and a consumer are left. -/
def removeAfter (n : ℕ) : List Action :=
  [.createConsumer Msg.zero 0, .createProducer Msg.zero 0, .createProducer Msg.zero 0] ++
    List.replicate n (.run 2 noRand) ++ [.removeProducer]

/-- It is killed while it puts, or in its `sleep`. -/
theorem traffic_after_removals_one :
    (∃ s, exec step (init zeroMemory) (removeAfter 3) = some s ∧
      ∀ es u, Traced step shows s es u → es = []) ∧
    ∃ s u pid v, exec step (init zeroMemory) (removeAfter 7) = some s ∧
      Reaches step Alone s u ∧ step u (.run pid noRand) = some v ∧
      ((∃ m n, shows u (.run pid noRand) = [.got pid m n]) ∨ v.fault = some overflow) := by
  constructor
  · have hrun : ∃ s, exec step (init zeroMemory) (removeAfter 3) = some s ∧ DeadInside s :=
      ⟨_, rfl, 2, _, rfl, rfl, rfl⟩
    obtain ⟨s, hexec, hdead⟩ := hrun
    exact ⟨s, hexec, (traffic_after_removals (reaches_anything_of_exec hexec)).1 hdead⟩
  · have hrun : ∃ s procp procc, exec step (init zeroMemory) (removeAfter 7) = some s ∧
        s.procs.map (fun p => (p.live, p.worker.pc.holdsSlot)) =
          [(true, false), (true, false), (false, false)] ∧
        s.procs[1]? = some procp ∧ procp.live = true ∧ procp.worker.pc.isProducer = true ∧
        s.procs[0]? = some procc ∧ procc.live = true ∧ procc.worker.pc.isProducer = false :=
      ⟨_, _, _, rfl, rfl, rfl, rfl, rfl, rfl, rfl, rfl⟩
    obtain ⟨s, procp, procc, hexec, hslots, hp, hlivep, hkp, hc, hlivec, hkc⟩ := hrun
    have hstranded : NoneStranded s := by
      intro p hmem _
      have hat := List.mem_map_of_mem (f := fun p => (p.live, p.worker.pc.holdsSlot)) hmem
      rw [hslots] at hat
      simp only [List.mem_cons, Prod.mk.injEq, List.not_mem_nil, or_false] at hat
      tauto
    obtain ⟨u, pid, v, hrun, hstep, hends⟩ :=
      (traffic_after_removals (reaches_anything_of_exec hexec)).2 hstranded 1 0 procp procc hp
        hlivep hkp hc hlivec hkc
    exact ⟨s, u, pid, v, hexec, hrun, hstep, hends⟩

end OsaspLabs.Lab4
