import OsaspLabs.Lab7.WakeUps

/-! # The full queue of LAB_7 p1

The wait loop of a producer lets it pass with `MSG_MAX - 1` messages in the queue, and
`add_msg` takes its exit there. -/

namespace OsaspLabs.Lab7

open Ipc (Fault)
open Runs

/-! ## The overflow exit -/

theorem addMsg_overflow {q : MsgStruct} {m : Msg} (h : addMsg q m = .error overflow) :
    q.messageAmount = msgMax - 1 := by
  unfold addMsg at h
  split at h
  · assumption
  · split at h
    · cases h
    · simp [overflow] at h

/-- The overflow exit is taken by a producer in `add_msg`, one message short of a full
buffer. -/
theorem threadStep_overflow {self : ℕ} {rnd : Rand} {q : MsgStruct} {m : Option ℕ}
    {th : Thread} (h : threadStep self rnd q m th = .exit overflow) :
    th.role = .producer ∧ th.pc = .access ∧ q.messageAmount = msgMax - 1 := by
  obtain ⟨hpc, hexit⟩ := threadStep_exit h
  rcases access_exit hexit with ⟨hrole, hadd⟩ | ⟨hrole, hget⟩
  · exact ⟨hrole, hpc, addMsg_overflow hadd⟩
  · unfold getMsg at hget
    split at hget
    · simp [overflow, underflow, red] at hget
    · split at hget
      · cases hget
      · simp [overflow] at hget

/-! ## The two guards -/

/-- No producer tests its wait loop with `MSG_MAX - 1` messages in the queue. -/
def LeavesRoom (s : State) (a : Action) : Prop :=
  ∀ (tid : ℕ) (rnd : Rand) (th : Thread), a = .run tid rnd → s.threads[tid]? = some th →
    th.role = .producer → th.pc = .test → s.queue.messageAmount ≠ msgMax - 1

/-- Under that condition a producer gets to `add_msg` only with room for its message. -/
theorem room_of_reaches {memory : MsgStruct} {s : State}
    (h : Reaches step LeavesRoom (init memory) s) :
    Owned s ∧ s.fault ≠ some overflow ∧ ∀ th ∈ s.threads, th.role = .producer →
      th.pc = .access → s.queue.messageAmount ≠ msgMax - 1 := by
  refine h.invariant (I := fun u => Owned u ∧ u.fault ≠ some overflow ∧ ∀ th ∈ u.threads,
    th.role = .producer → th.pc = .access → u.queue.messageAmount ≠ msgMax - 1)
    ⟨Owned.init memory, by simp [init], by simp [init]⟩ ?_
  rintro u a v ⟨ho, _, hroom⟩ hleaves hstep
  have he := step_effect hstep
  refine ⟨ho.step he, ?_, ?_⟩
  · rcases step_fault hstep with hnone | ⟨tid, rnd, th, e, _, hth, hexit, hfault⟩
    · simp [hnone]
    · rintro hover
      obtain rfl := Option.some.inj (hfault.symm.trans hover)
      obtain ⟨hrole, hpc, hamount⟩ := threadStep_overflow hexit
      exact hroom th (List.mem_of_getElem? hth) hrole hpc hamount
  · refine he.protects (.inr rfl) ho (P := fun q => q.messageAmount ≠ msgMax - 1) hroom ?_
    intro tid rnd th q m th' ha hth next hrole hpc
    obtain ⟨htest, rfl, hsame, _⟩ := threadStep_test (.inr hpc) next
    exact hleaves tid rnd th ha hth (hsame.symm.trans hrole) htest

/-- From the test of its wait loop, a producer goes on into the overflow exit exactly if the
queue is one message short of full. -/
theorem overflow_after_test_iff {s : State} (ho : Owned s) (hc : Counted s.queue)
    (hfault : s.fault = none) {tid : ℕ} {th : Thread} (hth : s.threads[tid]? = some th)
    (hrole : th.role = .producer) (hpc : th.pc = .test) (rnd rnd' : Rand) :
    (∃ s', exec step s [.run tid rnd, .run tid rnd'] = some s' ∧ s'.fault = some overflow) ↔
      s.queue.messageAmount = msgMax - 1 := by
  obtain ⟨hlt, _⟩ := List.getElem?_eq_some_iff.mp hth
  have hlive : th.terminated = false := by
    have hstop := ho.stopped th (List.mem_of_getElem? hth)
    cases hterm : th.terminated <;> simp_all [Thread.stopped, cancellationPoint]
  have hamount := hc.amount_lt
  have hpass : mustWait s.queue th.role = false := by
    rw [hrole]
    simp only [mustWait, decide_eq_false_iff_not]
    omega
  have htest : step s (.run tid rnd) =
      some { s with threads := s.threads.set tid { th with pc := .access } } := by
    simp [step, hfault, runThread, hth, hlive, threadStep, hpc, hpass]
  have hexit : ∀ e, addMsg s.queue th.msg = .error e →
      step { s with threads := s.threads.set tid { th with pc := .access } } (.run tid rnd') =
        some { s with
          threads := s.threads.set tid { th with pc := .access }, fault := some e } := by
    intro e hmsg
    simp [step, hfault, runThread, hlt, hlive, threadStep, access, hrole, hmsg]
  have hput : ∀ n q, addMsg s.queue th.msg = .ok (n, q) →
      ∃ s', step { s with threads := s.threads.set tid { th with pc := .access } }
        (.run tid rnd') = some s' ∧ s'.fault = none := by
    intro n q hmsg
    simp [step, hfault, runThread, hlt, hlive, threadStep, access, hrole, hmsg]
  simp only [exec, htest, Option.bind_some]
  constructor
  · rintro ⟨s', hs', hover⟩
    obtain ⟨s'', hs'', hsome⟩ := Option.bind_eq_some_iff.mp hs'
    obtain rfl := Option.some.inj hsome
    cases hmsg : addMsg s.queue th.msg with
    | error e =>
        rw [hexit e hmsg] at hs''
        obtain rfl := Option.some.inj hs''
        obtain rfl := Option.some.inj hover
        exact addMsg_overflow hmsg
    | ok r =>
        obtain ⟨t, ht, hnone⟩ := hput r.1 r.2 hmsg
        obtain rfl := Option.some.inj (ht.symm.trans hs'')
        simp [hnone] at hover
  · intro hfull
    have hmsg : addMsg s.queue th.msg = .error overflow := by
      unfold addMsg
      rw [if_pos hfull]
    rw [hexit overflow hmsg]
    exact ⟨_, rfl, rfl⟩

/-- The wait loop tests for another capacity than `add_msg`: exactly with `MSG_MAX - 1`
messages a producer passes it into the exit, and a run in which no producer tests it then
takes no overflow exit. -/
theorem full_queue_blocks_iff (memory : MsgStruct) (s : State) :
    (Reaches step anything (init memory) s → s.fault = none →
      ∀ (tid : ℕ) (th : Thread) (rnd rnd' : Rand), s.threads[tid]? = some th →
        th.role = .producer → th.pc = .test →
        ((∃ s', exec step s [.run tid rnd, .run tid rnd'] = some s' ∧
            s'.fault = some overflow) ↔ s.queue.messageAmount = msgMax - 1)) ∧
      (Reaches step LeavesRoom (init memory) s → s.fault ≠ some overflow) :=
  ⟨fun h hfault _ _ rnd rnd' hth hrole hpc =>
    overflow_after_test_iff (owned_of_reaches h) (counted_of_reaches h) hfault hth hrole hpc
      rnd rnd',
    fun h => (room_of_reaches h).2.1⟩

theorem full_queue_blocks_iff_plus :
    ∃ s, exec step (init zeroMemory) [.command .plus, .run 0 noRand, .run 0 noRand] = some s ∧
      ((∃ s', exec step s [.run 0 noRand, .run 0 noRand] = some s' ∧
        s'.fault = some overflow) ↔ s.queue.messageAmount = msgMax - 1) ∧
      s.fault ≠ some overflow := by
  have hempty : ∀ {u : State} {a : Action}, u.queue.messageAmount = 0 → LeavesRoom u a := by
    intro u a hu _ _ _ _ _ _ _
    rw [hu]
    decide
  have hrun : ∃ u v s, step (init zeroMemory) (.command .plus) = some u ∧
      step u (.run 0 noRand) = some v ∧ step v (.run 0 noRand) = some s ∧
      u.queue.messageAmount = 0 ∧ v.queue.messageAmount = 0 ∧ s.fault = none ∧
      (s.threads[0]?.map fun th => (th.role, th.pc)) = some (.producer, .test) :=
    ⟨_, _, _, rfl, rfl, rfl, rfl, rfl, rfl, rfl⟩
  obtain ⟨u, v, s, hu, hv, hs, huq, hvq, hfault, hat⟩ := hrun
  obtain ⟨th, hth, hpc⟩ := Option.map_eq_some_iff.mp hat
  obtain ⟨hrole, hpc⟩ := Prod.mk.inj hpc
  have hexec : exec step (init zeroMemory) [.command .plus, .run 0 noRand, .run 0 noRand] =
      some s := by
    simp [exec, hu, hv, hs]
  have hroom : Reaches step LeavesRoom (init zeroMemory) s :=
    .head ⟨_, hempty rfl, hu⟩ (.head ⟨_, hempty huq, hv⟩ (.single ⟨_, hempty hvq, hs⟩))
  exact ⟨s, hexec,
    (full_queue_blocks_iff zeroMemory s).1 (reaches_anything_of_exec hexec) hfault 0 th noRand
      noRand hth hrole hpc,
    (full_queue_blocks_iff zeroMemory s).2 hroom⟩

/-! ## The queue filled by the user -/

/-- The program without other threads, its main thread in the code of '+'. -/
def alone (q : MsgStruct) (m : Option ℕ) (pc : Pc) (msg : Msg) (n : ℤ) : State :=
  { init zeroMemory with
    queue := q, mutex := m, threads := [⟨.producer, pc, msg, n, false, false⟩] }

/-- Up to `add_msg`. -/
theorem plus_to_access {q : MsgStruct} (hroom : q.messageAmount ≠ msgMax) (msg : Msg) (n : ℤ) :
    Reaches step anything (alone q none .getchar msg n)
      (alone q (some 0) .access (produce noRand msg) n) := by
  have hcommand : Runs.Step step anything (alone q none .getchar msg n)
      (alone q none .produce msg n) := ⟨.command .plus, trivial, rfl⟩
  have hproduce : Runs.Step step anything (alone q none .produce msg n)
      (alone q none .lock (produce noRand msg) n) := ⟨.run 0 noRand, trivial, rfl⟩
  have hlock : Runs.Step step anything (alone q none .lock (produce noRand msg) n)
      (alone q (some 0) .test (produce noRand msg) n) := ⟨.run 0 noRand, trivial, rfl⟩
  have htest : Runs.Step step anything (alone q (some 0) .test (produce noRand msg) n)
      (alone q (some 0) .access (produce noRand msg) n) := by
    refine ⟨.run 0 noRand, trivial, ?_⟩
    simp [step, runThread, alone, init, threadStep, mustWait, hroom]
  exact .head hcommand (.head hproduce (.head hlock (.single htest)))

/-- The rest of the turn, with nobody to wake. -/
theorem plus_turn {q q' : MsgStruct} {k : ℕ} (hroom : q.messageAmount ≠ msgMax) (msg : Msg)
    (n : ℤ) (hadd : addMsg q (produce noRand msg) = .ok (k, q')) :
    Reaches step anything (alone q none .getchar msg n)
      (alone q' none .getchar (produce noRand msg) k) := by
  have haccess : Runs.Step step anything (alone q (some 0) .access (produce noRand msg) n)
      (alone q' (some 0) .signal (produce noRand msg) k) := by
    refine ⟨.run 0 noRand, trivial, ?_⟩
    simp [step, runThread, alone, init, threadStep, access, hadd]
  have hsignal : Runs.Step step anything (alone q' (some 0) .signal (produce noRand msg) k)
      (alone q' (some 0) .unlock (produce noRand msg) k) := ⟨.signal 0 none, trivial, rfl⟩
  have hunlock : Runs.Step step anything (alone q' (some 0) .unlock (produce noRand msg) k)
      (alone q' none .printf (produce noRand msg) k) := ⟨.run 0 noRand, trivial, rfl⟩
  have hprintf : Runs.Step step anything (alone q' none .printf (produce noRand msg) k)
      (alone q' none .getchar (produce noRand msg) k) := ⟨.run 0 noRand, trivial, rfl⟩
  exact (plus_to_access hroom msg n).trans
    (.head haccess (.head hsignal (.head hunlock (.single hprintf))))

theorem plus_fill (turns : ℕ) (hturns : turns ≤ msgMax - 1) :
    ∃ q msg n, Reaches step anything (init zeroMemory) (alone q none .getchar msg n) ∧
      Counted q ∧ q.tail = 0 ∧ q.messageAmount = turns := by
  induction turns with
  | zero => exact ⟨_, _, _, .refl, counted_initQueue zeroMemory, rfl, rfl⟩
  | succ turns ih =>
      obtain ⟨q, msg, n, hrun, hcounted, htail, hamount⟩ := ih (by omega)
      have hsum := hcounted.amount
      have hhead : q.head < msgMax := by omega
      obtain ⟨k, q', hadd, htail'⟩ : ∃ k q', addMsg q (produce noRand msg) = .ok (k, q') ∧
          q'.tail = q.tail := by
        unfold addMsg
        rw [if_neg (by omega), dif_pos hhead]
        exact ⟨_, _, rfl, rfl⟩
      have hgrow := addMsg_amount hadd
      exact ⟨q', _, _, hrun.trans (plus_turn (by omega) msg n hadd),
        addMsg_counted hcounted hadd, by omega, by omega⟩

/-- The user types '+' once for each slot of `buffer`, and the program ends. -/
theorem plus_overflows :
    ¬ ∀ (memory : MsgStruct) (s : State), Reaches step anything (init memory) s →
      s.fault ≠ some overflow := by
  intro hall
  obtain ⟨q, msg, n, hrun, _, _, hamount⟩ := plus_fill (msgMax - 1) le_rfl
  have hfull : q.messageAmount ≠ msgMax := by
    rw [hamount]
    decide
  have hadd : addMsg q (produce noRand msg) = .error overflow := by
    unfold addMsg
    rw [if_pos hamount]
  have hexit : Runs.Step step anything (alone q (some 0) .access (produce noRand msg) n)
      { alone q (some 0) .access (produce noRand msg) n with fault := some overflow } := by
    refine ⟨.run 0 noRand, trivial, ?_⟩
    simp [step, runThread, alone, init, threadStep, access, hadd]
  exact hall zeroMemory _ ((hrun.trans (plus_to_access hfull msg n)).tail hexit) rfl

end OsaspLabs.Lab7
