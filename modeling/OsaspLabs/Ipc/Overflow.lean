import OsaspLabs.Ipc.Semaphores

/-! # The bound of the semaphores and the bound of `put_msg`

`free_space` starts at `MSG_MAX`, but `put_msg` refuses the message number `MSG_MAX`. -/

namespace OsaspLabs.Ipc

open Runs

/-- A put is taken only while another slot is free or on its way. -/
def Lab4Spared (s : Lab4.State) (a : Lab4.Action) : Prop :=
  ∀ (pid : ℕ) (rnd : Rand) (w : Worker), a = .run pid rnd → s.workers[pid]? = some w →
    w.pc = .producer .putMsg → SpareSlot s.shared s.workers

def Lab5Spared (s : Lab5.State) (a : Lab5.Action) : Prop :=
  ∀ (tid : ℕ) (rnd : Rand) (w : Worker), a = .run tid rnd → s.workers[tid]? = some w →
    w.pc = .producer .putMsg → SpareSlot s.shared s.workers

section System

variable {L σ α : Type} {sys : System L σ α} {allowed : σ → α → Prop} {memory : MsgQueue} {s : σ}

/-- Whoever puts in `s` leaves a slot. -/
def System.Spared (sys : System L σ α) (s : σ) (a : α) : Prop :=
  ∀ i ∈ sys.runs a, ∀ w ∈ (sys.workers s)[i]?, w.pc = .producer .putMsg →
    SpareSlot (sys.shared s) (sys.workers s)

theorem System.putMsg_iff (h : Reaches sys.step allowed (sys.init memory) s) {i : ℕ} {w : Worker}
    (hw : (sys.workers s)[i]? = some w) (hpc : w.pc = .producer .putMsg) :
    putMsg (sys.shared s).queue w.msg ≠ .error overflow ↔
      SpareSlot (sys.shared s) (sys.workers s) := by
  rw [ne_eq, (System.balanced_of_reaches h).overflow_iff hw hpc, not_not]

theorem System.fault_none (h : Reaches sys.step allowed (sys.init memory) s)
    (hspared : ∀ u a, allowed u a → sys.Spared u a) : sys.fault s = none := by
  have hinv := h.invariant
    (I := fun u => Reaches sys.step allowed (sys.init memory) u ∧ sys.fault u = none)
    ⟨.refl, (sys.starts memory).2⟩
    fun u a v hu hallowed hstep => by
      have hb := System.balanced_of_reaches hu.1
      refine ⟨hu.1.tail ⟨a, hallowed, hstep⟩, ?_⟩
      rcases sys.fault_step hstep hb with hsame | ⟨-, i, w, hact, hw, hpc, hfull⟩
      · exact hsame.trans hu.2
      · exact absurd hfull (hb.not_full_of_spareSlot (hspared u a hallowed i hact w hw hpc))
  exact hinv.2

end System

theorem lab4Spared_iff {s : Lab4.State} {a : Lab4.Action} :
    Lab4Spared s a ↔ lab4.Spared s a := by
  constructor
  · intro h i hact w hw hpc
    cases a with
    | run pid rnd =>
        obtain rfl := Option.some.inj hact
        exact h pid rnd w rfl hw hpc
    | createProducer | createConsumer | removeProducer | removeConsumer => cases hact
  · rintro h pid rnd w rfl hw hpc
    exact h pid rfl w hw hpc

theorem lab5Spared_iff {s : Lab5.State} {a : Lab5.Action} :
    Lab5Spared s a ↔ lab5.Spared s a := by
  constructor
  · intro h i hact w hw hpc
    cases a with
    | run tid rnd =>
        obtain rfl := Option.some.inj hact
        exact h tid rnd w rfl hw hpc
    | cancelled | joined | createProducer | createConsumer | removeProducer | removeConsumer =>
        cases hact
  · rintro h tid rnd w rfl hw hpc
    exact h tid rfl w hw hpc

instance (s : Lab4.State) (a : Lab4.Action) : Decidable (Lab4Spared s a) :=
  decidable_of_iff (∀ i ∈ lab4.runs a, ∀ w ∈ s.workers[i]?, w.pc = .producer .putMsg →
    2 ≤ s.shared.freeSpace + count Pc.aboutToPut s.workers +
      count Pc.aboutToPostFreeSpace s.workers) lab4Spared_iff.symm

instance (s : Lab5.State) (a : Lab5.Action) : Decidable (Lab5Spared s a) :=
  decidable_of_iff (∀ i ∈ lab5.runs a, ∀ w ∈ s.workers[i]?, w.pc = .producer .putMsg →
    2 ≤ s.shared.freeSpace + count Pc.aboutToPut s.workers +
      count Pc.aboutToPostFreeSpace s.workers) lab5Spared_iff.symm

/-- In every state reached, a producer about to put overflows exactly when no slot but its
own is free or on its way; runs that never put in such a state take no exit. -/
theorem put_overflow_iff (memory : MsgQueue) :
    (∀ s, Reaches Lab4.step anything (Lab4.init memory) s →
      ∀ (pid : ℕ) (w : Worker), s.workers[pid]? = some w → w.pc = .producer .putMsg →
        (putMsg s.shared.queue w.msg ≠ .error overflow ↔ SpareSlot s.shared s.workers)) ∧
    (∀ s, Reaches Lab5.step anything (Lab5.init memory) s →
      ∀ (tid : ℕ) (w : Worker), s.workers[tid]? = some w → w.pc = .producer .putMsg →
        (putMsg s.shared.queue w.msg ≠ .error overflow ↔ SpareSlot s.shared s.workers)) ∧
    (∀ s, Reaches Lab4.step Lab4Spared (Lab4.init memory) s → s.fault = none) ∧
    (∀ s, Reaches Lab5.step Lab5Spared (Lab5.init memory) s → s.fault = none) := by
  exact ⟨fun _ h _ _ hw hpc => lab4.putMsg_iff h hw hpc,
    fun _ h _ _ hw hpc => lab5.putMsg_iff h hw hpc,
    fun _ h => lab4.fault_none h fun _ _ => lab4Spared_iff.mp,
    fun _ h => lab5.fault_none h fun _ _ => lab5Spared_iff.mp⟩

/-- The runs go on behind a put. -/
theorem put_overflow_iff_under_way :
    (∃ s, Reaches Lab4.step Lab4Spared (Lab4.init zeroMemory) s ∧
      s.shared.queue.msgAmount = 1 ∧ s.fault = none) ∧
    (∃ s, Reaches Lab5.step Lab5Spared (Lab5.init zeroMemory) s ∧
      s.shared.queue.msgAmount = 1 ∧ s.fault = none) ∧
    (∃ s w, exec Lab4.step (Lab4.init zeroMemory)
        (.createProducer Msg.zero 0 :: List.replicate 3 (.run 0 noRand)) = some s ∧
      s.workers[0]? = some w ∧
      (putMsg s.shared.queue w.msg ≠ .error overflow ↔ SpareSlot s.shared s.workers)) ∧
    ∃ s w, exec Lab5.step (Lab5.init zeroMemory)
        (.createProducer Msg.zero 0 :: List.replicate 3 (.run 0 noRand)) = some s ∧
      s.workers[0]? = some w ∧
      (putMsg s.shared.queue w.msg ≠ .error overflow ↔ SpareSlot s.shared s.workers) := by
  obtain ⟨hlab4, hlab5, hrun4, hrun5⟩ := put_overflow_iff zeroMemory
  have hspared4 : (exec (fun u a => if Lab4Spared u a then Lab4.step u a else none)
      (Lab4.init zeroMemory) (underWay (.createProducer Msg.zero 0) (.createConsumer Msg.zero 0)
        fun pid => .run pid noRand)).map (fun s => s.shared.queue.msgAmount) = some 1 := by
    decide +kernel
  have hspared5 : (exec (fun u a => if Lab5Spared u a then Lab5.step u a else none)
      (Lab5.init zeroMemory) (underWay (.createProducer Msg.zero 0) (.createConsumer Msg.zero 0)
        fun tid => .run tid noRand)).map (fun s => s.shared.queue.msgAmount) = some 1 := by
    decide +kernel
  have hput4 : ∃ s w, exec Lab4.step (Lab4.init zeroMemory)
        (.createProducer Msg.zero 0 :: List.replicate 3 (.run 0 noRand)) = some s ∧
      s.workers[0]? = some w ∧ w.pc = .producer .putMsg := ⟨_, _, rfl, rfl, rfl⟩
  have hput5 : ∃ s w, exec Lab5.step (Lab5.init zeroMemory)
        (.createProducer Msg.zero 0 :: List.replicate 3 (.run 0 noRand)) = some s ∧
      s.workers[0]? = some w ∧ w.pc = .producer .putMsg := ⟨_, _, rfl, rfl, rfl⟩
  refine ⟨?_, ?_, ?_, ?_⟩
  · obtain ⟨s, hexec, hamount⟩ := Option.map_eq_some_iff.mp hspared4
    have hreach := reaches_of_guarded hexec
    exact ⟨s, hreach, hamount, hrun4 s hreach⟩
  · obtain ⟨s, hexec, hamount⟩ := Option.map_eq_some_iff.mp hspared5
    have hreach := reaches_of_guarded hexec
    exact ⟨s, hreach, hamount, hrun5 s hreach⟩
  · obtain ⟨s, w, hexec, hw, hpc⟩ := hput4
    exact ⟨s, w, hexec, hw, hlab4 s (reaches_anything_of_exec hexec) 0 w hw hpc⟩
  · obtain ⟨s, w, hexec, hw, hpc⟩ := hput5
    exact ⟨s, w, hexec, hw, hlab5 s (reaches_anything_of_exec hexec) 0 w hw hpc⟩

/-! ## A producer without consumers -/

variable {L : Type}

/-- The only worker takes one step. -/
def SoloStep (prog : Program L) (x y : Shared L × Worker) : Prop :=
  workerStep prog 0 noRand x.1 x.2 = .next y.1 y.2

abbrev Solo (prog : Program L) : Shared L × Worker → Shared L × Worker → Prop :=
  Relation.ReflTransGen (SoloStep prog)

theorem Balanced.solo {prog : Program L} {x y : Shared L × Worker}
    (hb : Balanced prog x.1 [x.2]) (h : Solo prog x y) : Balanced prog y.1 [y.2] := by
  induction h with
  | refl => exact hb
  | tail _ hst ih => exact ih.work (i := 0) rfl hst

/-- Between two turns of the only producer the queue holds what `items` counts. -/
theorem Balanced.solo_amount {prog : Program L} {q : MsgQueue} {l : L} {free items : ℕ}
    {msg : Msg} {n : UInt64} (hb : Balanced prog ⟨q, l, free, items⟩ [.producer msg n]) :
    q.msgAmount.toNat = items := hb.items

/-- A producer without consumers completes a turn as long as the queue is not full. -/
theorem solo_turn {prog : Program L} {q : MsgQueue} {l l' : L} {free items : ℕ} {msg : Msg}
    {n : UInt64} (hacquire : prog.lock.acquire l 0 = some l')
    (hrelease : prog.lock.release l' 0 = l) (hfree : free ≠ 0) (hitems : items < msgMax - 1)
    (hb : Balanced prog ⟨q, l, free, items⟩ [.producer msg n]) :
    ∃ q' msg' n', Solo prog (⟨q, l, free, items⟩, .producer msg n)
      (⟨q', l, free - 1, items + 1⟩, .producer msg' n') := by
  have hamount := hb.solo_amount
  rcases hb.putMsg_cases (prog.produceMsg noRand msg) with ⟨hfull, _⟩ | ⟨_, k, q', hput⟩
  · dsimp only at hfull
    omega
  · let msg' := prog.produceMsg noRand msg
    have hproduce : SoloStep prog (⟨q, l, free, items⟩, .producer msg n)
        (⟨q, l, free, items⟩, ⟨.producer .waitFreeSpace, msg', n⟩) := rfl
    have hwait : SoloStep prog (⟨q, l, free, items⟩, ⟨.producer .waitFreeSpace, msg', n⟩)
        (⟨q, l, free - 1, items⟩, ⟨.producer .lock, msg', n⟩) := by
      simp [SoloStep, workerStep, producerStep, hfree]
    have hlock : SoloStep prog (⟨q, l, free - 1, items⟩, ⟨.producer .lock, msg', n⟩)
        (⟨q, l', free - 1, items⟩, ⟨.producer .putMsg, msg', n⟩) := by
      simp [SoloStep, workerStep, producerStep, hacquire]
    have hputMsg : SoloStep prog (⟨q, l', free - 1, items⟩, ⟨.producer .putMsg, msg', n⟩)
        (⟨q', l', free - 1, items⟩, ⟨.producer .unlock, msg', k⟩) := by
      simp only [SoloStep, workerStep, producerStep, msg']
      rw [hput]
    have hunlock : SoloStep prog (⟨q', l', free - 1, items⟩, ⟨.producer .unlock, msg', k⟩)
        (⟨q', l, free - 1, items⟩, ⟨.producer .postItems, msg', k⟩) := by
      simp [SoloStep, workerStep, producerStep, hrelease]
    have hpost : SoloStep prog (⟨q', l, free - 1, items⟩, ⟨.producer .postItems, msg', k⟩)
        (⟨q', l, free - 1, items + 1⟩, ⟨.producer .printf, msg', k⟩) := rfl
    have hprintf : SoloStep prog (⟨q', l, free - 1, items + 1⟩, ⟨.producer .printf, msg', k⟩)
        (⟨q', l, free - 1, items + 1⟩, ⟨.producer .sleep, msg', k⟩) := rfl
    have hsleep : SoloStep prog (⟨q', l, free - 1, items + 1⟩, ⟨.producer .sleep, msg', k⟩)
        (⟨q', l, free - 1, items + 1⟩, .producer msg' k) := rfl
    exact ⟨q', msg', k, .head hproduce <| .head hwait <| .head hlock <| .head hputMsg <|
      .head hunlock <| .head hpost <| .head hprintf <| .single hsleep⟩

/-- It fills the queue turn by turn. -/
theorem solo_fill {prog : Program L} {q : MsgQueue} {l l' : L}
    (hacquire : prog.lock.acquire l 0 = some l') (hrelease : prog.lock.release l' 0 = l)
    (hb : Balanced prog ⟨q, l, msgMax, 0⟩ [.producer Msg.zero 0]) (turns : ℕ)
    (hturns : turns ≤ msgMax - 1) :
    ∃ q' msg n, Solo prog (⟨q, l, msgMax, 0⟩, .producer Msg.zero 0)
      (⟨q', l, msgMax - turns, turns⟩, .producer msg n) := by
  induction turns with
  | zero => exact ⟨q, Msg.zero, 0, .refl⟩
  | succ turns ih =>
      obtain ⟨q₁, msg₁, n₁, hrun⟩ := ih (by omega)
      have hb₁ := hb.solo (y := (_, _)) hrun
      obtain ⟨q₂, msg₂, n₂, hturn⟩ :=
        solo_turn hacquire hrelease (by omega) (by omega) hb₁
      exact ⟨q₂, msg₂, n₂, hrun.trans hturn⟩

/-- After `MSG_MAX - 1` turns it passes `sem_wait(free_space)` and takes the exit. -/
theorem solo_overflow {prog : Program L} {q : MsgQueue} {l l' : L}
    (hacquire : prog.lock.acquire l 0 = some l') (hrelease : prog.lock.release l' 0 = l)
    (hb : Balanced prog ⟨q, l, msgMax, 0⟩ [.producer Msg.zero 0]) :
    ∃ x : Shared L × Worker, Solo prog (⟨q, l, msgMax, 0⟩, .producer Msg.zero 0) x ∧
      workerStep prog 0 noRand x.1 x.2 = .exit overflow := by
  obtain ⟨q₁, msg, n, hrun⟩ := solo_fill hacquire hrelease hb (msgMax - 1) le_rfl
  have hb₁ := hb.solo (y := (_, _)) hrun
  have hamount := hb₁.solo_amount
  let msg' := prog.produceMsg noRand msg
  have hproduce : SoloStep prog (⟨q₁, l, 1, msgMax - 1⟩, .producer msg n)
      (⟨q₁, l, 1, msgMax - 1⟩, ⟨.producer .waitFreeSpace, msg', n⟩) := rfl
  have hwait : SoloStep prog (⟨q₁, l, 1, msgMax - 1⟩, ⟨.producer .waitFreeSpace, msg', n⟩)
      (⟨q₁, l, 0, msgMax - 1⟩, ⟨.producer .lock, msg', n⟩) := by
    simp [SoloStep, workerStep, producerStep]
  have hlock : SoloStep prog (⟨q₁, l, 0, msgMax - 1⟩, ⟨.producer .lock, msg', n⟩)
      (⟨q₁, l', 0, msgMax - 1⟩, ⟨.producer .putMsg, msg', n⟩) := by
    simp [SoloStep, workerStep, producerStep, hacquire]
  refine ⟨_, hrun.trans (.head hproduce <| .head hwait <| .single hlock), ?_⟩
  rcases hb₁.putMsg_cases msg' with ⟨_, hput⟩ | ⟨hroom, _⟩
  · dsimp only at hput
    simp only [workerStep, producerStep, hput]
  · dsimp only at hroom
    omega

/-- The state of LAB_4 with one producer. -/
def lab4Solo (x : Shared ℕ × Worker) : Lab4.State :=
  { Lab4.init zeroMemory with shared := x.1, procs := [⟨x.2, true⟩], producers := [0] }

def lab5Solo (x : Shared (Option ℕ) × Worker) : Lab5.State :=
  { Lab5.init zeroMemory with shared := x.1, threads := [⟨x.2, false, false⟩], producers := [0] }

/-- One producer and no consumer: the queue fills up and the program ends, in either
program, although nothing is removed. -/
theorem put_overflows_full :
    (∃ s, Reaches Lab4.step (fun _ a => a.removes = false) (Lab4.init zeroMemory) s ∧
      s.fault = some overflow) ∧
    (∃ s, Reaches Lab5.step (fun _ a => a.removes = false) (Lab5.init zeroMemory) s ∧
      s.fault = some overflow) := by
  constructor
  · have hcreate : Runs.Step Lab4.step (fun _ a => a.removes = false) (Lab4.init zeroMemory)
        (lab4Solo (⟨Lab4.msgQueueInit zeroMemory, 1, msgMax, 0⟩, .producer Msg.zero 0)) :=
      ⟨.createProducer Msg.zero 0, rfl, rfl⟩
    obtain ⟨x, hrun, hexit⟩ := solo_overflow
      (show Lab4.program.lock.acquire 1 0 = some 0 from rfl) rfl
      (Lab4.balanced_of_reaches (.single hcreate))
    have hlift := hrun.lift lab4Solo (p := Runs.Step Lab4.step (fun _ a => a.removes = false))
      fun u v huv => ⟨.run 0 noRand, rfl, by
        simp only [SoloStep] at huv
        simp [Lab4.step, Lab4.runProc, lab4Solo, huv]⟩
    refine ⟨Lab4.exitChild (lab4Solo x) 0 overflow, ?_, rfl⟩
    refine .head hcreate (hlift.tail ⟨.run 0 noRand, rfl, ?_⟩)
    simp [Lab4.step, Lab4.runProc, lab4Solo, hexit]
  · have hcreate : Runs.Step Lab5.step (fun _ a => a.removes = false) (Lab5.init zeroMemory)
        (lab5Solo (⟨Lab5.msgQueueInit zeroMemory, none, msgMax, 0⟩, .producer Msg.zero 0)) :=
      ⟨.createProducer Msg.zero 0, rfl, rfl⟩
    obtain ⟨x, hrun, hexit⟩ := solo_overflow
      (show Lab5.program.lock.acquire none 0 = some (some 0) from rfl) rfl
      (Lab5.balanced_of_reaches (.single hcreate))
    have hlift := hrun.lift lab5Solo (p := Runs.Step Lab5.step (fun _ a => a.removes = false))
      fun u v huv => ⟨.run 0 noRand, rfl, by
        simp only [SoloStep] at huv
        simp [Lab5.step, Lab5.runThread, lab5Solo, Lab5.init, huv]⟩
    refine ⟨{ lab5Solo x with fault := some overflow }, ?_, rfl⟩
    refine .head hcreate (hlift.tail ⟨.run 0 noRand, rfl, ?_⟩)
    simp [Lab5.step, Lab5.runThread, lab5Solo, Lab5.init, hexit]

end OsaspLabs.Ipc
