import OsaspLabs.Lab7.WakeUps

/-! # The command '-' of LAB_7 p1

The main thread looks at `message_amount` before it takes the mutex and relies on what it saw
afterwards. -/

namespace OsaspLabs.Lab7

open Runs

/-- The main thread, at its '-', does not come to wait for a message. -/
def MinusReturns (s : State) : Prop :=
  ∀ main, s.threads[0]? = some main → main.role = .consumer →
    (main.pc = .test → s.queue.messageAmount ≠ 0) ∧
      main.pc ≠ .wait ∧ main.pc ≠ .waiting ∧ main.pc ≠ .reacquire

/-- No consumer takes the last message while the main thread is between its look at
`message_amount` and the mutex. -/
def LastIsKept (s : State) (a : Action) : Prop :=
  ∀ (tid : ℕ) (rnd : Rand) (th main : Thread), a = .run tid rnd → s.threads[tid]? = some th →
    th.role = .consumer → th.pc = .access → s.queue.messageAmount = 1 →
    s.threads[0]? = some main → main.role = .consumer → main.pc ≠ .lock

/-! ## The main thread in a step -/

/-- What a step can do to the main thread and to the queue. -/
inductive MainStep (s : State) (a : Action) (s' : State) (main main' : Thread) : Prop where
  | own (rnd : Rand) (live : main.terminated = false)
      (next : threadStep 0 rnd s.queue s.mutex main = .next s'.queue s'.mutex main')
  | other (tid : ℕ) (rnd : Rand) (th th' : Thread) (action : a = .run tid rnd) (ne : tid ≠ 0)
      (at? : s.threads[tid]? = some th) (live : th.terminated = false)
      (next : threadStep tid rnd s.queue s.mutex th = .next s'.queue s'.mutex th')
      (same : main' = main)
  | stays (queue : s'.queue = s.queue) (role : main'.role = main.role) (pc : main'.pc = main.pc)
  | signals (queue : s'.queue = s.queue) (pc : main'.pc = .unlock)
  | wakes (queue : s'.queue = s.queue) (role : main'.role = main.role) (pc : main.pc = .waiting)
      (pc' : main'.pc = .reacquire ∨ main'.pc = .cancelWait)
  | commanded (queue : s'.queue = s.queue)
      (pc : main'.pc ∈ [.getchar, .infoLock, .checkEmpty] ∨ (∃ tid, main'.pc = .join tid) ∨
        main'.pc = .produce ∧ main'.role = .producer)

theorem getElem?_set_zero {threads : List Thread} {main : Thread} (h : threads[0]? = some main)
    (tid : ℕ) (th : Thread) :
    (threads.set tid th)[0]? = some (if tid = 0 then th else main) := by
  obtain ⟨hlt, _⟩ := List.getElem?_eq_some_iff.mp h
  by_cases htid : tid = 0
  · rw [if_pos htid, htid, List.getElem?_set_self hlt]
  · rw [if_neg htid, List.getElem?_set_ne htid, h]

theorem getElem?_pthreadCancel_zero {threads : List Thread} {main : Thread}
    (h : threads[0]? = some main) (tid : ℕ) :
    ∃ main', (pthreadCancel threads tid)[0]? = some main' ∧ main'.role = main.role ∧
      main'.pc = main.pc := by
  by_cases htid : tid = 0 <;> simp [pthreadCancel, h, htid]

theorem runThread_main {s s' : State} {tid : ℕ} {rnd : Rand} {main : Thread}
    (h : runThread s tid rnd = some s') (h0 : s.threads[0]? = some main) :
    ∃ main', s'.threads[0]? = some main' ∧ MainStep s (.run tid rnd) s' main main' := by
  unfold runThread at h
  split at h
  · cases h
  · rename_i th hth
    split at h
    · cases h
    · rename_i hlive
      have hlive : th.terminated = false := by simpa using hlive
      split at h
      · cases h
      · rename_i q m th' hnext
        obtain rfl := Option.some.inj h
        refine ⟨_, getElem?_set_zero h0 tid th', ?_⟩
        by_cases htid : tid = 0
        · subst htid
          obtain rfl := Option.some.inj (h0.symm.trans hth)
          rw [if_pos rfl]
          exact .own rnd hlive hnext
        · rw [if_neg htid]
          exact .other tid rnd th th' rfl htid hth hlive hnext rfl
      · obtain rfl := Option.some.inj h
        exact ⟨main, h0, .stays rfl rfl rfl⟩

/-- A step that sets one thread and leaves the queue alone. -/
theorem main_of_set {s s' : State} {a : Action} {tid : ℕ} {th th' main : Thread}
    (h0 : s.threads[0]? = some main) (hth : s.threads[tid]? = some th)
    (queue : s'.queue = s.queue) (threads : s'.threads = s.threads.set tid th')
    (hself : MainStep s a s' th th') :
    ∃ main', s'.threads[0]? = some main' ∧ MainStep s a s' main main' := by
  rw [threads]
  refine ⟨_, getElem?_set_zero h0 tid th', ?_⟩
  by_cases htid : tid = 0
  · subst htid
    obtain rfl := Option.some.inj (h0.symm.trans hth)
    rw [if_pos rfl]
    exact hself
  · rw [if_neg htid]
    exact .stays queue rfl rfl

theorem signal_main {s s' : State} {tid : ℕ} {woken : Option ℕ} {main : Thread}
    (h : signal s tid woken = some s') (h0 : s.threads[0]? = some main) :
    ∃ main', s'.threads[0]? = some main' ∧ MainStep s (.signal tid woken) s' main main' := by
  obtain ⟨th, hth, -, -, hwoken⟩ := signal_cases h
  rcases hwoken with ⟨-, rfl⟩ | ⟨w, v, hv, hwaits, rfl⟩
  · exact main_of_set h0 hth rfl rfl (.signals rfl rfl)
  · refine ⟨_, getElem?_set_zero (getElem?_set_zero h0 tid _) w _, ?_⟩
    by_cases hw : w = 0
    · subst hw
      obtain rfl := Option.some.inj (h0.symm.trans hv)
      simp only [Thread.waitsOn, Bool.and_eq_true, decide_eq_true_eq] at hwaits
      rw [if_pos rfl]
      exact .wakes rfl rfl hwaits.1.2 (.inl rfl)
    · rw [if_neg hw]
      by_cases htid : tid = 0
      · rw [if_pos htid]
        exact .signals rfl rfl
      · rw [if_neg htid]
        exact .stays rfl rfl rfl

theorem wake_main {s s' : State} {tid : ℕ} {main : Thread} (h : wake s tid = some s')
    (h0 : s.threads[0]? = some main) :
    ∃ main', s'.threads[0]? = some main' ∧ MainStep s (.wake tid) s' main main' := by
  obtain ⟨th, hth, -, hwaits, rfl⟩ := wake_cases h
  exact main_of_set h0 hth rfl rfl (.wakes rfl rfl hwaits (.inl rfl))

theorem actOnCancel_main {s s' : State} {tid : ℕ} {main : Thread}
    (h : actOnCancel s tid = some s') (h0 : s.threads[0]? = some main) :
    ∃ main', s'.threads[0]? = some main' ∧ MainStep s (.cancelled tid) s' main main' := by
  obtain ⟨th, hth, -, -, rfl⟩ := actOnCancel_cases h
  refine main_of_set h0 hth rfl rfl ?_
  by_cases hpc : th.pc = .waiting
  · rw [if_pos hpc]
    exact .wakes rfl rfl hpc (.inr rfl)
  · rw [if_neg hpc]
    exact .stays rfl rfl rfl

theorem pthreadJoined_main {s s' : State} {main : Thread} (h : pthreadJoined s = some s')
    (h0 : s.threads[0]? = some main) :
    ∃ main', s'.threads[0]? = some main' ∧ MainStep s .joined s' main main' := by
  obtain ⟨main₀, tid, hmain, -, rfl⟩ := pthreadJoined_cases h
  obtain rfl := Option.some.inj (h0.symm.trans hmain)
  exact main_of_set h0 h0 rfl rfl (.commanded rfl (.inl (by simp)))

theorem runCommand_main {s s' : State} {c : Command} {main : Thread}
    (h : runCommand s c = some s') (h0 : s.threads[0]? = some main) :
    ∃ main', s'.threads[0]? = some main' ∧ MainStep s (.command c) s' main main' := by
  have happend (th : Thread) : (s.threads ++ [th])[0]? = some main := by
    obtain ⟨hlt, _⟩ := List.getElem?_eq_some_iff.mp h0
    rw [List.getElem?_append_left hlt, h0]
  have hremove (tid victim : ℕ) : ∃ main',
      (pthreadCancel (s.threads.set 0 { main with pc := .join tid }) victim)[0]? = some main' ∧
        main'.pc = .join tid := by
    obtain ⟨main', hmain', _, hpc⟩ :=
      getElem?_pthreadCancel_zero (getElem?_set_zero h0 0 { main with pc := .join tid }) victim
    exact ⟨main', hmain', hpc⟩
  unfold runCommand at h
  simp only [h0] at h
  split at h
  · obtain rfl := Option.some.inj h
    cases c with
    | createProducer msg counter =>
        simp only [command, createProducer]
        split
        · exact ⟨main, h0, .stays rfl rfl rfl⟩
        · exact ⟨main, happend _, .stays rfl rfl rfl⟩
    | createConsumer msg counter =>
        simp only [command, createConsumer]
        split
        · exact ⟨main, h0, .stays rfl rfl rfl⟩
        · exact ⟨main, happend _, .stays rfl rfl rfl⟩
    | removeProducer =>
        simp only [command, removeProducer]
        split
        · exact ⟨main, h0, .stays rfl rfl rfl⟩
        · rename_i tid _
          obtain ⟨main', hmain', hpc⟩ := hremove tid tid
          exact ⟨main', hmain', .commanded rfl (.inr (.inl ⟨tid, hpc⟩))⟩
    | removeConsumer =>
        simp only [command, removeConsumer]
        split
        · exact ⟨main, h0, .stays rfl rfl rfl⟩
        · rename_i tid _
          obtain ⟨main', hmain', hpc⟩ := hremove tid tid
          exact ⟨main', hmain', .commanded rfl (.inr (.inl ⟨tid, hpc⟩))⟩
    | info => exact main_of_set h0 h0 rfl rfl (.commanded rfl (.inl (by simp)))
    | plus => exact main_of_set h0 h0 rfl rfl (.commanded rfl (.inr (.inr ⟨rfl, rfl⟩)))
    | minus => exact main_of_set h0 h0 rfl rfl (.commanded rfl (.inl (by simp)))
  · cases h

theorem step_main {s s' : State} {a : Action} {main : Thread} (h : step s a = some s')
    (h0 : s.threads[0]? = some main) :
    ∃ main', s'.threads[0]? = some main' ∧ MainStep s a s' main main' := by
  unfold step at h
  split at h
  · cases h
  · cases a with
    | run tid rnd => exact runThread_main h h0
    | signal tid woken => exact signal_main h h0
    | wake tid => exact wake_main h h0
    | cancelled tid => exact actOnCancel_main h h0
    | joined => exact pthreadJoined_main h h0
    | command c => exact runCommand_main h h0

/-! ## The invariant -/

/-- Where the main thread is in '-'; from its look at the queue on there is a message for it. -/
structure MinusOrdered (q : MsgStruct) (main : Thread) : Prop where
  awake : main.pc ≠ .sleep
  plus : main.pc = .produce → main.role = .producer
  message : main.role = .consumer → main.pc = .lock ∨ main.pc = .test → q.messageAmount ≠ 0
  returns : main.role = .consumer →
    main.pc ≠ .wait ∧ main.pc ≠ .waiting ∧ main.pc ≠ .reacquire

/-- A main thread that does not wait and has a message for it. -/
theorem MinusOrdered.goesOn {q : MsgStruct} {main : Thread}
    (h : main.pc ∉ [.sleep, .produce, .wait, .waiting, .reacquire])
    (hmessage : main.role = .consumer → main.pc = .lock ∨ main.pc = .test →
      q.messageAmount ≠ 0) : MinusOrdered q main := by
  simp only [List.mem_cons, List.not_mem_nil, or_false, not_or] at h
  obtain ⟨hsleep, hproduce, hwait, hwaiting, hreacquire⟩ := h
  exact ⟨hsleep, fun hpc => absurd hpc hproduce, hmessage, fun _ => ⟨hwait, hwaiting, hreacquire⟩⟩

/-- Outside '-' and '+' there is nothing to keep. -/
theorem MinusOrdered.elsewhere {q : MsgStruct} {main : Thread}
    (h : main.pc ∉ [.sleep, .produce, .lock, .test, .wait, .waiting, .reacquire]) :
    MinusOrdered q main := by
  simp only [List.mem_cons, List.not_mem_nil, or_false, not_or] at h
  apply MinusOrdered.goesOn
  · simp [h]
  · rintro _ (hpc | hpc)
    · exact absurd hpc h.2.2.1
    · exact absurd hpc h.2.2.2.1

/-- The main thread in '+' waits for room, not for a message. -/
theorem MinusOrdered.producer {q : MsgStruct} {main : Thread} (hrole : main.role = .producer)
    (hpc : main.pc ≠ .sleep) : MinusOrdered q main := by
  have hne : main.role ≠ .consumer := by simp [hrole]
  exact ⟨hpc, fun _ => hrole, fun h => absurd h hne, fun h => absurd h hne⟩

theorem threadStep_queue_of_ne {self : ℕ} {rnd : Rand} {q q' : MsgStruct} {m m' : Option ℕ}
    {th th' : Thread} (h : threadStep self rnd q m th = .next q' m' th')
    (hne : th.pc ≠ .access) : q' = q := by
  cases hpc : th.pc <;> simp only [threadStep, hpc] at h
  case getchar | waiting | signal | join => cases h
  case lock | reacquire | infoLock | cancelWait => exact lockMutex_queue h
  case access => exact absurd hpc hne
  all_goals
    cases h
    rfl

/-- Only a consumer that takes the last message empties the queue. -/
theorem threadStep_amount {self : ℕ} {rnd : Rand} {q q' : MsgStruct} {m m' : Option ℕ}
    {th th' : Thread} (h : threadStep self rnd q m th = .next q' m' th')
    (hsome : q.messageAmount ≠ 0) :
    q'.messageAmount ≠ 0 ∨ th.role = .consumer ∧ th.pc = .access ∧ q.messageAmount = 1 := by
  by_cases hpc : th.pc = .access
  · simp only [threadStep, hpc, access] at h
    cases hrole : th.role with
    | producer =>
        simp only [hrole] at h
        split at h
        · cases h
        · rename_i hadd
          cases h
          rw [addMsg_amount hadd]
          exact .inl (Nat.succ_ne_zero _)
    | consumer =>
        simp only [hrole] at h
        split at h
        · cases h
        · rename_i hget
          cases h
          have hamount := getMsg_amount hget
          by_cases hone : q.messageAmount = 1
          · exact .inr ⟨rfl, hpc, hone⟩
          · left
            omega
  · rw [threadStep_queue_of_ne h hpc]
    exact .inl hsome

/-- Only '+' waits. -/
theorem MinusOrdered.role_of_waits {q : MsgStruct} {main : Thread} (hm : MinusOrdered q main)
    (h : main.pc ∈ [.wait, .waiting, .reacquire]) : main.role = .producer := by
  cases hrole : main.role with
  | producer => rfl
  | consumer =>
      obtain ⟨hwait, hwaiting, hreacquire⟩ := hm.returns hrole
      simp [hwait, hwaiting, hreacquire] at h

/-- The main thread's own steps. -/
theorem MinusOrdered.own {rnd : Rand} {q q' : MsgStruct} {m m' : Option ℕ} {main main' : Thread}
    (hm : MinusOrdered q main) (h : threadStep 0 rnd q m main = .next q' m' main') :
    MinusOrdered q' main' := by
  cases hpc : main.pc <;> simp only [threadStep, hpc] at h
  case getchar | waiting | signal | join => cases h
  case sleep => exact absurd hpc hm.awake
  case checkEmpty =>
    cases h
    by_cases hempty : q.messageAmount = 0
    · simp only [if_pos hempty]
      exact .elsewhere (by simp)
    · simp only [if_neg hempty]
      exact .goesOn (by simp) fun _ _ => hempty
  case produce =>
    cases h
    exact .producer (hm.plus hpc) (by simp)
  case lock =>
    obtain ⟨_, _, rfl⟩ := lockMutex_next h
    rw [lockMutex_queue h]
    exact .goesOn (by simp) fun hrole _ => hm.message hrole (.inl hpc)
  case test =>
    cases h
    cases hrole : main.role with
    | producer =>
        apply MinusOrdered.producer rfl
        dsimp only
        split <;> simp
    | consumer =>
        -- the queue is not empty, so the loop is not entered
        have hmessage := hm.message hrole (.inr hpc)
        simp only [mustWait, hmessage, decide_false, Bool.false_eq_true, if_false]
        exact .elsewhere (by simp)
  case wait =>
    cases h
    exact .producer (hm.role_of_waits (by simp [hpc])) (by simp)
  case reacquire =>
    obtain ⟨_, _, rfl⟩ := lockMutex_next h
    exact .producer (hm.role_of_waits (by simp [hpc])) (by simp)
  case access =>
    obtain ⟨_, hpc', _⟩ := access_next h
    exact .elsewhere (by simp [hpc'])
  case infoLock =>
    obtain ⟨_, _, rfl⟩ := lockMutex_next h
    exact .elsewhere (by simp)
  case cancelWait =>
    obtain ⟨_, _, rfl⟩ := lockMutex_next h
    exact .elsewhere (by simp)
  case unlock =>
    cases h
    apply MinusOrdered.elsewhere
    cases main.role <;> simp
  case consume =>
    cases h
    apply MinusOrdered.elsewhere
    dsimp only
    split <;> simp
  all_goals
    cases h
    exact .elsewhere (by simp)

theorem MainStep.ordered {s s' : State} {a : Action} {main main' : Thread}
    (hstep : MainStep s a s' main main') (ho : Owned s) (h0 : s.threads[0]? = some main)
    (hkept : LastIsKept s a) (hm : MinusOrdered s.queue main) :
    MinusOrdered s'.queue main' := by
  cases hstep with
  | own rnd live next => exact hm.own next
  | other tid rnd th th' action ne at? live next same =>
      subst same
      refine ⟨hm.awake, hm.plus, fun hrole hpc => ?_, hm.returns⟩
      rcases threadStep_amount next (hm.message hrole hpc) with hsome | ⟨hrole', hpc', hone⟩
      · exact hsome
      · rcases hpc with hlock | htest
        · exact absurd hlock (hkept tid rnd th main' action at? hrole' hpc' hone h0 hrole)
        · -- both would own the mutex
          have hself := (ho.owner 0).mpr (by simp [h0, Thread.owns, htest, Pc.inCriticalSection])
          have hother := (ho.owner tid).mpr
            (by simp [at?, Thread.owns, hpc', Pc.inCriticalSection])
          exact absurd (Option.some.inj (hother.symm.trans hself)) ne
  | stays queue role pc =>
      rw [queue]
      exact ⟨pc ▸ hm.awake, fun h => role ▸ hm.plus (pc ▸ h),
        fun hrole hpc => hm.message (role ▸ hrole) (pc ▸ hpc),
        fun hrole => pc ▸ hm.returns (role ▸ hrole)⟩
  | signals queue pc => exact .elsewhere (by simp [pc])
  | wakes queue role pc pc' =>
      apply MinusOrdered.producer (role.trans (hm.role_of_waits (by simp [pc])))
      rcases pc' with hpc | hpc <;> simp [hpc]
  | commanded queue pc =>
      rcases pc with hpc | ⟨tid, hpc⟩ | ⟨hpc, hrole⟩
      · simp only [List.mem_cons, List.not_mem_nil, or_false] at hpc
        rcases hpc with hpc | hpc | hpc <;> exact .elsewhere (by simp [hpc])
      · exact .elsewhere (by simp [hpc])
      · exact .producer hrole (by simp [hpc])

theorem minusOrdered_of_reaches {memory : MsgStruct} {s : State}
    (h : Reaches step LastIsKept (init memory) s) :
    ∃ main, s.threads[0]? = some main ∧ MinusOrdered s.queue main := by
  have hinv : Owned s ∧ ∃ main, s.threads[0]? = some main ∧ MinusOrdered s.queue main := by
    apply h.invariant (I := fun u => Owned u ∧ ∃ main, u.threads[0]? = some main ∧
      MinusOrdered u.queue main)
    · exact ⟨Owned.init memory, _, rfl, .producer rfl (by simp)⟩
    · rintro u a v ⟨ho, main, h0, hm⟩ hkept hstep
      obtain ⟨main', h0', hmain⟩ := step_main hstep h0
      exact ⟨ho.step (step_effect hstep), main', h0', hmain.ordered ho h0 hkept hm⟩
  exact hinv.2

/-! ## The last message is taken -/

theorem step_run {s : State} {tid : ℕ} {rnd : Rand} {th th' : Thread} {q : MsgStruct}
    {m : Option ℕ} (hfault : s.fault = none) (hth : s.threads[tid]? = some th)
    (hlive : th.terminated = false)
    (hnext : threadStep tid rnd s.queue s.mutex th = .next q m th') :
    step s (.run tid rnd) =
      some { s with queue := q, mutex := m, threads := s.threads.set tid th' } := by
  simp [step, hfault, runThread, hth, hlive, hnext]

/-- Threads at different places are different threads. -/
theorem ne_of_pc {threads : List Thread} {i j : ℕ} {th th' : Thread}
    (hi : threads[i]? = some th) (hj : threads[j]? = some th') (hne : th.pc ≠ th'.pc) : i ≠ j := by
  rintro rfl
  exact hne (congrArg Thread.pc (Option.some.inj (hi.symm.trans hj)))

/-- A thread can always get past its signal. -/
theorem step_signal {s : State} {tid : ℕ} {th main : Thread} (hfault : s.fault = none)
    (hth : s.threads[tid]? = some th) (hlive : th.terminated = false) (hpc : th.pc = .signal)
    (h0 : s.threads[0]? = some main) (hmain : main.pc = .lock) :
    ∃ woken s', step s (.signal tid woken) = some s' ∧ s'.queue = s.queue ∧ s'.fault = none ∧
      s'.threads[tid]? = some { th with pc := .unlock } ∧ s'.threads[0]? = some main := by
  obtain ⟨hlt, _⟩ := List.getElem?_eq_some_iff.mp hth
  have hzero : tid ≠ 0 := ne_of_pc hth h0 (by simp [hpc, hmain])
  by_cases hany : s.threads.any (fun v => v.waitsOn th.role.signals) = true
  · obtain ⟨v, hv, hwaits⟩ := List.any_eq_true.mp hany
    obtain ⟨w, hw⟩ := List.mem_iff_getElem?.mp hv
    have hwaiting : v.pc = .waiting := by
      simp only [Thread.waitsOn, Bool.and_eq_true, decide_eq_true_eq] at hwaits
      exact hwaits.1.2
    have hne : w ≠ tid := ne_of_pc hw hth (by simp [hwaiting, hpc])
    have hnezero : w ≠ 0 := ne_of_pc hw h0 (by simp [hwaiting, hmain])
    refine ⟨some w, { s with
      threads := (s.threads.set tid { th with pc := .unlock }).set w
        { v with pc := .reacquire } }, ?_, rfl, hfault, ?_, ?_⟩
    · simp [step, hfault, signal, hth, hlive, hpc, hw, hwaits]
    · rw [List.getElem?_set_ne hne, List.getElem?_set_self hlt]
    · rw [List.getElem?_set_ne hnezero, List.getElem?_set_ne hzero, h0]
  · refine ⟨none, { s with threads := s.threads.set tid { th with pc := .unlock } }, ?_, rfl,
      hfault, ?_, ?_⟩
    · simp [step, hfault, signal, hth, hlive, hpc, hany]
    · rw [List.getElem?_set_self hlt]
    · rw [List.getElem?_set_ne hzero, h0]

/-- What a consumer's `get_msg` makes of the state. -/
theorem step_get {s s' : State} {tid : ℕ} {rnd : Rand} {th : Thread}
    (hstep : step s (.run tid rnd) = some s') (hfault' : s'.fault = none)
    (hth : s.threads[tid]? = some th) (hrole : th.role = .consumer) (hpc : th.pc = .access) :
    s'.queue.messageAmount + 1 = s.queue.messageAmount ∧
      ∃ th', s'.threads = s.threads.set tid th' ∧ th'.role = .consumer ∧ th'.pc = .signal ∧
        th'.terminated = false := by
  cases hfault : s.fault with
  | some fault => simp [step, hfault] at hstep
  | none =>
      simp only [step, hfault, Option.isSome_none, Bool.false_eq_true, if_false, runThread,
        hth] at hstep
      split at hstep
      · cases hstep
      · rename_i hlive
        have hlive : th.terminated = false := by simpa using hlive
        simp only [threadStep, hpc, access, hrole] at hstep
        cases hget : getMsg s.queue with
        | error fault =>
            simp only [hget] at hstep
            obtain rfl := Option.some.inj hstep
            cases hfault'
        | ok result =>
            obtain ⟨msg, n, q⟩ := result
            simp only [hget] at hstep
            obtain rfl := Option.some.inj hstep
            exact ⟨getMsg_amount hget, _, rfl, rfl, rfl, hlive⟩

/-- A consumer drops the mutex, and the main thread takes it. -/
theorem main_past_lock {s : State} {tid : ℕ} {th main : Thread} (hfault : s.fault = none)
    (hth : s.threads[tid]? = some th) (hrole : th.role = .consumer) (hpc : th.pc = .unlock)
    (hlive : th.terminated = false) (h0 : s.threads[0]? = some main) (hlock : main.pc = .lock)
    (hlive0 : main.terminated = false) :
    ∃ t, Reaches step anything s t ∧ t.queue = s.queue ∧
      t.threads[0]? = some { main with pc := .test } := by
  have hzero : tid ≠ 0 := ne_of_pc hth h0 (by simp [hpc, hlock])
  have hunlock : threadStep tid noRand s.queue s.mutex th =
      .next s.queue none { th with pc := .consume } := by
    simp [threadStep, hpc, unlockMutex, Lock.mutex, hrole]
  have hstep₁ := step_run hfault hth hlive hunlock
  have h0₁ : (s.threads.set tid { th with pc := .consume })[0]? = some main := by
    rw [List.getElem?_set_ne hzero, h0]
  obtain ⟨hlt, _⟩ := List.getElem?_eq_some_iff.mp h0₁
  have hacquire : threadStep 0 noRand s.queue none main =
      .next s.queue (some 0) { main with pc := .test } := by
    simp [threadStep, hlock, lockMutex, Lock.mutex]
  have hstep₂ := @step_run { s with
    mutex := none, threads := s.threads.set tid { th with pc := .consume } } 0 noRand main _ _ _
    hfault h0₁ hlive0 hacquire
  refine ⟨_, (Relation.ReflTransGen.single ⟨_, trivial, hstep₁⟩).tail ⟨_, trivial, hstep₂⟩, rfl, ?_⟩
  exact List.getElem?_set_self hlt

/-- After a consumer has taken the last message before it, the main thread can find the queue
empty with the mutex in its hand. -/
theorem waits_of_last_taken {s s' : State} {tid : ℕ} {rnd : Rand} {th main : Thread}
    (ho : Owned s) (hstep : step s (.run tid rnd) = some s') (hfault' : s'.fault = none)
    (hth : s.threads[tid]? = some th) (hrole : th.role = .consumer) (hpc : th.pc = .access)
    (hone : s.queue.messageAmount = 1) (h0 : s.threads[0]? = some main)
    (hmain : main.role = .consumer) (hlock : main.pc = .lock) :
    ∃ t, Reaches step anything s' t ∧ ¬ MinusReturns t := by
  have hzero : tid ≠ 0 := ne_of_pc hth h0 (by simp [hpc, hlock])
  have hlive : main.terminated = false := by
    have hstop := ho.stopped main (List.mem_of_getElem? h0)
    cases hterm : main.terminated with
    | false => rfl
    | true => simpa [hlock, cancellationPoint] using hstop hterm
  obtain ⟨hlt, _⟩ := List.getElem?_eq_some_iff.mp hth
  obtain ⟨hamount, taker, hthreads, hrole', hsignal, hlive'⟩ :=
    step_get hstep hfault' hth hrole hpc
  have htaker : s'.threads[tid]? = some taker := by rw [hthreads, List.getElem?_set_self hlt]
  have h0' : s'.threads[0]? = some main := by rw [hthreads, List.getElem?_set_ne hzero, h0]
  -- the consumer signals, drops the mutex, and the main thread takes it
  obtain ⟨woken, s₁, hstep₁, hqueue₁, hfault₁, htaker₁, h0₁⟩ :=
    step_signal hfault' htaker hlive' hsignal h0' hlock
  obtain ⟨t, hrun, hqueue, hmain'⟩ :=
    main_past_lock hfault₁ htaker₁ hrole' rfl hlive' h0₁ hlock hlive
  refine ⟨t, .head ⟨_, trivial, hstep₁⟩ hrun, fun hreturns => ?_⟩
  have htest := (hreturns _ hmain' hmain).1 rfl
  apply htest
  rw [hqueue, hqueue₁]
  omega

/-- '-' does not wait in a run in which no consumer takes the last message between its look at
the queue and the mutex; and where one does, the main thread can come to wait. -/
theorem minus_returns_iff (memory : MsgStruct) (s : State) :
    (Reaches step LastIsKept (init memory) s → MinusReturns s) ∧
      ∀ a s', Reaches step anything (init memory) s → step s a = some s' → s'.fault = none →
        ¬ LastIsKept s a → ∃ t, Reaches step anything s' t ∧ ¬ MinusReturns t := by
  constructor
  · intro h main h0 hrole
    obtain ⟨main', h0', hm⟩ := minusOrdered_of_reaches h
    obtain rfl := Option.some.inj (h0.symm.trans h0')
    exact ⟨fun hpc => hm.message hrole (.inr hpc), hm.returns hrole⟩
  · intro a s' h hstep hfault' hnot
    simp only [LastIsKept, not_forall] at hnot
    obtain ⟨tid, rnd, th, main, rfl, hth, hrole, hpc, hone, h0, hmain, hlock⟩ := hnot
    exact waits_of_last_taken (owned_of_reaches h) hstep hfault' hth hrole hpc hone h0 hmain
      (not_not.mp hlock)

/-- The user puts one message in and then enters '-'; a consumer takes the message first. -/
def overtakenMinus : List Action :=
  .command .plus :: List.replicate 4 (.run 0 noRand) ++ .signal 0 none ::
    List.replicate 2 (.run 0 noRand) ++ [.command (.createConsumer Msg.zero 0), .run 1 noRand,
      .run 1 noRand, .command .minus, .run 0 noRand, .run 1 noRand, .signal 1 none, .run 1 noRand,
      .run 0 noRand, .run 0 noRand]

theorem minus_waits :
    ∃ s, Reaches step anything (init zeroMemory) s ∧ s.fault = none ∧ ¬ MinusReturns s := by
  have hrun : ∃ s, exec step (init zeroMemory) overtakenMinus = some s ∧ s.fault = none ∧
      (s.threads[0]?.map fun th => (th.role, th.pc)) = some (.consumer, .wait) :=
    ⟨_, rfl, rfl, rfl⟩
  obtain ⟨s, hexec, hfault, hmain⟩ := hrun
  refine ⟨s, reaches_anything_of_exec hexec, hfault, fun hreturns => ?_⟩
  obtain ⟨main, h0, hwait⟩ := Option.map_eq_some_iff.mp hmain
  obtain ⟨hrole, hpc⟩ := Prod.mk.inj hwait
  exact (hreturns main h0 hrole).2.1 hpc

/-- '-' on the empty queue. -/
theorem minus_returns_iff_empty :
    ∃ s, exec step (init zeroMemory) [.command .minus, .run 0 noRand] = some s ∧
      MinusReturns s := by
  have hrun : ∃ s, exec step (init zeroMemory) [.command .minus, .run 0 noRand] = some s :=
    ⟨_, rfl⟩
  obtain ⟨s, hs⟩ := hrun
  have hkept : ∀ a ∈ [Action.command .minus, .run 0 noRand], ∀ u, LastIsKept u a := by
    rintro a ha u tid rnd th main rfl hth _ hpc _ h0 _ hlock
    simp only [List.mem_cons, reduceCtorEq, Action.run.injEq, List.not_mem_nil, or_false,
      false_or] at ha
    -- the main thread itself cannot be at both places
    exact ne_of_pc hth h0 (by simp [hpc, hlock]) ha.1
  exact ⟨s, hs, (minus_returns_iff zeroMemory s).1 (reaches_of_exec hkept hs)⟩

end OsaspLabs.Lab7
