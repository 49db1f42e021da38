import OsaspLabs.Ipc.Workers

/-! # Accounting of tokens between the semaphores, the queue and the workers -/

namespace OsaspLabs.Ipc

variable {L : Type}

/-- The lock admits one holder, and every item and every slot is in exactly one place. -/
structure Balanced (prog : Program L) (sh : Shared L) (ws : List Worker) : Prop where
  queue : ∃ f, Represents sh.queue f
  mutex : prog.lock.free sh.mutex + count Pc.inCriticalSection ws = 1
  items : sh.queue.msgAmount.toNat =
    sh.items + count Pc.aboutToPostItems ws + count Pc.aboutToGet ws
  slots : sh.freeSpace + sh.queue.msgAmount.toNat + count Pc.aboutToPut ws +
    count Pc.aboutToPostFreeSpace ws = msgMax

/-- What one step of one worker moves, each sum written with the worker's own share. -/
structure Exchange (prog : Program L) (sh : Shared L) (w : Worker) (sh' : Shared L)
    (w' : Worker) : Prop where
  queue : ∃ f, Represents sh'.queue f
  mutex : prog.lock.free sh'.mutex + w'.pc.inCriticalSection.toNat =
    prog.lock.free sh.mutex + w.pc.inCriticalSection.toNat
  items : sh'.queue.msgAmount.toNat + sh.items + w.pc.aboutToPostItems.toNat +
      w.pc.aboutToGet.toNat =
    sh.queue.msgAmount.toNat + sh'.items + w'.pc.aboutToPostItems.toNat +
      w'.pc.aboutToGet.toNat
  slots : sh'.freeSpace + sh'.queue.msgAmount.toNat + w'.pc.aboutToPut.toNat +
      w'.pc.aboutToPostFreeSpace.toNat =
    sh.freeSpace + sh.queue.msgAmount.toNat + w.pc.aboutToPut.toNat +
      w.pc.aboutToPostFreeSpace.toNat

/-- A successful `put_msg` adds one message. -/
theorem putMsg_amount {q q' : MsgQueue} {m : Msg} {n : UInt64}
    (hq : ∃ f, Represents q f) (h : putMsg q m = .ok (n, q')) :
    (∃ f, Represents q' f) ∧ q'.msgAmount.toNat = q.msgAmount.toNat + 1 := by
  obtain ⟨f, hf⟩ := hq
  by_cases hroom : f.items.length < msgMax - 1
  · obtain ⟨_, q₁, g, hput, hpush, hrep, _⟩ := putMsg_room hf hroom m
    obtain ⟨rfl, rfl⟩ := Prod.mk.inj (Except.ok.inj (hput.symm.trans h))
    refine ⟨⟨g, hrep⟩, ?_⟩
    rw [hrep.amount, hf.amount, Fifo.push?_items hpush, List.length_append]
    rfl
  · have hfull : f.items.length = msgMax - 1 := by
      have := f.fits
      omega
    rw [putMsg_full hf hfull m] at h
    cases h

/-- A successful `get_msg` removes one message. -/
theorem getMsg_amount {q q' : MsgQueue} {m : Msg} {n : UInt64}
    (hq : ∃ f, Represents q f) (h : getMsg q = .ok (m, n, q')) :
    (∃ f, Represents q' f) ∧ q.msgAmount.toNat = q'.msgAmount.toNat + 1 := by
  obtain ⟨f, hf⟩ := hq
  cases hitems : f.items with
  | nil =>
      rw [getMsg_empty hf hitems] at h
      cases h
  | cons x rest =>
      obtain ⟨_, q₁, g, hget, hpop, hrep, _⟩ := getMsg_item hf hitems
      obtain ⟨rfl, hrest⟩ := Prod.mk.inj (Except.ok.inj (hget.symm.trans h))
      obtain ⟨rfl, rfl⟩ := Prod.mk.inj hrest
      refine ⟨⟨g, hrep⟩, ?_⟩
      rw [hrep.amount, hf.amount, Fifo.pop?_items hpop, List.length_cons]

/-- Taking the lock moves the worker into the critical section and nothing else. -/
theorem Exchange.lock {prog : Program L} {self : ℕ} {sh : Shared L} {w w' : Worker} {m : L}
    (hq : ∃ f, Represents sh.queue f) (hm : prog.lock.acquire sh.mutex self = some m)
    (hbefore : w.pc.inCriticalSection = false) (hafter : w'.pc.inCriticalSection = true)
    (hitems : w'.pc.aboutToPostItems = w.pc.aboutToPostItems ∧
      w'.pc.aboutToGet = w.pc.aboutToGet)
    (hslots : w'.pc.aboutToPut = w.pc.aboutToPut ∧
      w'.pc.aboutToPostFreeSpace = w.pc.aboutToPostFreeSpace) :
    Exchange prog sh w { sh with mutex := m } w' where
  queue := hq
  mutex := by
    rw [hbefore, hafter, Bool.toNat_true, Bool.toNat_false]
    exact (prog.lock.free_of_acquire hm).symm
  items := by rw [hitems.1, hitems.2]
  slots := by rw [hslots.1, hslots.2]

/-- Releasing the lock moves the worker out of the critical section and nothing else. -/
theorem Exchange.unlock {prog : Program L} {self : ℕ} {sh : Shared L} {w w' : Worker}
    (hq : ∃ f, Represents sh.queue f)
    (hheld : w.pc.inCriticalSection = true → prog.lock.free sh.mutex = 0)
    (hbefore : w.pc.inCriticalSection = true) (hafter : w'.pc.inCriticalSection = false)
    (hitems : w'.pc.aboutToPostItems = w.pc.aboutToPostItems ∧
      w'.pc.aboutToGet = w.pc.aboutToGet)
    (hslots : w'.pc.aboutToPut = w.pc.aboutToPut ∧
      w'.pc.aboutToPostFreeSpace = w.pc.aboutToPostFreeSpace) :
    Exchange prog sh w { sh with mutex := prog.lock.release sh.mutex self } w' where
  queue := hq
  mutex := by
    have hfree := hheld hbefore
    simp only [hbefore, hafter, Bool.toNat_true, Bool.toNat_false, hfree,
      prog.lock.free_release self hfree]
  items := by rw [hitems.1, hitems.2]
  slots := by rw [hslots.1, hslots.2]

theorem producerStep_exchange {prog : Program L} {self : ℕ} {rnd : Rand} {sh sh' : Shared L}
    {w w' : Worker} {pc : ProducerPc} (hpc : w.pc = .producer pc)
    (hq : ∃ f, Represents sh.queue f)
    (hheld : w.pc.inCriticalSection = true → prog.lock.free sh.mutex = 0)
    (h : producerStep prog self rnd sh w pc = .next sh' w') : Exchange prog sh w sh' w' := by
  cases pc with
  | produceMsg =>
      obtain ⟨rfl, rfl⟩ := Outcome.next.inj h
      exact ⟨hq, by rw [hpc]; rfl, by rw [hpc]; rfl, by rw [hpc]; rfl⟩
  | waitFreeSpace =>
      simp only [producerStep] at h
      split at h
      · cases h
      · obtain ⟨rfl, rfl⟩ := Outcome.next.inj h
        refine ⟨hq, by rw [hpc]; rfl, by rw [hpc]; rfl, ?_⟩
        simp only [hpc, Pc.aboutToPut, Pc.aboutToPostFreeSpace, Bool.toNat_true, Bool.toNat_false]
        omega
  | lock =>
      simp only [producerStep] at h
      split at h
      · cases h
      · rename_i m hm
        obtain ⟨rfl, rfl⟩ := Outcome.next.inj h
        apply Exchange.lock hq hm <;> simp only [hpc]
        · rfl
        · rfl
        · exact ⟨rfl, rfl⟩
        · exact ⟨rfl, rfl⟩
  | putMsg =>
      simp only [producerStep] at h
      split at h
      · cases h
      · rename_i n q hput
        obtain ⟨rfl, rfl⟩ := Outcome.next.inj h
        obtain ⟨hq', hamount⟩ := putMsg_amount hq hput
        refine ⟨hq', by rw [hpc]; rfl, ?_, ?_⟩
        · simp only [hpc, Pc.aboutToPostItems, Pc.aboutToGet, Bool.toNat_true, Bool.toNat_false]
          omega
        · simp only [hpc, Pc.aboutToPut, Pc.aboutToPostFreeSpace, Bool.toNat_true,
            Bool.toNat_false]
          omega
  | unlock =>
      obtain ⟨rfl, rfl⟩ := Outcome.next.inj h
      apply Exchange.unlock hq hheld <;> simp only [hpc]
      · rfl
      · rfl
      · exact ⟨rfl, rfl⟩
      · exact ⟨rfl, rfl⟩
  | postItems =>
      obtain ⟨rfl, rfl⟩ := Outcome.next.inj h
      refine ⟨hq, by rw [hpc]; rfl, ?_, by rw [hpc]; rfl⟩
      simp only [hpc, Pc.aboutToPostItems, Pc.aboutToGet, Bool.toNat_true, Bool.toNat_false]
      omega
  | printf =>
      obtain ⟨rfl, rfl⟩ := Outcome.next.inj h
      exact ⟨hq, by rw [hpc]; rfl, by rw [hpc]; rfl, by rw [hpc]; rfl⟩
  | sleep =>
      obtain ⟨rfl, rfl⟩ := Outcome.next.inj h
      exact ⟨hq, by rw [hpc]; rfl, by rw [hpc]; rfl, by rw [hpc]; rfl⟩

theorem consumerStep_exchange {prog : Program L} {self : ℕ} {sh sh' : Shared L}
    {w w' : Worker} {pc : ConsumerPc} (hpc : w.pc = .consumer pc)
    (hq : ∃ f, Represents sh.queue f)
    (hheld : w.pc.inCriticalSection = true → prog.lock.free sh.mutex = 0)
    (h : consumerStep prog self sh w pc = .next sh' w') : Exchange prog sh w sh' w' := by
  cases pc with
  | waitItems =>
      simp only [consumerStep] at h
      split at h
      · cases h
      · obtain ⟨rfl, rfl⟩ := Outcome.next.inj h
        refine ⟨hq, by rw [hpc]; rfl, ?_, by rw [hpc]; rfl⟩
        simp only [hpc, Pc.aboutToPostItems, Pc.aboutToGet, Bool.toNat_true, Bool.toNat_false]
        omega
  | lock =>
      simp only [consumerStep] at h
      split at h
      · cases h
      · rename_i m hm
        obtain ⟨rfl, rfl⟩ := Outcome.next.inj h
        apply Exchange.lock hq hm <;> simp only [hpc]
        · rfl
        · rfl
        · exact ⟨rfl, rfl⟩
        · exact ⟨rfl, rfl⟩
  | getMsg =>
      simp only [consumerStep] at h
      split at h
      · cases h
      · rename_i m n q hget
        obtain ⟨rfl, rfl⟩ := Outcome.next.inj h
        obtain ⟨hq', hamount⟩ := getMsg_amount hq hget
        refine ⟨hq', by rw [hpc]; rfl, ?_, ?_⟩
        · simp only [hpc, Pc.aboutToPostItems, Pc.aboutToGet, Bool.toNat_true, Bool.toNat_false]
          omega
        · simp only [hpc, Pc.aboutToPut, Pc.aboutToPostFreeSpace, Bool.toNat_true,
            Bool.toNat_false]
          omega
  | unlock =>
      obtain ⟨rfl, rfl⟩ := Outcome.next.inj h
      apply Exchange.unlock hq hheld <;> simp only [hpc]
      · rfl
      · rfl
      · exact ⟨rfl, rfl⟩
      · exact ⟨rfl, rfl⟩
  | postFreeSpace =>
      obtain ⟨rfl, rfl⟩ := Outcome.next.inj h
      refine ⟨hq, by rw [hpc]; rfl, by rw [hpc]; rfl, ?_⟩
      simp only [hpc, Pc.aboutToPut, Pc.aboutToPostFreeSpace, Bool.toNat_true, Bool.toNat_false]
      omega
  | consumeMsg =>
      obtain ⟨rfl, rfl⟩ := Outcome.next.inj h
      cases hreport : (consumeMsg w.msg).2 <;>
        exact ⟨hq, by simp [hpc, Pc.inCriticalSection],
          by simp [hpc, Pc.aboutToPostItems, Pc.aboutToGet],
          by simp [hpc, Pc.aboutToPut, Pc.aboutToPostFreeSpace]⟩
  | fprintf =>
      obtain ⟨rfl, rfl⟩ := Outcome.next.inj h
      exact ⟨hq, by rw [hpc]; rfl, by rw [hpc]; rfl, by rw [hpc]; rfl⟩
  | printf =>
      obtain ⟨rfl, rfl⟩ := Outcome.next.inj h
      exact ⟨hq, by rw [hpc]; rfl, by rw [hpc]; rfl, by rw [hpc]; rfl⟩
  | sleep =>
      obtain ⟨rfl, rfl⟩ := Outcome.next.inj h
      exact ⟨hq, by rw [hpc]; rfl, by rw [hpc]; rfl, by rw [hpc]; rfl⟩

theorem workerStep_exchange {prog : Program L} {self : ℕ} {rnd : Rand} {sh sh' : Shared L}
    {w w' : Worker} (hq : ∃ f, Represents sh.queue f)
    (hheld : w.pc.inCriticalSection = true → prog.lock.free sh.mutex = 0)
    (h : workerStep prog self rnd sh w = .next sh' w') : Exchange prog sh w sh' w' := by
  unfold workerStep at h
  split at h
  · rename_i pc hpc
    exact producerStep_exchange hpc hq hheld h
  · rename_i pc hpc
    exact consumerStep_exchange hpc hq hheld h

/-! ## The whole system -/

theorem count_set (at? : Pc → Bool) {ws : List Worker} {i : ℕ} {w : Worker}
    (h : ws[i]? = some w) (w' : Worker) :
    count at? (ws.set i w') + (at? w.pc).toNat = count at? ws + (at? w'.pc).toNat :=
  tally_set _ h w'

theorem le_count (at? : Pc → Bool) {ws : List Worker} {i : ℕ} {w : Worker}
    (h : ws[i]? = some w) (hat : at? w.pc = true) : 1 ≤ count at? ws := by
  have hle := le_tally (fun w => (at? w.pc).toNat) h
  simpa [hat, count] using hle

theorem Balanced.held {prog : Program L} {sh : Shared L} {ws : List Worker}
    (hb : Balanced prog sh ws) {i : ℕ} {w : Worker} (hi : ws[i]? = some w)
    (hcs : w.pc.inCriticalSection = true) : prog.lock.free sh.mutex = 0 := by
  have hle := le_count Pc.inCriticalSection hi hcs
  have hm := hb.mutex
  omega

/-- Every step of every worker keeps the accounts. -/
theorem Balanced.work {prog : Program L} {sh sh' : Shared L} {ws : List Worker} {i : ℕ}
    {rnd : Rand} {w w' : Worker} (hb : Balanced prog sh ws) (hi : ws[i]? = some w)
    (h : workerStep prog i rnd sh w = .next sh' w') : Balanced prog sh' (ws.set i w') := by
  have he := workerStep_exchange hb.queue (hb.held hi) h
  refine ⟨he.queue, ?_, ?_, ?_⟩
  · have hset := count_set Pc.inCriticalSection hi w'
    have hm := hb.mutex
    have hx := he.mutex
    omega
  · have hpost := count_set Pc.aboutToPostItems hi w'
    have hget := count_set Pc.aboutToGet hi w'
    have hm := hb.items
    have hx := he.items
    omega
  · have hput := count_set Pc.aboutToPut hi w'
    have hpost := count_set Pc.aboutToPostFreeSpace hi w'
    have hm := hb.slots
    have hx := he.slots
    omega

theorem Balanced.append {prog : Program L} {sh : Shared L} {ws : List Worker} {w : Worker}
    (hb : Balanced prog sh ws)
    (hw : w.pc = .producer .produceMsg ∨ w.pc = .consumer .waitItems) :
    Balanced prog sh (ws ++ [w]) := by
  refine ⟨hb.queue, ?_, ?_, ?_⟩
  · have hm := hb.mutex
    rcases hw with hw | hw <;> simpa [count, hw, Pc.inCriticalSection] using hm
  · have hm := hb.items
    rcases hw with hw | hw <;>
      simpa [count, hw, Pc.aboutToPostItems, Pc.aboutToGet] using hm
  · have hm := hb.slots
    rcases hw with hw | hw <;>
      simpa [count, hw, Pc.aboutToPut, Pc.aboutToPostFreeSpace] using hm

/-- What `init` sets up, seen by no worker yet. -/
theorem balanced_init {prog : Program L} {sh : Shared L}
    (hq : Represents sh.queue Fifo.empty) (hmutex : prog.lock.free sh.mutex = 1)
    (hfree : sh.freeSpace = msgMax) (hitems : sh.items = 0) : Balanced prog sh [] := by
  have hamount : sh.queue.msgAmount.toNat = 0 := hq.amount
  refine ⟨⟨_, hq⟩, ?_, ?_, ?_⟩ <;> simp [count, hmutex, hfree, hitems, hamount]

/-! ## Consequences -/

theorem Balanced.exclusive {prog : Program L} {sh : Shared L} {ws : List Worker}
    (hb : Balanced prog sh ws) {i j : ℕ} {v w : Worker}
    (hi : ws[i]? = some v) (hj : ws[j]? = some w)
    (hv : v.pc.inCriticalSection = true) (hw : w.pc.inCriticalSection = true) : i = j := by
  by_contra hij
  have hle := add_le_tally (fun w : Worker => w.pc.inCriticalSection.toNat) hij hi hj
  have hm := hb.mutex
  simp only [hv, hw, Bool.toNat_true] at hle
  simp only [count] at hm
  omega

theorem holdsSlot_of_inCriticalSection {pc : Pc} (h : pc.inCriticalSection = true) :
    pc.holdsSlot = true := by
  rcases pc with pc | pc <;> cases pc <;> first | rfl | cases h

theorem count_holdsSlot (ws : List Worker) :
    count Pc.holdsSlot ws = count Pc.aboutToPut ws + count Pc.aboutToPostItems ws +
      count Pc.aboutToGet ws + count Pc.aboutToPostFreeSpace ws := by
  induction ws with
  | nil => rfl
  | cons w ws ih =>
      have hw : w.pc.holdsSlot.toNat = w.pc.aboutToPut.toNat + w.pc.aboutToPostItems.toNat +
          w.pc.aboutToGet.toNat + w.pc.aboutToPostFreeSpace.toNat := by
        rcases w.pc with pc | pc <;> cases pc <;> rfl
      simp only [count, tally_cons] at ih ⊢
      omega

/-- Every slot is free, filled, or held by a worker between its semaphore operations. -/
theorem Balanced.slots_held {prog : Program L} {sh : Shared L} {ws : List Worker}
    (hb : Balanced prog sh ws) :
    sh.freeSpace + sh.items + count Pc.holdsSlot ws = msgMax := by
  have hi := hb.items
  have hs := hb.slots
  rw [count_holdsSlot]
  omega

/-- A consumer that holds the lock finds a message. -/
theorem Balanced.getMsg_ok {prog : Program L} {sh : Shared L} {ws : List Worker}
    (hb : Balanced prog sh ws) {i : ℕ} {w : Worker} (hi : ws[i]? = some w)
    (hpc : w.pc = .consumer .getMsg) : ∃ m n q, getMsg sh.queue = .ok (m, n, q) := by
  obtain ⟨f, hf⟩ := hb.queue
  have hle := le_count Pc.aboutToGet hi (by rw [hpc]; rfl)
  have hitems := hb.items
  have hamount := hf.amount
  cases hlist : f.items with
  | nil =>
      rw [hlist, List.length_nil] at hamount
      omega
  | cons x rest =>
      obtain ⟨_, q, _, hget, _⟩ := getMsg_item hf hlist
      exact ⟨_, _, q, hget⟩

/-- `put_msg` overflows exactly on `MSG_MAX - 1` messages and never leaves `buffer`. -/
theorem Balanced.putMsg_cases {prog : Program L} {sh : Shared L} {ws : List Worker}
    (hb : Balanced prog sh ws) (m : Msg) :
    (sh.queue.msgAmount.toNat = msgMax - 1 ∧ putMsg sh.queue m = .error overflow) ∨
      (sh.queue.msgAmount.toNat < msgMax - 1 ∧ ∃ n q, putMsg sh.queue m = .ok (n, q)) := by
  obtain ⟨f, hf⟩ := hb.queue
  have hamount := hf.amount
  have hfits := f.fits
  by_cases hroom : f.items.length < msgMax - 1
  · obtain ⟨_, q, _, hput, _⟩ := putMsg_room hf hroom m
    exact .inr ⟨by omega, _, q, hput⟩
  · have hfull : f.items.length = msgMax - 1 := by omega
    exact .inl ⟨by omega, putMsg_full hf hfull m⟩

/-- The only exit is `put_msg` on `MSG_MAX - 1` messages. -/
theorem Balanced.exit_full {prog : Program L} {sh : Shared L} {ws : List Worker}
    (hb : Balanced prog sh ws) {i : ℕ} {rnd : Rand} {w : Worker} {e : Fault}
    (hi : ws[i]? = some w) (h : workerStep prog i rnd sh w = .exit e) :
    w.pc = .producer .putMsg ∧ sh.queue.msgAmount.toNat = msgMax - 1 ∧ e = overflow := by
  unfold workerStep at h
  split at h
  · rename_i pc hpc
    cases pc <;> simp only [producerStep] at h
    case putMsg =>
      rcases hb.putMsg_cases w.msg with ⟨hfull, herr⟩ | ⟨_, n, q, hput⟩
      · rw [herr] at h
        exact ⟨hpc, hfull, (Outcome.exit.inj h).symm⟩
      · simp [hput] at h
    all_goals first | cases h | (split at h <;> cases h)
  · rename_i pc hpc
    cases pc <;> simp only [consumerStep] at h
    case getMsg =>
      obtain ⟨m, n, q, hget⟩ := hb.getMsg_ok hi hpc
      simp [hget] at h
    all_goals first | cases h | (split at h <;> cases h)

/-- Besides the slot of a producer about to put, another one is free or on its way. -/
def SpareSlot (sh : Shared L) (ws : List Worker) : Prop :=
  2 ≤ sh.freeSpace + count Pc.aboutToPut ws + count Pc.aboutToPostFreeSpace ws

theorem Balanced.not_full_of_spareSlot {prog : Program L} {sh : Shared L} {ws : List Worker}
    (hb : Balanced prog sh ws) (hspare : SpareSlot sh ws) :
    sh.queue.msgAmount.toNat ≠ msgMax - 1 := by
  have hslots := hb.slots
  unfold SpareSlot at hspare
  omega

/-- The semaphores admit one message more than `put_msg` does, so the bound in `put_msg`
is met exactly by the producer that took the last slot. -/
theorem Balanced.overflow_iff {prog : Program L} {sh : Shared L} {ws : List Worker}
    (hb : Balanced prog sh ws) {i : ℕ} {w : Worker} (hi : ws[i]? = some w)
    (hpc : w.pc = .producer .putMsg) :
    putMsg sh.queue w.msg = .error overflow ↔ ¬ SpareSlot sh ws := by
  rcases hb.putMsg_cases w.msg with ⟨hfull, herr⟩ | ⟨hroom, n, q, hok⟩
  · rw [herr]
    exact ⟨fun _ hspare => hb.not_full_of_spareSlot hspare hfull, fun _ => rfl⟩
  · have hput := le_count Pc.aboutToPut hi (by rw [hpc]; rfl)
    have hslots := hb.slots
    have hspare : SpareSlot sh ws := by
      unfold SpareSlot
      omega
    rw [hok]
    exact ⟨nofun, fun hnot => absurd hspare hnot⟩

end OsaspLabs.Ipc
