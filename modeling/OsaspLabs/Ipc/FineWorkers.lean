import OsaspLabs.Ipc.Calls
import Mathlib.Logic.Function.Basic

/-! # The loops with their queue calls taken apart

Only the worker that holds the lock is inside a call. So the others, and whoever takes the lock
next, see the queue as the whole calls leave it. -/

namespace OsaspLabs.Ipc

variable {L : Type}

/-- What an observer of the queue calls sees when one returns. -/
inductive Event where
  | put (self : ℕ) (msg : Msg) (count : UInt64)
  | got (self : ℕ) (msg : Msg) (count : UInt64)

/-- What a step of the loop shows in which a queue call is one step. -/
def workerEvents (self : ℕ) (sh : Shared L) (w : Worker) : List Event :=
  match w.pc with
  | .producer .putMsg =>
      match putMsg sh.queue w.msg with
      | .error _ => []
      | .ok (n, _) => [.put self w.msg n]
  | .consumer .getMsg =>
      match getMsg sh.queue with
      | .error _ => []
      | .ok (m, n, _) => [.got self m n]
  | _ => []

inductive FineOutcome (L : Type) where
  | blocked
  | next (sh : Shared L) (w : Worker) (call : Option Call) (events : List Event)
  | exit (fault : Fault)

/-- One statement of worker number `self`, which is in the middle of `call` if there is one. -/
def fineWorkerStep (prog : Program L) (self : ℕ) (rnd : Rand) (sh : Shared L) (w : Worker)
    (call : Option Call) : FineOutcome L :=
  match w.pc with
  | .producer .putMsg =>
      match putStep sh.queue w.msg (Call.putPc call) with
      | .next q pc => .next { sh with queue := q } w (some (.put pc)) []
      | .returned q m n =>
          .next { sh with queue := q } ⟨.producer .unlock, m, n⟩ none [.put self m n]
      | .exit e => .exit e
  | .consumer .getMsg =>
      match getStep sh.queue (Call.getPc call) with
      | .next q pc => .next { sh with queue := q } w (some (.get pc)) []
      | .returned q m n =>
          .next { sh with queue := q } ⟨.consumer .unlock, m, n⟩ none [.got self m n]
      | .exit e => .exit e
  | _ =>
      match workerStep prog self rnd sh w with
      | .blocked => .blocked
      | .next sh w => .next sh w none []
      | .exit e => .exit e

/-! ## The queue behind the calls -/

/-- The worker is in the middle of a call; the queue was `q₀` before it and is `q` now. -/
def CallOk (q₀ q : MsgQueue) (w : Worker) : Call → Prop
  | .put pc => w.pc = .producer .putMsg ∧ PutOk q₀ w.msg q pc
  | .get pc => w.pc = .consumer .getMsg ∧ GetOk q₀ q pc

/-- `q₀` is the queue as the calls that have returned left it. -/
structure InCall (q₀ q : MsgQueue) (ws : List Worker) (calls : ℕ → Option Call) : Prop where
  inside : ∀ t c, calls t = some c → ∃ w, ws[t]? = some w ∧ CallOk q₀ q w c
  idle : (∀ t, calls t = none) → q = q₀

def Shared.withQueue (sh : Shared L) (q : MsgQueue) : Shared L := { sh with queue := q }

@[simp] theorem Shared.queue_withQueue (sh : Shared L) (q : MsgQueue) :
    (sh.withQueue q).queue = q := rfl

@[simp] theorem Shared.withQueue_withQueue (sh : Shared L) (q q' : MsgQueue) :
    (sh.withQueue q).withQueue q' = sh.withQueue q' := rfl

/-- At the queue calls a worker holds the lock. -/
theorem CallOk.inCriticalSection {q₀ q : MsgQueue} {w : Worker} {c : Call}
    (h : CallOk q₀ q w c) : w.pc.inCriticalSection = true := by
  cases c with
  | put pc =>
      rw [h.1]
      rfl
  | get pc =>
      rw [h.1]
      rfl

/-- No other worker is inside a call. -/
theorem InCall.alone {prog : Program L} {sh : Shared L} {ws : List Worker}
    {calls : ℕ → Option Call} {q₀ q : MsgQueue} {t : ℕ} {w : Worker}
    (h : InCall q₀ q ws calls) (hb : Balanced prog (sh.withQueue q₀) ws) (ht : ws[t]? = some w)
    (hcs : w.pc.inCriticalSection = true) {u : ℕ} (hu : u ≠ t) : calls u = none := by
  cases hcall : calls u with
  | none => rfl
  | some c =>
      obtain ⟨v, hv, hok⟩ := h.inside u c hcall
      exact absurd (hb.exclusive hv ht hok.inCriticalSection hcs) hu

/-- Outside the queue calls a step neither reads nor changes the queue. -/
theorem workerStep_withQueue {prog : Program L} {self : ℕ} {rnd : Rand} {sh sh' : Shared L}
    {w w' : Worker} (hput : w.pc ≠ .producer .putMsg) (hget : w.pc ≠ .consumer .getMsg)
    (h : workerStep prog self rnd sh w = .next sh' w') (q : MsgQueue) :
    sh'.queue = sh.queue ∧
      workerStep prog self rnd (sh.withQueue q) w = .next (sh'.withQueue q) w' := by
  unfold workerStep at h ⊢
  cases hpc : w.pc with
  | producer pc =>
      rw [hpc] at h hput
      cases pc with
      | putMsg => exact absurd rfl hput
      | produceMsg | unlock | postItems | printf | sleep =>
          obtain ⟨rfl, rfl⟩ := Outcome.next.inj h
          exact ⟨rfl, rfl⟩
      | waitFreeSpace =>
          simp only [producerStep, Shared.withQueue] at h ⊢
          split at h
          · cases h
          · rename_i hfree
            obtain ⟨rfl, rfl⟩ := Outcome.next.inj h
            exact ⟨rfl, if_neg hfree⟩
      | lock =>
          simp only [producerStep, Shared.withQueue] at h ⊢
          split at h
          · cases h
          · obtain ⟨rfl, rfl⟩ := Outcome.next.inj h
            exact ⟨rfl, rfl⟩
  | consumer pc =>
      rw [hpc] at h hget
      cases pc with
      | getMsg => exact absurd rfl hget
      | unlock | postFreeSpace | consumeMsg | fprintf | printf | sleep =>
          obtain ⟨rfl, rfl⟩ := Outcome.next.inj h
          exact ⟨rfl, rfl⟩
      | waitItems =>
          simp only [consumerStep, Shared.withQueue] at h ⊢
          split at h
          · cases h
          · rename_i hitems
            obtain ⟨rfl, rfl⟩ := Outcome.next.inj h
            exact ⟨rfl, if_neg hitems⟩
      | lock =>
          simp only [consumerStep, Shared.withQueue] at h ⊢
          split at h
          · cases h
          · obtain ⟨rfl, rfl⟩ := Outcome.next.inj h
            exact ⟨rfl, rfl⟩

/-- A worker leaves through an exit only at a queue call. -/
theorem workerStep_not_exit {prog : Program L} {self : ℕ} {rnd : Rand} {sh : Shared L}
    {w : Worker} {e : Fault} (hput : w.pc ≠ .producer .putMsg)
    (hget : w.pc ≠ .consumer .getMsg) : workerStep prog self rnd sh w ≠ .exit e := by
  intro h
  unfold workerStep at h
  cases hpc : w.pc with
  | producer pc =>
      rw [hpc] at h hput
      cases pc with
      | putMsg => exact hput rfl
      | produceMsg | unlock | postItems | printf | sleep => cases h
      | waitFreeSpace | lock =>
          simp only [producerStep] at h
          split at h <;> cases h
  | consumer pc =>
      rw [hpc] at h hget
      cases pc with
      | getMsg => exact hget rfl
      | unlock | postFreeSpace | consumeMsg | fprintf | printf | sleep => cases h
      | waitItems | lock =>
          simp only [consumerStep] at h
          split at h <;> cases h

/-! ## One statement is a step, or nothing that the others can see -/

/-- What a statement of worker `t` is behind the calls. -/
inductive FineEffect (prog : Program L) (t : ℕ) (rnd : Rand) (q₀ : MsgQueue) (sh : Shared L)
    (ws : List Worker) (calls : ℕ → Option Call) (w : Worker) (sh' : Shared L) (w' : Worker)
    (call : Option Call) (events : List Event) : Prop where
  /-- A statement inside a call. -/
  | inside (worker : w' = w) (shared : sh'.withQueue q₀ = sh.withQueue q₀) (shows : events = [])
      (ok : InCall q₀ sh'.queue ws (Function.update calls t call))
  /-- A step of the loop, the return from a call included. -/
  | step (q₁ : MsgQueue)
      (next : workerStep prog t rnd (sh.withQueue q₀) w = .next (sh'.withQueue q₁) w')
      (shows : events = workerEvents t (sh.withQueue q₀) w)
      (ok : InCall q₁ sh'.queue (ws.set t w') (Function.update calls t call))

section Statements

variable {prog : Program L} {t : ℕ} {rnd : Rand} {q₀ : MsgQueue} {sh sh' : Shared L}
  {ws : List Worker} {calls : ℕ → Option Call} {w w' : Worker}

/-- The queue is as it was if no call is under way. -/
theorem InCall.queue_eq (h : InCall q₀ sh.queue ws calls)
    (hb : Balanced prog (sh.withQueue q₀) ws) (ht : ws[t]? = some w)
    (hcs : w.pc.inCriticalSection = true) (hcall : calls t = none) : sh.queue = q₀ := by
  apply h.idle
  intro u
  by_cases hu : u = t
  · exact hu ▸ hcall
  · exact h.alone hb ht hcs hu

theorem InCall.putOk (h : InCall q₀ sh.queue ws calls)
    (hb : Balanced prog (sh.withQueue q₀) ws) (ht : ws[t]? = some w)
    (hpc : w.pc = .producer .putMsg) : PutOk q₀ w.msg sh.queue (Call.putPc (calls t)) := by
  cases hcall : calls t with
  | none => exact h.queue_eq hb ht (by rw [hpc]; rfl) hcall
  | some c =>
      obtain ⟨v, hv, hok⟩ := h.inside t c hcall
      obtain rfl := Option.some.inj (hv.symm.trans ht)
      cases c with
      | put pc => exact hok.2
      | get pc =>
          cases hpc.symm.trans hok.1

theorem InCall.getOk (h : InCall q₀ sh.queue ws calls)
    (hb : Balanced prog (sh.withQueue q₀) ws) (ht : ws[t]? = some w)
    (hpc : w.pc = .consumer .getMsg) : GetOk q₀ sh.queue (Call.getPc (calls t)) := by
  cases hcall : calls t with
  | none => exact h.queue_eq hb ht (by rw [hpc]; rfl) hcall
  | some c =>
      obtain ⟨v, hv, hok⟩ := h.inside t c hcall
      obtain rfl := Option.some.inj (hv.symm.trans ht)
      cases c with
      | get pc => exact hok.2
      | put pc =>
          cases hpc.symm.trans hok.1

/-- The worker inside a call goes on. -/
theorem InCall.goesOn {q : MsgQueue} {c : Call}
    (hother : ∀ u, u ≠ t → calls u = none) (ht : ws[t]? = some w) (hok : CallOk q₀ q w c) :
    InCall q₀ q ws (Function.update calls t (some c)) where
  inside u d hu := by
    by_cases hut : u = t
    · subst hut
      rw [Function.update_self] at hu
      exact Option.some.inj hu ▸ ⟨w, ht, hok⟩
    · rw [Function.update_of_ne hut, hother u hut] at hu
      cases hu
  idle hnone := by
    have hin := hnone t
    rw [Function.update_self] at hin
    cases hin

/-- It returns. -/
theorem InCall.returns (q : MsgQueue) (ws : List Worker) (hother : ∀ u, u ≠ t → calls u = none) :
    InCall q q ws (Function.update calls t none) where
  inside u d hu := by
    by_cases hut : u = t
    · rw [hut, Function.update_self] at hu
      cases hu
    · rw [Function.update_of_ne hut, hother u hut] at hu
      cases hu
  idle _ := rfl

/-- A worker outside the calls takes a step. -/
theorem InCall.outside {q : MsgQueue} (h : InCall q₀ q ws calls) (hcall : calls t = none) :
    InCall q₀ q (ws.set t w') (Function.update calls t none) := by
  have hsame : Function.update calls t none = calls := by
    rw [← hcall, Function.update_eq_self]
  rw [hsame]
  refine ⟨fun u c hu => ?_, h.idle⟩
  have hut : t ≠ u := by
    rintro rfl
    rw [hcall] at hu
    cases hu
  rw [List.getElem?_set_ne hut]
  exact h.inside u c hu

/-- New workers come. -/
theorem InCall.more {q : MsgQueue} (h : InCall q₀ q ws calls) (vs : List Worker) :
    InCall q₀ q (ws ++ vs) calls where
  inside u c hu := by
    obtain ⟨v, hv, hok⟩ := h.inside u c hu
    refine ⟨v, ?_, hok⟩
    rw [List.getElem?_append_left (List.getElem?_eq_some_iff.mp hv).1, hv]
  idle := h.idle

/-- A worker that is not at a queue call is not inside one. -/
theorem InCall.not_inside {q : MsgQueue} (h : InCall q₀ q ws calls) (ht : ws[t]? = some w)
    (hput : w.pc ≠ .producer .putMsg) (hget : w.pc ≠ .consumer .getMsg) : calls t = none := by
  cases hcall : calls t with
  | none => rfl
  | some c =>
      obtain ⟨v, hv, hok⟩ := h.inside t c hcall
      obtain rfl := Option.some.inj (hv.symm.trans ht)
      cases c with
      | put pc => exact absurd hok.1 hput
      | get pc => exact absurd hok.1 hget

theorem fineWorkerStep_put {call : Option Call} {events : List Event}
    (hb : Balanced prog (sh.withQueue q₀) ws) (h : InCall q₀ sh.queue ws calls)
    (ht : ws[t]? = some w) (hpc : w.pc = .producer .putMsg)
    (hnext : fineWorkerStep prog t rnd sh w (calls t) = .next sh' w' call events) :
    FineEffect prog t rnd q₀ sh ws calls w sh' w' call events := by
  have hok := putStep_ok (h.putOk hb ht hpc)
  have hother : ∀ u, u ≠ t → calls u = none := fun u hu =>
    h.alone hb ht (by rw [hpc]; rfl) hu
  simp only [fineWorkerStep, hpc] at hnext
  cases hput : putStep sh.queue w.msg (Call.putPc (calls t)) with
  | next q pc =>
      rw [hput] at hnext hok
      obtain ⟨rfl, rfl, rfl, rfl⟩ := FineOutcome.next.inj hnext
      exact .inside rfl rfl rfl (InCall.goesOn hother ht ⟨hpc, hok⟩)
  | returned q m n =>
      rw [hput] at hnext hok
      obtain ⟨rfl, rfl, rfl, rfl⟩ := FineOutcome.next.inj hnext
      obtain ⟨rfl, hcall⟩ := hok
      refine .step q ?_ ?_ (InCall.returns q _ hother)
      · simp only [workerStep, hpc, producerStep, Shared.queue_withQueue, hcall]
        rfl
      · simp only [workerEvents, hpc, Shared.queue_withQueue, hcall]
  | exit e =>
      rw [hput] at hnext
      cases hnext

theorem fineWorkerStep_get {call : Option Call} {events : List Event}
    (hb : Balanced prog (sh.withQueue q₀) ws) (h : InCall q₀ sh.queue ws calls)
    (ht : ws[t]? = some w) (hpc : w.pc = .consumer .getMsg)
    (hnext : fineWorkerStep prog t rnd sh w (calls t) = .next sh' w' call events) :
    FineEffect prog t rnd q₀ sh ws calls w sh' w' call events := by
  have hok := getStep_ok (h.getOk hb ht hpc)
  have hother : ∀ u, u ≠ t → calls u = none := fun u hu =>
    h.alone hb ht (by rw [hpc]; rfl) hu
  simp only [fineWorkerStep, hpc] at hnext
  cases hget : getStep sh.queue (Call.getPc (calls t)) with
  | next q pc =>
      rw [hget] at hnext hok
      obtain ⟨rfl, rfl, rfl, rfl⟩ := FineOutcome.next.inj hnext
      exact .inside rfl rfl rfl (InCall.goesOn hother ht ⟨hpc, hok⟩)
  | returned q m n =>
      rw [hget] at hnext hok
      obtain ⟨rfl, rfl, rfl, rfl⟩ := FineOutcome.next.inj hnext
      have hcall : getMsg q₀ = .ok (m, n, q) := hok
      refine .step q ?_ ?_ (InCall.returns q _ hother)
      · simp only [workerStep, hpc, consumerStep, Shared.queue_withQueue, hcall]
        rfl
      · simp only [workerEvents, hpc, Shared.queue_withQueue, hcall]
  | exit e =>
      rw [hget] at hnext
      cases hnext

theorem fineWorkerStep_outside (hput : w.pc ≠ .producer .putMsg)
    (hget : w.pc ≠ .consumer .getMsg) (call : Option Call) :
    fineWorkerStep prog t rnd sh w call = match workerStep prog t rnd sh w with
      | .blocked => .blocked
      | .next sh w => .next sh w none []
      | .exit e => .exit e := by
  unfold fineWorkerStep
  split
  · rename_i hpc
    exact absurd hpc hput
  · rename_i hpc
    exact absurd hpc hget
  · rfl

theorem workerEvents_outside (hput : w.pc ≠ .producer .putMsg)
    (hget : w.pc ≠ .consumer .getMsg) : workerEvents t sh w = [] := by
  unfold workerEvents
  split
  · rename_i hpc
    exact absurd hpc hput
  · rename_i hpc
    exact absurd hpc hget
  · rfl

theorem workerEvents_of_exit {e : Fault} (h : workerStep prog t rnd sh w = .exit e) :
    workerEvents t sh w = [] := by
  by_cases hput : w.pc = .producer .putMsg
  · simp only [workerStep, hput, producerStep] at h
    split at h
    · rename_i hcall
      simp only [workerEvents, hput, hcall]
    · cases h
  · by_cases hget : w.pc = .consumer .getMsg
    · simp only [workerStep, hget, consumerStep] at h
      split at h
      · rename_i hcall
        simp only [workerEvents, hget, hcall]
      · cases h
    · exact workerEvents_outside hput hget

theorem fineWorkerStep_effect {call : Option Call} {events : List Event}
    (hb : Balanced prog (sh.withQueue q₀) ws) (h : InCall q₀ sh.queue ws calls)
    (ht : ws[t]? = some w)
    (hnext : fineWorkerStep prog t rnd sh w (calls t) = .next sh' w' call events) :
    FineEffect prog t rnd q₀ sh ws calls w sh' w' call events := by
  by_cases hput : w.pc = .producer .putMsg
  · exact fineWorkerStep_put hb h ht hput hnext
  · by_cases hget : w.pc = .consumer .getMsg
    · exact fineWorkerStep_get hb h ht hget hnext
    · rw [fineWorkerStep_outside hput hget] at hnext
      split at hnext
      · cases hnext
      · rename_i sh₁ w₁ hstep
        obtain ⟨rfl, rfl, rfl, rfl⟩ := FineOutcome.next.inj hnext
        obtain ⟨hqueue, hbehind⟩ := workerStep_withQueue hput hget hstep q₀
        refine .step q₀ hbehind (workerEvents_outside hput hget).symm ?_
        rw [hqueue]
        exact h.outside (h.not_inside ht hput hget)
      · cases hnext

/-- An exit inside a call is the exit of the whole call. -/
theorem fineWorkerStep_exit {e : Fault} (hb : Balanced prog (sh.withQueue q₀) ws)
    (h : InCall q₀ sh.queue ws calls) (ht : ws[t]? = some w)
    (hnext : fineWorkerStep prog t rnd sh w (calls t) = .exit e) :
    workerStep prog t rnd (sh.withQueue q₀) w = .exit e := by
  by_cases hput : w.pc = .producer .putMsg
  · have hok := putStep_ok (h.putOk hb ht hput)
    simp only [fineWorkerStep, hput] at hnext
    cases hstep : putStep sh.queue w.msg (Call.putPc (calls t)) with
    | next q pc =>
        rw [hstep] at hnext
        cases hnext
    | returned q m n =>
        rw [hstep] at hnext
        cases hnext
    | exit e' =>
        rw [hstep] at hnext hok
        obtain rfl := FineOutcome.exit.inj hnext
        have hcall : putMsg q₀ w.msg = .error e' := hok
        simp only [workerStep, hput, producerStep, Shared.queue_withQueue, hcall]
  · by_cases hget : w.pc = .consumer .getMsg
    · have hok := getStep_ok (h.getOk hb ht hget)
      simp only [fineWorkerStep, hget] at hnext
      cases hstep : getStep sh.queue (Call.getPc (calls t)) with
      | next q pc =>
          rw [hstep] at hnext
          cases hnext
      | returned q m n =>
          rw [hstep] at hnext
          cases hnext
      | exit e' =>
          rw [hstep] at hnext hok
          obtain rfl := FineOutcome.exit.inj hnext
          have hcall : getMsg q₀ = .error e' := hok
          simp only [workerStep, hget, consumerStep, Shared.queue_withQueue, hcall]
    · rw [fineWorkerStep_outside hput hget] at hnext
      split at hnext
      · cases hnext
      · cases hnext
      · rename_i e' hexit
        exact absurd hexit (workerStep_not_exit hput hget)

end Statements

end OsaspLabs.Ipc
