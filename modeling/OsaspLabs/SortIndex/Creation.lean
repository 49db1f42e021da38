import OsaspLabs.Library.Runs
import OsaspLabs.Library.Tally

/-! # A thread of LAB_6 that cannot be created

`createThreads` sizes the barrier for all threads before it creates the first one, and it
returns when `pthread_create` fails. `main` joins as many threads as were asked for. -/

namespace OsaspLabs.SortIndex

open Runs

inductive Errno where
  | EAGAIN
  | EPERM
  | EINVAL
  deriving DecidableEq

def Errno.text : Errno → String
  | .EAGAIN => "The system lacked the necessary resources to create a thread\n"
  | .EPERM =>
      "The caller doesn't have appropriate permission to set the required scheduling parameters " ++
        "or policy\n"
  | .EINVAL => "The value specified by attr is invalid\n"

inductive CreationPc where
  /-- The loop of `createThreads`. -/
  | create (i : ℕ)
  /-- The loop of `joinThreads`: about to cancel `threads[i]`. -/
  | cancel (i : ℕ)
  | join (i : ℕ)
  | returned
  deriving DecidableEq

/-- A created thread in `execute`; `pending` tells whether it has been cancelled. -/
inductive WorkerPc where
  /-- Before `pthread_barrier_wait`; the `printf` here may act on a cancellation. -/
  | running (pending : Bool)
  | waiting (pending : Bool)
  | ended
  deriving DecidableEq

structure CreationState where
  main : CreationPc
  /-- The threads that were created, in the order of `threads`. -/
  workers : List WorkerPc
  cancelled : List ℕ
  joined : List ℕ
  stderr : List String

def creationInit : CreationState := ⟨.create 0, [], [], [], []⟩

def WorkerPc.cancel : WorkerPc → WorkerPc
  | .running _ => .running true
  | .waiting _ => .waiting true
  | .ended => .ended

def WorkerPc.waits : WorkerPc → Bool
  | .waiting _ => true
  | _ => false

def WorkerPc.release : WorkerPc → WorkerPc
  | .waiting pending => .running pending
  | w => w

inductive CreationAction where
  | main
  /-- Thread `j` comes to the barrier, or its `printf` ends it. -/
  | worker (j : ℕ) (printf : Bool)
  | release

/-- The main thread; `pthread_create` fails at the index `fail`. Cancelling or joining a
thread that was never created has no defined effect, and `joinThreads` does not get past it. -/
def creationMain (amount fail : ℕ) (e : Errno) (s : CreationState) :
    CreationPc → Option CreationState
  | .create i =>
      if i < amount then
        if i = fail then some { s with main := .cancel 0, stderr := s.stderr ++ [e.text] }
        else some { s with main := .create (i + 1), workers := s.workers ++ [.running false] }
      else none
  | .cancel i =>
      if i < amount then
        some { s with main := .join i, workers := s.workers.modify i WorkerPc.cancel,
                      cancelled := s.cancelled ++ [i] }
      else some { s with main := .returned }
  | .join i =>
      match s.workers[i]? with
      | some .ended => some { s with main := .cancel (i + 1), joined := s.joined ++ [i] }
      | _ => none
  | .returned => none

def creationStep (amount fail : ℕ) (e : Errno) (s : CreationState) :
    CreationAction → Option CreationState
  | .main => creationMain amount fail e s s.main
  | .worker j printf =>
      match s.workers[j]? with
      | some (.running pending) =>
          some { s with workers := s.workers.set j
                          (if pending && printf then .ended else .waiting pending) }
      | _ => none
  | .release =>
      if amount + 1 ≤ s.workers.countP WorkerPc.waits then
        some { s with workers := s.workers.map WorkerPc.release }
      else none

abbrev CreationReaches (amount fail : ℕ) (e : Errno) : CreationState → CreationState → Prop :=
  Reaches (creationStep amount fail e) anything

/-- What a clean error path does after `createThreads` has returned. -/
structure CleanedUp (amount fail : ℕ) (e : Errno) : Prop where
  /-- No thread waits for more participants than the created threads and the main thread. -/
  barrier : ∀ s, CreationReaches amount fail e creationInit s → (∀ i, s.main ≠ .create i) →
    ∀ w ∈ s.workers, w.waits = true → amount + 1 ≤ s.workers.length + 1
  cancelled : ∀ s, CreationReaches amount fail e creationInit s →
    ∀ j ∈ s.cancelled, j < s.workers.length
  joined : ∀ s, CreationReaches amount fail e creationInit s → s.main = .returned →
    s.cancelled = List.range s.workers.length ∧ s.joined = List.range s.workers.length
  returns : ∀ s, CreationReaches amount fail e creationInit s →
    ∃ s', CreationReaches amount fail e s s' ∧ s'.main = .returned

/-! ## Every run stops before `joinThreads` returns -/

/-- The threads that exist, and the thread that `joinThreads` has come to. -/
def CreationOk (fail : ℕ) (s : CreationState) : Prop :=
  match s.main with
  | .create i => i ≤ fail ∧ s.workers.length = i
  | .cancel i | .join i => i ≤ fail ∧ s.workers.length = fail
  | .returned => False

theorem CreationOk.of_length {fail : ℕ} {s : CreationState} {ws : List WorkerPc}
    (h : CreationOk fail s) (hlen : ws.length = s.workers.length) :
    CreationOk fail { s with workers := ws } := by
  obtain ⟨main, workers, cancelled, joined, stderr⟩ := s
  cases main with
  | create | cancel | join => exact ⟨h.1, hlen.trans h.2⟩
  | returned => cases h

theorem CreationOk.step {amount fail : ℕ} {e : Errno} {s s' : CreationState} {a : CreationAction}
    (hfail : fail < amount) (h : CreationOk fail s)
    (hstep : creationStep amount fail e s a = some s') : CreationOk fail s' := by
  obtain ⟨main, workers, cancelled, joined, stderr⟩ := s
  cases a with
  | main =>
      cases main with
      | create i =>
          obtain ⟨hi, hlen⟩ := h
          simp only [creationStep, creationMain] at hstep
          split at hstep
          · split at hstep <;> cases hstep
            · exact ⟨Nat.zero_le _, by simp_all⟩
            · simp only at hlen
              simp only [CreationOk, List.length_append, List.length_singleton, hlen, and_true]
              omega
          · cases hstep
      | cancel i =>
          obtain ⟨hi, hlen⟩ := h
          simp only [creationStep, creationMain] at hstep
          rw [if_pos (by omega)] at hstep
          cases hstep
          exact ⟨hi, (List.length_modify ..).trans hlen⟩
      | join i =>
          obtain ⟨hi, hlen⟩ := h
          simp only [creationStep, creationMain] at hstep
          split at hstep
          · rename_i hended
            cases hstep
            obtain ⟨hlt, _⟩ := List.getElem?_eq_some_iff.mp hended
            exact ⟨hlen ▸ hlt, hlen⟩
          · cases hstep
      | returned => cases h
  | worker j printf =>
      simp only [creationStep] at hstep
      split at hstep
      · cases hstep
        exact h.of_length (by simp)
      · cases hstep
  | release =>
      simp only [creationStep] at hstep
      split at hstep
      · cases hstep
        exact h.of_length (by simp)
      · cases hstep

theorem not_returned {amount fail : ℕ} {e : Errno} {s : CreationState} (hfail : fail < amount)
    (h : CreationReaches amount fail e creationInit s) : s.main ≠ .returned := by
  have hok : CreationOk fail s :=
    h.invariant ⟨Nat.zero_le _, rfl⟩ fun _ _ _ hu _ hstep => hu.step hfail hstep
  intro hreturned
  rw [CreationOk, hreturned] at hok
  exact hok

theorem not_cleanedUp {amount fail : ℕ} {e : Errno} (hfail : fail < amount) :
    ¬ CleanedUp amount fail e := by
  intro h
  obtain ⟨s, hs, hreturned⟩ := h.returns _ .refl
  exact not_returned hfail hs hreturned

/-! ## Two ways to stop -/

/-- `n` threads have been created. -/
theorem reaches_create {amount fail : ℕ} {e : Errno} (hfail : fail < amount) (n : ℕ)
    (hn : n ≤ fail) : CreationReaches amount fail e creationInit
      ⟨.create n, List.replicate n (.running false), [], [], []⟩ := by
  induction n with
  | zero => exact .refl
  | succ n ih =>
      refine (ih (by omega)).tail ⟨.main, trivial, ?_⟩
      simp only [creationStep, creationMain]
      rw [if_pos (by omega), if_neg (by omega), List.replicate_succ']

/-- `createThreads` has returned. -/
theorem reaches_cancel {amount fail : ℕ} {e : Errno} (hfail : fail < amount) :
    CreationReaches amount fail e creationInit
      ⟨.cancel 0, List.replicate fail (.running false), [], [], [e.text]⟩ := by
  refine (reaches_create hfail fail (Nat.le_refl fail)).tail ⟨.main, trivial, ?_⟩
  simp only [creationStep, creationMain, if_pos hfail, if_true, List.nil_append]

/-- A running thread is cancelled, ends in its `printf` and is joined. -/
theorem reaches_next {amount fail : ℕ} {e : Errno} {front rest : List WorkerPc}
    {cancelled joined : List ℕ} {stderr : List String} (hlt : front.length < amount) :
    CreationReaches amount fail e
      ⟨.cancel front.length, front ++ .running false :: rest, cancelled, joined, stderr⟩
      ⟨.cancel (front.length + 1), front ++ .ended :: rest, cancelled ++ [front.length],
        joined ++ [front.length], stderr⟩ := by
  have hcancel : creationStep amount fail e
      ⟨.cancel front.length, front ++ .running false :: rest, cancelled, joined, stderr⟩ .main =
        some ⟨.join front.length, front ++ .running true :: rest, cancelled ++ [front.length],
          joined, stderr⟩ := by
    have hmodify : (front ++ .running false :: rest).modify front.length WorkerPc.cancel =
        front ++ .running true :: rest := by
      rw [List.modify_eq_take_cons_drop (by simp)]
      simp [WorkerPc.cancel]
    simp [creationStep, creationMain, hlt, hmodify]
  have hend : creationStep amount fail e
      ⟨.join front.length, front ++ .running true :: rest, cancelled ++ [front.length], joined,
        stderr⟩ (.worker front.length true) =
        some ⟨.join front.length, front ++ .ended :: rest, cancelled ++ [front.length], joined,
          stderr⟩ := by
    simp [creationStep]
  have hjoin : creationStep amount fail e
      ⟨.join front.length, front ++ .ended :: rest, cancelled ++ [front.length], joined, stderr⟩
        .main =
        some ⟨.cancel (front.length + 1), front ++ .ended :: rest, cancelled ++ [front.length],
          joined ++ [front.length], stderr⟩ := by
    simp [creationStep, creationMain]
  exact .head ⟨_, trivial, hcancel⟩ (.head ⟨_, trivial, hend⟩ (.single ⟨_, trivial, hjoin⟩))

/-- `joinThreads` goes on while it finds threads that were created. -/
theorem reaches_joined {amount fail : ℕ} {e : Errno} (hfail : fail < amount) (n : ℕ)
    (hn : n ≤ fail) : CreationReaches amount fail e creationInit
      ⟨.cancel n, List.replicate n .ended ++ List.replicate (fail - n) (.running false),
        List.range n, List.range n, [e.text]⟩ := by
  induction n with
  | zero => exact reaches_cancel hfail
  | succ n ih =>
      have hlt : (List.replicate n WorkerPc.ended).length < amount := by
        rw [List.length_replicate]
        omega
      have hstep := @reaches_next amount fail e _ (List.replicate (fail - (n + 1)) (.running false))
        (List.range n) (List.range n) [e.text] hlt
      have hleft : fail - n = fail - (n + 1) + 1 := by omega
      rw [List.length_replicate, ← List.replicate_succ, ← hleft, ← List.range_succ] at hstep
      rw [List.replicate_succ', List.append_assoc, List.singleton_append]
      exact (ih (by omega)).trans hstep

/-- A created thread comes to the barrier. -/
theorem reaches_waiting {amount fail : ℕ} {e : Errno} (hfail : fail < amount) (n : ℕ)
    (hn : n ≤ fail) : CreationReaches amount fail e creationInit
      ⟨.cancel 0, List.replicate n (.waiting false) ++ List.replicate (fail - n) (.running false),
        [], [], [e.text]⟩ := by
  induction n with
  | zero => exact reaches_cancel hfail
  | succ n ih =>
      have hleft : fail - n = fail - (n + 1) + 1 := by omega
      have hrun := ih (by omega)
      rw [hleft, List.replicate_succ] at hrun
      rw [List.replicate_succ', List.append_assoc, List.singleton_append]
      refine hrun.tail ⟨.worker n false, trivial, ?_⟩
      simp [creationStep]

/-- Nothing can happen when every thread waits for one that does not exist. -/
theorem stuck_of_waiting {amount fail : ℕ} {e : Errno} {ws : List WorkerPc} {c j : List ℕ}
    {err : List String} (hfail : fail < amount) (hlen : ws.length = fail)
    (hwait : ∀ w ∈ ws, w.waits = true) (a : CreationAction) :
    creationStep amount fail e ⟨.join 0, ws, c, j, err⟩ a = none := by
  have hget : ∀ (i : ℕ) (w : WorkerPc), ws[i]? = some w → ∃ pending, w = .waiting pending := by
    intro i w hi
    have hw := hwait w (List.mem_of_getElem? hi)
    cases w with
    | waiting pending => exact ⟨pending, rfl⟩
    | _ => cases hw
  cases a with
  | main =>
      simp only [creationStep, creationMain]
      cases h0 : ws[0]? with
      | none => rfl
      | some w => obtain ⟨_, rfl⟩ := hget 0 w h0; rfl
  | worker i printf =>
      simp only [creationStep]
      cases hi : ws[i]? with
      | none => rfl
      | some w => obtain ⟨_, rfl⟩ := hget i w hi; rfl
  | release =>
      have hcount := List.countP_le_length (p := WorkerPc.waits) (l := ws)
      simp only [creationStep]
      rw [if_neg (by omega)]

/-- Whatever number of threads was asked for and wherever the creation fails, `joinThreads`
does not return: it comes to a thread that was never created, unless it is kept waiting before
by a created one, which waits at the barrier for good. -/
theorem failed_creation_not_cleaned_up (amount fail : ℕ) (e : Errno) (hfail : fail < amount) :
    ¬ CleanedUp amount fail e ∧
    (∀ s, CreationReaches amount fail e creationInit s → s.main ≠ .returned) ∧
    (∃ s, CreationReaches amount fail e creationInit s ∧ s.workers.length = fail ∧
      fail ∈ s.cancelled) ∧
    (0 < fail → ∃ s, CreationReaches amount fail e creationInit s ∧ s.main = .join 0 ∧
      s.workers.length = fail ∧ (∀ w ∈ s.workers, w.waits = true) ∧
      ∀ a, creationStep amount fail e s a = none) := by
  refine ⟨not_cleanedUp hfail, fun _ => not_returned hfail, ?_, fun hpos => ?_⟩
  · have hrun := reaches_joined (e := e) hfail fail (Nat.le_refl fail)
    rw [Nat.sub_self, List.replicate_zero, List.append_nil] at hrun
    refine ⟨⟨.join fail, List.replicate fail .ended, List.range fail ++ [fail],
      List.range fail, [e.text]⟩, hrun.tail ⟨.main, trivial, ?_⟩, by simp, by simp⟩
    have hnone : (List.replicate fail WorkerPc.ended).modify fail WorkerPc.cancel =
        List.replicate fail .ended := List.modify_eq_self (by simp)
    simp only [creationStep, creationMain, if_pos hfail, hnone]
  · obtain ⟨n, rfl⟩ : ∃ n, fail = n + 1 := ⟨fail - 1, by omega⟩
    have hrun := reaches_waiting (e := e) hfail (n + 1) (Nat.le_refl _)
    rw [Nat.sub_self, List.replicate_zero, List.append_nil, List.replicate_succ] at hrun
    let ws : List WorkerPc := .waiting true :: List.replicate n (.waiting false)
    have hwait : ∀ w ∈ ws, w.waits = true := by
      simp [ws, WorkerPc.waits]
    have hlen : ws.length = n + 1 := by simp [ws]
    refine ⟨⟨.join 0, ws, [0], [], [e.text]⟩, hrun.tail ⟨.main, trivial, ?_⟩, rfl, hlen, hwait,
      stuck_of_waiting hfail hlen hwait⟩
    simp [creationStep, creationMain, Nat.zero_lt_of_lt hfail, WorkerPc.cancel, ws]

/-- Eight threads, the fourth of which cannot be created: `joinThreads` waits for the first
one, which waits at a barrier for nine participants. -/
theorem failed_creation_hangs :
    (∃ s, CreationReaches 8 3 .EAGAIN creationInit s ∧ s.main = .join 0 ∧
      s.workers = [.waiting true, .waiting false, .waiting false]) ∧
    ¬ CleanedUp 8 3 .EAGAIN := by
  refine ⟨?_, not_cleanedUp (by decide)⟩
  have hrun : ∃ s, exec (creationStep 8 3 .EAGAIN) creationInit
      [.main, .main, .main, .main, .worker 0 false, .worker 1 false, .worker 2 false, .main] =
        some s ∧ s.main = .join 0 ∧
          s.workers = [.waiting true, .waiting false, .waiting false] := ⟨_, rfl, rfl, rfl⟩
  obtain ⟨s, hexec, hs⟩ := hrun
  exact ⟨s, reaches_anything_of_exec hexec, hs⟩

theorem failed_creation_not_cleaned_up_fourth :
    ¬ CleanedUp 8 3 .EPERM ∧
    (∃ s, CreationReaches 8 3 .EPERM creationInit s ∧ 3 ∈ s.cancelled) ∧
    ∃ s, CreationReaches 8 3 .EPERM creationInit s ∧ s.workers.length = 3 ∧
      ∀ a, creationStep 8 3 .EPERM s a = none := by
  obtain ⟨hnot, -, ⟨s, hs, -, hcancelled⟩, hhangs⟩ :=
    failed_creation_not_cleaned_up 8 3 .EPERM (by decide)
  obtain ⟨t, ht, -, hlen, -, hstuck⟩ := hhangs (by decide)
  exact ⟨hnot, ⟨s, hs, hcancelled⟩, t, ht, hlen, hstuck⟩

end OsaspLabs.SortIndex
