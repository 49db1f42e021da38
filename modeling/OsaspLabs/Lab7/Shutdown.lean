import OsaspLabs.Lab7.Threads

/-! # The exit of LAB_7 p1

`atexit_handler` counts up to an amount that each removal counts down. A call of
`pthread_join` returns here. -/

namespace OsaspLabs.Lab7.Shutdown

/-- What the handler calls, the threads by their index in `producers` and `consumers`. -/
inductive Call where
  | fputs (text : String)
  | cancel (role : Role) (i : ℕ)
  | join (role : Role) (i : ℕ)
  | condDestroy (role : Role)
  | mutexUnlock
  | mutexDestroy
  | shmUnlink
  deriving DecidableEq

structure Workers where
  producersAmount : ℕ
  consumersAmount : ℕ
  /-- The calls so far, the first one first. -/
  calls : List Call
  deriving DecidableEq

def Workers.amount (w : Workers) : Role → ℕ
  | .producer => w.producersAmount
  | .consumer => w.consumersAmount

/-- `--producers_amount` or `--consumers_amount` -/
def Workers.decrement (w : Workers) : Role → Workers
  | .producer => { w with producersAmount := w.producersAmount - 1 }
  | .consumer => { w with consumersAmount := w.consumersAmount - 1 }

def Workers.call (w : Workers) (calls : List Call) : Workers :=
  { w with calls := w.calls ++ calls }

def removeWorker (role : Role) (text : String) (w : Workers) : Workers :=
  if w.amount role = 0 then w.call [.fputs text]
  else
    let w := w.decrement role
    w.call [.cancel role (w.amount role), .join role (w.amount role)]

def removeProducer : Workers → Workers := removeWorker .producer "Amount producers = 0\n"

def removeConsumer : Workers → Workers := removeWorker .consumer "Amount consumers = 0\n"

def remove : Role → Workers → Workers
  | .producer => removeProducer
  | .consumer => removeConsumer

@[simp] theorem amount_call (w : Workers) (calls : List Call) (role : Role) :
    (w.call calls).amount role = w.amount role := by
  cases role <;> rfl

theorem amount_decrement (w : Workers) (role role' : Role) :
    (w.decrement role).amount role' =
      if role' = role then w.amount role - 1 else w.amount role' := by
  cases role <;> cases role' <;> rfl

theorem remove_of_pos {role : Role} {w : Workers} (h : 0 < w.amount role) :
    remove role w = (w.decrement role).call
      [.cancel role (w.amount role - 1), .join role (w.amount role - 1)] := by
  cases role <;> simp [remove, removeProducer, removeConsumer, removeWorker, amount_decrement,
    Nat.ne_of_gt h]

theorem amount_remove {role : Role} {w : Workers} (h : 0 < w.amount role) (role' : Role) :
    (remove role w).amount role' =
      if role' = role then w.amount role - 1 else w.amount role' := by
  rw [remove_of_pos h, amount_call, amount_decrement]

/-- `for (int i = 0; i < amount; i++) remove();` -/
def removeLoop (role : Role) (i : ℕ) (w : Workers) : Workers :=
  if i < w.amount role then removeLoop role (i + 1) (remove role w) else w
termination_by w.amount role - i
decreasing_by
  rw [amount_remove (by omega), if_pos rfl]
  omega

/-- The two loops of `atexit_handler`. -/
def removeLoops (w : Workers) : Workers := removeLoop .consumer 0 (removeLoop .producer 0 w)

def atexitHandler (w : Workers) : Workers :=
  (removeLoops w).call
    [.condDestroy .producer, .condDestroy .consumer, .mutexUnlock, .mutexDestroy, .shmUnlink]

/-- The state in which the handler starts. -/
def running (producers consumers : ℕ) : Workers := ⟨producers, consumers, []⟩

def Call.destroys : Call → Bool
  | .condDestroy _ | .mutexDestroy => true
  | _ => false

/-- What the handler has called before it destroys the first object. -/
def callsBefore (w : Workers) : List Call := (atexitHandler w).calls.takeWhile (! ·.destroys)

/-- Every thread that was created has been cancelled and joined by then, and once. -/
structure RemovesAll (w : Workers) : Prop where
  amounts : ∀ role, (atexitHandler w).amount role = 0
  cancelled : ∀ (role : Role) (i : ℕ), i < w.amount role →
    (callsBefore w).count (.cancel role i) = 1
  joined : ∀ (role : Role) (i : ℕ), i < w.amount role → (callsBefore w).count (.join role i) = 1

/-! ## How far a loop comes -/

/-- Of the threads that the loop has not counted yet it removes every second one. -/
theorem amount_removeLoop (role : Role) (i : ℕ) (w : Workers) :
    (removeLoop role i w).amount role = w.amount role - (w.amount role - i + 1) / 2 := by
  induction i, w using removeLoop.induct role with
  | case1 i w h ih =>
      rw [removeLoop, if_pos h, ih, amount_remove (by omega), if_pos rfl]
      omega
  | case2 i w h =>
      rw [removeLoop, if_neg h]
      omega

theorem amount_removeLoop_of_ne {role role' : Role} (hne : role' ≠ role) (i : ℕ) (w : Workers) :
    (removeLoop role i w).amount role' = w.amount role' := by
  induction i, w using removeLoop.induct role with
  | case1 i w h ih =>
      rw [removeLoop, if_pos h, ih, amount_remove (by omega), if_neg hne]
  | case2 i w h => rw [removeLoop, if_neg h]

/-- Half of the threads are left. -/
theorem amount_atexitHandler (w : Workers) (role : Role) :
    (atexitHandler w).amount role = w.amount role / 2 := by
  rw [atexitHandler, amount_call, removeLoops]
  cases role with
  | producer =>
      rw [amount_removeLoop_of_ne (by decide), amount_removeLoop]
      omega
  | consumer =>
      rw [amount_removeLoop, amount_removeLoop_of_ne (by decide)]
      omega

/-- With at most one thread the loop removes all there are. -/
theorem removeLoop_of_le_one {role : Role} {w : Workers} (h : w.amount role ≤ 1) :
    removeLoop role 0 w = if w.amount role = 1 then remove role w else w := by
  rw [removeLoop]
  by_cases h0 : w.amount role = 0
  · rw [if_neg (by omega), if_neg (by omega)]
  · have hone : w.amount role = 1 := by omega
    have hdone : ¬ 0 + 1 < (remove role w).amount role := by
      rw [amount_remove (by omega), if_pos rfl]
      omega
    rw [if_pos (by omega), if_pos hone, removeLoop, if_neg hdone]

theorem calls_removeLoop_of_le_one {role : Role} {w : Workers} (h : w.amount role ≤ 1) :
    (removeLoop role 0 w).calls =
      w.calls ++ if w.amount role = 1 then [.cancel role 0, .join role 0] else [] := by
  rw [removeLoop_of_le_one h]
  split
  · rename_i hone
    rw [remove_of_pos (by omega), hone]
    cases role <;> rfl
  · rw [List.append_nil]

theorem calls_removeLoops_of_le_one {producers consumers : ℕ} (hp : producers ≤ 1)
    (hc : consumers ≤ 1) :
    (removeLoops (running producers consumers)).calls =
      (if producers = 1 then [.cancel .producer 0, .join .producer 0] else []) ++
        if consumers = 1 then [.cancel .consumer 0, .join .consumer 0] else [] := by
  have hamount : (removeLoop .producer 0 (running producers consumers)).amount .consumer =
      consumers := amount_removeLoop_of_ne (by decide) _ _
  have hproducer : (running producers consumers).amount .producer ≤ 1 := hp
  unfold removeLoops
  rw [calls_removeLoop_of_le_one (by rwa [hamount]), hamount, calls_removeLoop_of_le_one hproducer]
  rfl

/-- The handler removes all threads exactly if there is at most one of each kind. -/
theorem shutdown_removes_all_iff (producers consumers : ℕ) :
    RemovesAll (running producers consumers) ↔ producers ≤ 1 ∧ consumers ≤ 1 := by
  constructor
  · intro h
    have hproducers := (amount_atexitHandler _ _).symm.trans (h.amounts .producer)
    have hconsumers := (amount_atexitHandler _ _).symm.trans (h.amounts .consumer)
    simp only [running, Workers.amount] at hproducers hconsumers
    omega
  · rintro ⟨hp, hc⟩
    have hcalls := calls_removeLoops_of_le_one hp hc
    have hbefore : callsBefore (running producers consumers) =
        ((removeLoops (running producers consumers)).calls ++ _).takeWhile (! ·.destroys) := rfl
    rw [hcalls] at hbefore
    refine ⟨fun role => ?_, fun role i hi => ?_, fun role i hi => ?_⟩
    · rw [amount_atexitHandler]
      cases role <;> simp only [running, Workers.amount] <;> omega
    all_goals
      rw [hbefore]
      cases role with
      | producer =>
          obtain rfl : producers = 1 := by
            simp only [running, Workers.amount] at hi
            omega
          obtain rfl : i = 0 := Nat.lt_one_iff.mp hi
          rw [if_pos rfl]
          split <;> decide
      | consumer =>
          obtain rfl : consumers = 1 := by
            simp only [running, Workers.amount] at hi
            omega
          obtain rfl : i = 0 := Nat.lt_one_iff.mp hi
          split <;> decide

/-- Of two producers one is left running. -/
theorem second_producer_left :
    (atexitHandler (running 2 0)).producersAmount = 1 ∧ ¬ RemovesAll (running 2 0) := by
  have hleft : (atexitHandler (running 2 0)).amount .producer = 1 := amount_atexitHandler _ _
  refine ⟨hleft, fun h => ?_⟩
  rw [h.amounts .producer] at hleft
  exact absurd hleft (by decide)

end OsaspLabs.Lab7.Shutdown
