import OsaspLabs.Library.Signal

/-! # The child of LAB_3

The main loop of a child counts alarms and asks its parent for the permission to print. SIGALRM
and SIGUSR1 interrupt it between any two of its steps. -/

namespace OsaspLabs.Lab3

/-- `ALARM_COUNTS_TO_PRINT` -/
def alarmCountsToPrint : ℕ := 101

/-- A cycle of a child, from one `reset_cycle` to the next. The children are numbered in the
order of their creation. -/
structure Cycle where
  child : ℕ
  number : ℕ
  deriving DecidableEq, Repr

/-- `enum parent`, the values of SIGUSR1. Of a response we record which question it answers. -/
inductive ParentMsg where
  | kill
  | forcePrint
  | response (cycle : Cycle)
  deriving DecidableEq, Repr

/-- `enum child`, the values of SIGUSR2. Of a question we record in which cycle it is put. -/
inductive ChildMsg where
  | ask (cycle : Cycle)
  | inform
  deriving DecidableEq, Repr

/-- `binary_t` -/
structure Binary where
  O : ℕ
  I : ℕ
  deriving DecidableEq, Repr

/-- `stat_t` -/
structure Stat where
  O_O : ℕ
  O_I : ℕ
  I_O : ℕ
  I_I : ℕ
  deriving DecidableEq, Repr

/-- The steps of `main`. An assignment of a `binary_t` takes two. -/
inductive ChildPc where
  /-- Before `sigaction`: SIGUSR1 ends the process. -/
  | starting
  /-- Before `setitimer`. -/
  | arming
  | zeroO
  | zeroI
  | threeO
  | threeI
  /-- Before `alarm_count == ALARM_COUNTS_TO_PRINT`. -/
  | test
  | askToPrint
  /-- Before `if (output_allowed)`. -/
  | testAllowed
  | printStat
  | informAboutPrint
  /-- Before the assignments of `reset_cycle`. -/
  | resetCount
  | resetAllowed
  | resetO_O
  | resetO_I
  | resetI_O
  | resetI_I
  deriving DecidableEq, Repr

/-- Where the parent has a child. -/
inductive Place where
  /-- Between `fork` and `++amount`. -/
  | entering
  | listed
  /-- After `--amount`. -/
  | removed
  deriving DecidableEq, Repr

/-- A process that `create_child` has forked. -/
structure Child where
  pid : ℕ
  /-- It is a zombie. -/
  terminated : Bool
  usr1 : Signal ParentMsg
  pc : ChildPc
  data : Binary
  stat : Stat
  alarmCount : ℕ
  outputAllowed : Bool
  cycle : Cycle
  /-- The questions whose responses have been delivered. -/
  answered : List Cycle
  place : Place
  deriving DecidableEq, Repr

def Child.forked (pid number : ℕ) : Child where
  pid := pid
  terminated := false
  usr1 := .idle
  pc := .starting
  data := ⟨0, 0⟩
  stat := ⟨0, 0, 0, 0⟩
  alarmCount := 0
  outputAllowed := false
  cycle := ⟨number, 0⟩
  answered := []
  place := .entering

inductive ChildAction where
  /-- The next step of `main`. A signal to the parent fails once there is none. -/
  | main (parentLives : Bool)
  /-- SIGALRM is delivered. -/
  | alarm
  /-- SIGUSR1 is delivered. -/
  | deliver
  /-- The handler of SIGUSR1 does its work and returns. -/
  | handle
  deriving DecidableEq, Repr

/-- SIGUSR1 is sent to a child; a zombie does not notice. -/
def Child.post (c : Child) (m : ParentMsg) : Child :=
  if c.terminated then c else { c with usr1 := c.usr1.post m }

/-- `ask_to_print` and `inform_about_print` -/
def Child.tell (c : Child) (parentLives : Bool) (m : ChildMsg) (next : ChildPc) :
    Child × Option ChildMsg :=
  if parentLives then ({ c with pc := next }, some m) else ({ c with terminated := true }, none)

def Child.main (c : Child) (parentLives : Bool) : Child × Option ChildMsg :=
  match c.pc with
  | .starting => ({ c with pc := .arming }, none)
  | .arming => ({ c with pc := .zeroO }, none)
  | .zeroO => ({ c with data := { c.data with O := 0 }, pc := .zeroI }, none)
  | .zeroI => ({ c with data := { c.data with I := 0 }, pc := .threeO }, none)
  | .threeO => ({ c with data := { c.data with O := 1 }, pc := .threeI }, none)
  | .threeI => ({ c with data := { c.data with I := 1 }, pc := .test }, none)
  | .test =>
      ({ c with pc := if c.alarmCount = alarmCountsToPrint then .askToPrint else .zeroO }, none)
  | .askToPrint => c.tell parentLives (.ask c.cycle) .testAllowed
  | .testAllowed => ({ c with pc := if c.outputAllowed then .printStat else .resetCount }, none)
  | .printStat => ({ c with pc := .informAboutPrint }, none)
  | .informAboutPrint => c.tell parentLives .inform .resetCount
  | .resetCount => ({ c with alarmCount := 0, pc := .resetAllowed }, none)
  | .resetAllowed =>
      -- the next cycle begins where the permission of the last one ends
      ({ c with
          outputAllowed := false
          cycle := { c.cycle with number := c.cycle.number + 1 }
          pc := .resetO_O }, none)
  | .resetO_O => ({ c with stat := { c.stat with O_O := 0 }, pc := .resetO_I }, none)
  | .resetO_I => ({ c with stat := { c.stat with O_I := 0 }, pc := .resetI_O }, none)
  | .resetI_O => ({ c with stat := { c.stat with I_O := 0 }, pc := .resetI_I }, none)
  | .resetI_I => ({ c with stat := { c.stat with I_I := 0 }, pc := .zeroO }, none)

/-- The statistic after an alarm. -/
def Stat.count (stat : Stat) (data : Binary) : Stat :=
  if data.I = 0 then
    if data.O = 0 then { stat with O_O := stat.O_O + 1 } else { stat with O_I := stat.O_I + 1 }
  else
    if data.O = 0 then { stat with I_O := stat.I_O + 1 } else { stat with I_I := stat.I_I + 1 }

def Child.alarmHandler (c : Child) : Child :=
  { c with stat := c.stat.count c.data, alarmCount := c.alarmCount + 1 }

def Child.parentHandler (c : Child) : ParentMsg → Child
  | .response cycle =>
      { c with outputAllowed := true, answered := cycle :: c.answered, usr1 := c.usr1.finish }
  | .forcePrint => { c with usr1 := c.usr1.finish }
  | .kill => { c with terminated := true }

/-- The timer is set. -/
def ChildPc.armed : ChildPc → Bool
  | .starting | .arming => false
  | _ => true

/-- A step of the child and what it tells its parent. -/
def Child.step (c : Child) (a : ChildAction) : Option (Child × Option ChildMsg) :=
  if c.terminated then none
  else
    match a with
    | .main parentLives =>
        if c.usr1.handling = none then some (c.main parentLives) else none
    | .alarm => if c.pc.armed then some (c.alarmHandler, none) else none
    | .deliver =>
        c.usr1.deliver.map fun x =>
          if c.pc = .starting then ({ c with terminated := true }, none)
          else ({ c with usr1 := x.2 }, none)
    | .handle => c.usr1.handling.map fun m => (c.parentHandler m, none)

/-! ## What a step can do -/

inductive Child.Steps (c : Child) : ChildAction → Child → Option ChildMsg → Prop where
  | main (parentLives : Bool) (free : c.usr1.handling = none) :
      Steps c (.main parentLives) (c.main parentLives).1 (c.main parentLives).2
  | alarm (armed : c.pc.armed = true) : Steps c .alarm c.alarmHandler none
  /-- The default action of SIGUSR1. -/
  | endedEarly (starting : c.pc = .starting) : Steps c .deliver { c with terminated := true } none
  | deliver (m : ParentMsg) (usr1 : Signal ParentMsg) (notStarting : c.pc ≠ .starting)
      (delivered : c.usr1.deliver = some (m, usr1)) :
      Steps c .deliver { c with usr1 := usr1 } none
  | handle (m : ParentMsg) (handling : c.usr1.handling = some m) :
      Steps c .handle (c.parentHandler m) none

theorem Child.steps_of_step {c c' : Child} {a : ChildAction} {told : Option ChildMsg}
    (h : c.step a = some (c', told)) : c.terminated = false ∧ c.Steps a c' told := by
  unfold Child.step at h
  split at h
  · cases h
  rename_i halive
  refine ⟨by simpa using halive, ?_⟩
  cases a with
  | main parentLives =>
      dsimp only at h
      split at h
      · rename_i hfree
        have hresult := Option.some.inj h
        rw [show c' = (c.main parentLives).1 by rw [hresult],
          show told = (c.main parentLives).2 by rw [hresult]]
        exact .main parentLives hfree
      · cases h
  | alarm =>
      dsimp only at h
      split at h
      · rename_i harmed
        cases h
        exact .alarm harmed
      · cases h
  | deliver =>
      obtain ⟨⟨m, usr1⟩, hdel, heq⟩ := Option.map_eq_some_iff.mp h
      split at heq
      · rename_i hstarting
        cases heq
        exact .endedEarly hstarting
      · rename_i hnot
        cases heq
        exact .deliver m usr1 hnot hdel
  | handle =>
      obtain ⟨m, hm, heq⟩ := Option.map_eq_some_iff.mp h
      cases heq
      exact .handle m hm

/-! ## What stays -/

section Fixed

variable {c c' : Child} {a : ChildAction} {told : Option ChildMsg}

@[simp] theorem Child.pid_post (c : Child) (m : ParentMsg) : (c.post m).pid = c.pid := by
  unfold Child.post
  split <;> rfl

@[simp] theorem Child.place_post (c : Child) (m : ParentMsg) : (c.post m).place = c.place := by
  unfold Child.post
  split <;> rfl

@[simp] theorem Child.terminated_post (c : Child) (m : ParentMsg) :
    (c.post m).terminated = c.terminated := by
  unfold Child.post
  split <;> rfl

/-- The main loop has nothing to do with SIGUSR1. -/
theorem Child.main_fixed (c : Child) (parentLives : Bool) :
    (c.main parentLives).1.pid = c.pid ∧ (c.main parentLives).1.place = c.place ∧
      (c.main parentLives).1.usr1 = c.usr1 := by
  unfold Child.main Child.tell
  cases c.pc with
  | askToPrint | informAboutPrint => cases parentLives <;> simp
  | _ => simp

theorem Child.step_fixed (h : c.step a = some (c', told)) :
    c'.pid = c.pid ∧ c'.place = c.place := by
  cases (Child.steps_of_step h).2 with
  | main parentLives _ =>
      obtain ⟨hpid, hplace, _⟩ := c.main_fixed parentLives
      exact ⟨hpid, hplace⟩
  | alarm _ => exact ⟨rfl, rfl⟩
  | endedEarly _ => exact ⟨rfl, rfl⟩
  | deliver m usr1 _ _ => exact ⟨rfl, rfl⟩
  | handle m _ => cases m <;> exact ⟨rfl, rfl⟩

end Fixed

end OsaspLabs.Lab3
