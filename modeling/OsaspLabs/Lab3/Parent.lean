import Mathlib.Data.List.Basic
import Mathlib.Logic.Function.Basic
import OsaspLabs.Lab3.Child

/-! # The parent of LAB_3 and its children

The parent carries out the commands of its menu. SIGUSR2 from its children and SIGALRM interrupt
it between any two of its steps, and also where it waits for a child to end. -/

namespace OsaspLabs.Lab3

/-- `MAX_CHILD` -/
def maxChild : ℕ := 1024

/-- `child_t` -/
structure Entry where
  pid : ℕ
  printAllowed : Bool
  deriving DecidableEq, Repr

/-- What is typed at the menu, with the number where one follows. -/
inductive Command where
  /-- `+` -/
  | create
  /-- `-` -/
  | killLast
  /-- `k` -/
  | killAll
  /-- `s` -/
  | stop (num : Option ℕ)
  /-- `g` -/
  | resume (num : Option ℕ)
  /-- `p` -/
  | print (num : Option ℕ)
  /-- `q` -/
  | quit
  deriving DecidableEq, Repr

/-- Where the parent is in `main` and the functions that it calls. In `kill_last_child`, `all`
tells whether `kill_all` has called it. -/
inductive Pc where
  | menu
  | fork
  /-- Before `child_array[amount].pid = ret`. -/
  | enterPid (pid : ℕ)
  /-- Before `child_array[amount].print_allowed = true`. -/
  | enterAllowed (pid : ℕ)
  /-- Before `++amount`. -/
  | count (pid : ℕ)
  /-- Before the test of the loop of `kill_all`. -/
  | killAll
  /-- Before `--amount`. -/
  | decrement (all : Bool)
  | sendKill (all : Bool) (pid : ℕ)
  | callWait (all : Bool) (pid : ℕ)
  /-- Blocked in `wait`. -/
  | waiting (all : Bool) (pid : ℕ)
  /-- The loop of `stop_all_stat`, with the number that `p` was given. -/
  | stopAll (i : ℕ) (print : Option ℕ)
  | resumeAll (i : ℕ)
  | printStat (num : ℕ)
  | setAlarm
  | ended
  deriving DecidableEq, Repr

/-- A handler that has been called and has not returned. -/
inductive Frame where
  /-- `child_handler` for `CHILD_ASK`, before `if (child_array[i].print_allowed)`. -/
  | answer (i : ℕ) (cycle : Cycle)
  /-- Before `send_signal(child_array[i], PARENT_RESPONSE)`. -/
  | respond (i : ℕ) (cycle : Cycle)
  /-- `child_handler` for `CHILD_INFORM`. -/
  | informed
  /-- The loop of `resume_all_stat` in `alarm_handler`. -/
  | resumeAll (i : ℕ)
  deriving DecidableEq, Repr

structure State where
  pc : Pc
  /-- `exit` has been called. -/
  exiting : Bool
  /-- The handlers that run, the innermost first. -/
  frames : List Frame
  amount : ℕ
  childArray : ℕ → Entry
  /-- `alarm` has been called and its time has not come. -/
  timer : Bool
  alarm : Signal Unit
  /-- SIGUSR2, with its sender. -/
  usr2 : Signal (ℕ × ChildMsg)
  /-- The children that are not reaped. -/
  children : List Child
  /-- The number of children that were forked so far. -/
  created : ℕ

inductive Action where
  | command (c : Command)
  /-- `fork` returns a pid that no process has, or -1. -/
  | fork (pid : Option ℕ)
  /-- The next step of `main`. -/
  | main
  /-- `wait` returns for a child that has ended. -/
  | reap (k : ℕ)
  /-- `wait` returns as there is no child. -/
  | noChild
  /-- The time of `alarm` comes. -/
  | expire
  /-- SIGALRM is delivered. -/
  | deliverAlarm
  /-- SIGUSR2 is delivered and `get_index_by_pid` looks for its sender. -/
  | deliverUsr2
  /-- The next step of the innermost handler. -/
  | handler
  /-- The child number `k` does a step. -/
  | child (k : ℕ) (a : ChildAction)
  deriving DecidableEq, Repr

/-! ## The functions of the parent -/

/-- `exit` runs `kill_all` once. What it interrupts is not resumed, and the signals whose handlers
were running stay blocked. -/
def State.exit (s : State) : State :=
  if s.exiting then { s with pc := .ended, frames := [] }
  else { s with pc := .killAll, exiting := true, frames := [] }

/-- The children after SIGUSR1 was sent to a pid. -/
def State.posted (s : State) (pid : ℕ) (m : ParentMsg) : List Child :=
  s.children.map fun c => if c.pid = pid then c.post m else c

/-- `send_signal`; without such a process there is no result. -/
def State.sendSignal (s : State) (pid : ℕ) (m : ParentMsg) : Option State :=
  if s.children.any (·.pid = pid) then some { s with children := s.posted pid m } else none

def State.getIndexByPid (s : State) (pid : ℕ) : Option ℕ :=
  (List.range s.amount).find? fun i => (s.childArray i).pid = pid

/-- `stop_stat` and `resume_stat` -/
def State.setAllowed (s : State) (i : ℕ) (allowed : Bool) : State :=
  { s with
    childArray := Function.update s.childArray i { s.childArray i with printAllowed := allowed } }

/-- The children after the one with a pid has changed its place. -/
def State.placed (s : State) (pid : ℕ) (place : Place) : List Child :=
  s.children.map fun c => if c.pid = pid then { c with place := place } else c

/-- After `kill_last_child`. -/
def afterKill (all : Bool) : Pc := if all then .killAll else .menu

/-- A handler of SIGUSR2 makes `wait` return, as it does not restart system calls. -/
def Pc.interrupted : Pc → Pc
  | .waiting all _ => afterKill all
  | pc => pc

def State.command (s : State) : Command → State
  | .create => if s.amount = maxChild - 1 then s.exit else { s with pc := .fork }
  | .killLast => if s.amount = 0 then s.exit else { s with pc := .decrement false }
  | .killAll => { s with pc := .killAll }
  | .stop none => { s with pc := .stopAll 0 none }
  | .stop (some num) => if num < s.amount then s.setAllowed num false else s
  | .resume none => { s with pc := .resumeAll 0 }
  | .resume (some num) => if num < s.amount then s.setAllowed num true else s
  | .print none => s.exit
  | .print (some num) => { s with pc := .stopAll 0 (some num) }
  | .quit => s.exit

def State.main (s : State) : Option State :=
  match s.pc with
  | .menu | .fork | .waiting _ _ | .ended => none
  | .enterPid pid =>
      some { s with
        childArray :=
          Function.update s.childArray s.amount { s.childArray s.amount with pid := pid }
        pc := .enterAllowed pid }
  | .enterAllowed pid => some { s.setAllowed s.amount true with pc := .count pid }
  | .count pid =>
      some { s with amount := s.amount + 1, children := s.placed pid .listed, pc := .menu }
  | .killAll =>
      if 0 < s.amount then some { s with pc := .decrement true }
      else some { s with pc := if s.exiting then .ended else .menu }
  | .decrement all =>
      let pid := (s.childArray (s.amount - 1)).pid
      some { s with
        amount := s.amount - 1
        children := s.placed pid .removed
        pc := .sendKill all pid }
  | .sendKill all pid =>
      match s.sendSignal pid .kill with
      | none => some s.exit
      | some s => some { s with pc := .callWait all pid }
  | .callWait all pid => some { s with pc := .waiting all pid }
  | .stopAll i print =>
      if i < s.amount then some { s.setAllowed i false with pc := .stopAll (i + 1) print }
      else
        match print with
        | none => some { s with pc := .menu }
        | some num => some { s with pc := .printStat num }
  | .resumeAll i =>
      if i < s.amount then some { s.setAllowed i true with pc := .resumeAll (i + 1) }
      else some { s with pc := .menu }
  | .printStat num =>
      -- `num` was not compared with `amount`
      if num < maxChild then
        match s.sendSignal (s.childArray num).pid .forcePrint with
        | none => some s.exit
        | some s => some { s with pc := .setAlarm }
      else none
  | .setAlarm => some { s with timer := true, pc := .menu }

/-- `child_handler` returns. -/
def State.returnChild (s : State) (frames : List Frame) : State :=
  { s with
    usr2 := s.usr2.finish
    frames := frames
    pc := if frames = [] then s.pc.interrupted else s.pc }

def State.handler (s : State) : Option State :=
  match s.frames with
  | [] => none
  | .answer i cycle :: frames =>
      if (s.childArray i).printAllowed then some { s with frames := .respond i cycle :: frames }
      else some (s.returnChild frames)
  | .respond i cycle :: frames =>
      match s.sendSignal (s.childArray i).pid (.response cycle) with
      | none => some s.exit
      | some s => some (s.returnChild frames)
  | .informed :: frames => some (s.returnChild frames)
  | .resumeAll i :: frames =>
      if i < s.amount then some { s.setAllowed i true with frames := .resumeAll (i + 1) :: frames }
      else some { s with alarm := s.alarm.finish, frames := frames }

/-- The frame of `child_handler` once it knows the sender. -/
def ChildMsg.frame (i : ℕ) : ChildMsg → Frame
  | .ask cycle => .answer i cycle
  | .inform => .informed

def State.deliverUsr2 (s : State) : Option State := do
  let ((pid, m), usr2) ← s.usr2.deliver
  let s := { s with usr2 := usr2 }
  match s.getIndexByPid pid with
  | none => some s.exit
  | some i => some { s with frames := m.frame i :: s.frames }

def State.childStep (s : State) (k : ℕ) (a : ChildAction) : Option State := do
  let c ← s.children[k]?
  let (c', told) ← c.step a
  some { s with
    children := s.children.set k c'
    usr2 :=
      match told with
      | none => s.usr2
      | some m => s.usr2.post (c.pid, m) }

/-- A child signals its parent as long as there is one. -/
def State.enables (s : State) : ChildAction → Bool
  | .main parentLives => parentLives = (s.pc ≠ .ended)
  | _ => true

def step (s : State) : Action → Option State
  | .command c => if s.pc = .menu ∧ s.frames = [] then some (s.command c) else none
  | .fork none => if s.pc = .fork ∧ s.frames = [] then some s.exit else none
  | .fork (some pid) =>
      if s.pc = .fork ∧ s.frames = [] ∧ pid ≠ 0 ∧ s.children.all (·.pid ≠ pid) then
        some { s with
          children := s.children ++ [Child.forked pid s.created]
          created := s.created + 1
          pc := .enterPid pid }
      else none
  | .main => if s.frames = [] then s.main else none
  | .reap k => do
      let c ← s.children[k]?
      match s.pc with
      | .waiting all _ =>
          if s.frames = [] ∧ c.terminated then
            some { s with children := s.children.eraseIdx k, pc := afterKill all }
          else none
      | _ => none
  | .noChild =>
      match s.pc with
      | .waiting all _ =>
          if s.frames = [] ∧ s.children = [] then some { s with pc := afterKill all } else none
      | _ => none
  | .expire => if s.timer then some { s with timer := false, alarm := s.alarm.post () } else none
  | .deliverAlarm =>
      if s.pc = .ended then none
      else s.alarm.deliver.map fun x => { s with alarm := x.2, frames := .resumeAll 0 :: s.frames }
  | .deliverUsr2 => if s.pc = .ended then none else s.deliverUsr2
  | .handler => s.handler
  | .child k a => if s.enables a then s.childStep k a else none

def init : State where
  pc := .menu
  exiting := false
  frames := []
  amount := 0
  childArray _ := ⟨0, false⟩
  timer := false
  alarm := .idle
  usr2 := .idle
  children := []
  created := 0

/-- A child is created and runs up to its first test of the flag. -/
def firstQuestion : List Action :=
  [.command .create, .fork (some 7), .main, .main, .main, .child 0 (.main true),
    .child 0 (.main true)] ++ List.replicate 101 (.child 0 .alarm) ++
    List.replicate 6 (.child 0 (.main true))

/-! ## What a step can do -/

/-- The parent is neither entering a child nor removing one. -/
def Pc.idle : Pc → Bool
  | .enterPid _ | .enterAllowed _ | .count _ | .sendKill _ _ | .callWait _ _ | .waiting _ _ => false
  | _ => true

section Fields

variable {s s' : State} {pid : ℕ} {m : ParentMsg} {i : ℕ} {allowed : Bool} {frames : List Frame}

@[simp] theorem children_exit : s.exit.children = s.children := by
  unfold State.exit
  split <;> rfl

@[simp] theorem amount_exit : s.exit.amount = s.amount := by
  unfold State.exit
  split <;> rfl

@[simp] theorem childArray_exit : s.exit.childArray = s.childArray := by
  unfold State.exit
  split <;> rfl

@[simp] theorem frames_exit : s.exit.frames = [] := by
  unfold State.exit
  split <;> rfl

theorem idle_exit : s.exit.pc.idle = true := by
  unfold State.exit
  split <;> rfl

theorem idle_afterKill (all : Bool) : (afterKill all).idle = true := by
  cases all <;> rfl

@[simp] theorem children_setAllowed : (s.setAllowed i allowed).children = s.children := rfl

@[simp] theorem amount_setAllowed : (s.setAllowed i allowed).amount = s.amount := rfl

@[simp] theorem pid_setAllowed (j : ℕ) :
    ((s.setAllowed i allowed).childArray j).pid = (s.childArray j).pid := by
  by_cases hj : j = i
  · subst hj
    simp [State.setAllowed]
  · simp [State.setAllowed, hj]

theorem sendSignal_eq_some (h : s.sendSignal pid m = some s') :
    (∃ c ∈ s.children, c.pid = pid) ∧ s' = { s with children := s.posted pid m } := by
  unfold State.sendSignal at h
  split at h
  · rename_i hany
    exact ⟨by simpa using hany, (Option.some.inj h).symm⟩
  · cases h

theorem sendSignal_isSome (h : ∃ c ∈ s.children, c.pid = pid) :
    s.sendSignal pid m = some { s with children := s.posted pid m } :=
  if_pos (by simpa using h)

@[simp] theorem children_returnChild : (s.returnChild frames).children = s.children := rfl

@[simp] theorem amount_returnChild : (s.returnChild frames).amount = s.amount := rfl

@[simp] theorem childArray_returnChild :
    (s.returnChild frames).childArray = s.childArray := rfl

end Fields

/-- The steps of the parent and its children, with what each of them requires. -/
inductive State.Steps (s : State) : Action → State → Prop where
  | command (c : Command) (menu : s.pc = .menu) (free : s.frames = []) :
      Steps s (.command c) (s.command c)
  | forkFails (fork : s.pc = .fork) (free : s.frames = []) : Steps s (.fork none) s.exit
  | forked (pid : ℕ) (fork : s.pc = .fork) (free : s.frames = [])
      (fresh : ∀ c ∈ s.children, c.pid ≠ pid) :
      Steps s (.fork (some pid))
        { s with
          children := s.children ++ [Child.forked pid s.created]
          created := s.created + 1
          pc := .enterPid pid }
  | main (s' : State) (free : s.frames = []) (main : s.main = some s') : Steps s .main s'
  | reap (k : ℕ) (c : Child) (all : Bool) (pid : ℕ) (child : s.children[k]? = some c)
      (waiting : s.pc = .waiting all pid) (free : s.frames = [])
      (terminated : c.terminated = true) :
      Steps s (.reap k) { s with children := s.children.eraseIdx k, pc := afterKill all }
  | noChild (all : Bool) (pid : ℕ) (waiting : s.pc = .waiting all pid) (free : s.frames = [])
      (none : s.children = []) : Steps s .noChild { s with pc := afterKill all }
  | expire : Steps s .expire { s with timer := false, alarm := s.alarm.post () }
  | deliverAlarm (alarm : Signal Unit) (running : s.pc ≠ .ended) :
      Steps s .deliverAlarm { s with alarm := alarm, frames := .resumeAll 0 :: s.frames }
  | found (pid i : ℕ) (m : ChildMsg) (usr2 : Signal (ℕ × ChildMsg)) (running : s.pc ≠ .ended)
      (delivered : s.usr2.deliver = some ((pid, m), usr2)) (index : s.getIndexByPid pid = some i) :
      Steps s .deliverUsr2 { s with usr2 := usr2, frames := m.frame i :: s.frames }
  | unknown (pid : ℕ) (m : ChildMsg) (usr2 : Signal (ℕ × ChildMsg)) (running : s.pc ≠ .ended)
      (delivered : s.usr2.deliver = some ((pid, m), usr2)) (index : s.getIndexByPid pid = none) :
      Steps s .deliverUsr2 { s with usr2 := usr2 }.exit
  | handler (s' : State) (handler : s.handler = some s') : Steps s .handler s'
  | child (k : ℕ) (a : ChildAction) (c c' : Child) (told : Option ChildMsg)
      (usr2 : Signal (ℕ × ChildMsg)) (child : s.children[k]? = some c)
      (step : c.step a = some (c', told)) :
      Steps s (.child k a) { s with children := s.children.set k c', usr2 := usr2 }

theorem steps_of_step {s s' : State} {a : Action} (h : step s a = some s') : s.Steps a s' := by
  cases a with
  | command c =>
      simp only [step, Option.ite_none_right_eq_some, Option.some.injEq] at h
      obtain ⟨⟨hmenu, hfree⟩, rfl⟩ := h
      exact .command c hmenu hfree
  | fork pid =>
      cases pid with
      | none =>
          simp only [step, Option.ite_none_right_eq_some, Option.some.injEq] at h
          obtain ⟨⟨hfork, hfree⟩, rfl⟩ := h
          exact .forkFails hfork hfree
      | some pid =>
          simp only [step, Option.ite_none_right_eq_some, Option.some.injEq] at h
          obtain ⟨⟨hfork, hfree, _, hfresh⟩, rfl⟩ := h
          exact .forked pid hfork hfree (by simpa using hfresh)
  | main =>
      simp only [step, Option.ite_none_right_eq_some] at h
      exact .main s' h.1 h.2
  | reap k =>
      obtain ⟨c, hc, h⟩ := Option.bind_eq_some_iff.mp h
      split at h
      · rename_i all pid hpc
        simp only [Option.ite_none_right_eq_some, Option.some.injEq] at h
        obtain ⟨⟨hfree, hterm⟩, rfl⟩ := h
        exact .reap k c all pid hc hpc hfree hterm
      · cases h
  | noChild =>
      simp only [step] at h
      split at h
      · rename_i all pid hpc
        simp only [Option.ite_none_right_eq_some, Option.some.injEq] at h
        obtain ⟨⟨hfree, hnone⟩, rfl⟩ := h
        exact .noChild all pid hpc hfree hnone
      · cases h
  | expire =>
      simp only [step, Option.ite_none_right_eq_some, Option.some.injEq] at h
      obtain ⟨_, rfl⟩ := h
      exact .expire
  | deliverAlarm =>
      simp only [step, Option.ite_none_left_eq_some, Option.map_eq_some_iff] at h
      obtain ⟨hrun, x, _, rfl⟩ := h
      exact .deliverAlarm x.2 hrun
  | deliverUsr2 =>
      simp only [step, Option.ite_none_left_eq_some] at h
      obtain ⟨hrun, h⟩ := h
      obtain ⟨⟨⟨pid, m⟩, usr2⟩, hdel, h⟩ := Option.bind_eq_some_iff.mp h
      dsimp only at h
      cases hindex : State.getIndexByPid { s with usr2 := usr2 } pid with
      | none =>
          rw [hindex] at h
          cases h
          exact .unknown pid m usr2 hrun hdel hindex
      | some i =>
          rw [hindex] at h
          cases h
          exact .found pid i m usr2 hrun hdel hindex
  | handler => exact .handler s' h
  | child k a =>
      simp only [step, Option.ite_none_right_eq_some] at h
      obtain ⟨c, hc, h⟩ := Option.bind_eq_some_iff.mp h.2
      obtain ⟨⟨c', told⟩, hstep, heq⟩ := Option.bind_eq_some_iff.mp h
      cases heq
      exact .child k a c c' told _ hc hstep

/-- The steps of `main` and the functions that it calls. -/
inductive State.MainSteps (s : State) : State → Prop where
  | enterPid (pid : ℕ) (pc : s.pc = .enterPid pid) :
      MainSteps s
        { s with
          childArray :=
            Function.update s.childArray s.amount { s.childArray s.amount with pid := pid }
          pc := .enterAllowed pid }
  | enterAllowed (pid : ℕ) (pc : s.pc = .enterAllowed pid) :
      MainSteps s { s.setAllowed s.amount true with pc := .count pid }
  | count (pid : ℕ) (pc : s.pc = .count pid) :
      MainSteps s
        { s with amount := s.amount + 1, children := s.placed pid .listed, pc := .menu }
  | killNext (pc : s.pc = .killAll) (some : 0 < s.amount) :
      MainSteps s { s with pc := .decrement true }
  | killed (pc : s.pc = .killAll) (none : s.amount = 0) :
      MainSteps s { s with pc := if s.exiting then .ended else .menu }
  | decrement (all : Bool) (pc : s.pc = .decrement all) :
      MainSteps s
        { s with
          amount := s.amount - 1
          children := s.placed (s.childArray (s.amount - 1)).pid .removed
          pc := .sendKill all (s.childArray (s.amount - 1)).pid }
  | orderFails (all : Bool) (pid : ℕ) (pc : s.pc = .sendKill all pid) : MainSteps s s.exit
  | order (all : Bool) (pid : ℕ) (pc : s.pc = .sendKill all pid)
      (child : ∃ c ∈ s.children, c.pid = pid) :
      MainSteps s { s with children := s.posted pid .kill, pc := .callWait all pid }
  | callWait (all : Bool) (pid : ℕ) (pc : s.pc = .callWait all pid) :
      MainSteps s { s with pc := .waiting all pid }
  | stop (i : ℕ) (print : Option ℕ) (pc : s.pc = .stopAll i print) (more : i < s.amount) :
      MainSteps s { s.setAllowed i false with pc := .stopAll (i + 1) print }
  | stopped (i : ℕ) (pc : s.pc = .stopAll i none) : MainSteps s { s with pc := .menu }
  | frozen (i num : ℕ) (pc : s.pc = .stopAll i (some num)) :
      MainSteps s { s with pc := .printStat num }
  | resume (i : ℕ) (pc : s.pc = .resumeAll i) (more : i < s.amount) :
      MainSteps s { s.setAllowed i true with pc := .resumeAll (i + 1) }
  | resumed (i : ℕ) (pc : s.pc = .resumeAll i) : MainSteps s { s with pc := .menu }
  | printFails (num : ℕ) (pc : s.pc = .printStat num) : MainSteps s s.exit
  | print (num : ℕ) (pc : s.pc = .printStat num) (inside : num < maxChild)
      (child : ∃ c ∈ s.children, c.pid = (s.childArray num).pid) :
      MainSteps s
        { s with children := s.posted (s.childArray num).pid .forcePrint, pc := .setAlarm }
  | setAlarm (pc : s.pc = .setAlarm) : MainSteps s { s with timer := true, pc := .menu }

theorem mainSteps_of_main {s s' : State} (h : s.main = some s') : s.MainSteps s' := by
  cases hpc : s.pc with
  | menu | fork | waiting | ended => simp [State.main, hpc] at h
  | enterPid pid =>
      simp only [State.main, hpc, Option.some.injEq] at h
      exact h ▸ .enterPid pid hpc
  | enterAllowed pid =>
      simp only [State.main, hpc, Option.some.injEq] at h
      exact h ▸ .enterAllowed pid hpc
  | count pid =>
      simp only [State.main, hpc, Option.some.injEq] at h
      exact h ▸ .count pid hpc
  | killAll =>
      simp only [State.main, hpc] at h
      split at h <;> cases h
      · rename_i hsome
        exact .killNext hpc hsome
      · rename_i hnone
        exact .killed hpc (Nat.eq_zero_of_not_pos hnone)
  | decrement all =>
      simp only [State.main, hpc, Option.some.injEq] at h
      exact h ▸ .decrement all hpc
  | sendKill all pid =>
      simp only [State.main, hpc] at h
      split at h <;> cases h
      · exact .orderFails all pid hpc
      · rename_i hsend
        obtain ⟨hchild, rfl⟩ := sendSignal_eq_some hsend
        exact .order all pid hpc hchild
  | callWait all pid =>
      simp only [State.main, hpc, Option.some.injEq] at h
      exact h ▸ .callWait all pid hpc
  | stopAll i print =>
      simp only [State.main, hpc] at h
      split at h
      · rename_i hmore
        cases h
        exact .stop i print hpc hmore
      · cases print with
        | none =>
            cases h
            exact .stopped i hpc
        | some num =>
            cases h
            exact .frozen i num hpc
  | resumeAll i =>
      simp only [State.main, hpc] at h
      split at h <;> cases h
      · rename_i hmore
        exact .resume i hpc hmore
      · exact .resumed i hpc
  | printStat num =>
      simp only [State.main, hpc, Option.ite_none_right_eq_some] at h
      obtain ⟨hinside, h⟩ := h
      split at h <;> cases h
      · exact .printFails num hpc
      · rename_i hsend
        obtain ⟨hchild, rfl⟩ := sendSignal_eq_some hsend
        exact .print num hpc hinside hchild
  | setAlarm =>
      simp only [State.main, hpc, Option.some.injEq] at h
      exact h ▸ .setAlarm hpc

/-- The steps of the innermost handler. -/
inductive State.HandlerSteps (s : State) : State → Prop where
  | allowed (i : ℕ) (cycle : Cycle) (frames : List Frame)
      (top : s.frames = .answer i cycle :: frames) :
      HandlerSteps s { s with frames := .respond i cycle :: frames }
  | refused (i : ℕ) (cycle : Cycle) (frames : List Frame)
      (top : s.frames = .answer i cycle :: frames) : HandlerSteps s (s.returnChild frames)
  | respondFails : HandlerSteps s s.exit
  | respond (i : ℕ) (cycle : Cycle) (frames : List Frame)
      (top : s.frames = .respond i cycle :: frames) :
      HandlerSteps s
        ({ s with
          children := s.posted (s.childArray i).pid (.response cycle) }.returnChild frames)
  | informed (frames : List Frame) (top : s.frames = .informed :: frames) :
      HandlerSteps s (s.returnChild frames)
  | resume (i : ℕ) (frames : List Frame) (top : s.frames = .resumeAll i :: frames)
      (more : i < s.amount) :
      HandlerSteps s { s.setAllowed i true with frames := .resumeAll (i + 1) :: frames }
  | resumed (i : ℕ) (frames : List Frame) (top : s.frames = .resumeAll i :: frames) :
      HandlerSteps s { s with alarm := s.alarm.finish, frames := frames }

theorem handlerSteps_of_handler {s s' : State} (h : s.handler = some s') :
    s.HandlerSteps s' := by
  unfold State.handler at h
  split at h
  · cases h
  · rename_i i cycle frames htop
    split at h <;> cases h
    · exact .allowed i cycle frames htop
    · exact .refused i cycle frames htop
  · rename_i i cycle frames htop
    split at h <;> cases h
    · exact .respondFails
    · rename_i hsend
      obtain ⟨_, rfl⟩ := sendSignal_eq_some hsend
      exact .respond i cycle frames htop
  · rename_i frames htop
    cases h
    exact .informed frames htop
  · rename_i i frames htop
    split at h <;> cases h
    · rename_i hmore
      exact .resume i frames htop hmore
    · exact .resumed i frames htop

/-- The children after a step of `main`. -/
theorem children_main {s s' : State} (h : s.MainSteps s') :
    s'.children = s.children ∨ (∃ pid place, s'.children = s.placed pid place) ∨
      ∃ pid m, s'.children = s.posted pid m := by
  cases h with
  | count pid => exact .inr (.inl ⟨pid, .listed, rfl⟩)
  | decrement all => exact .inr (.inl ⟨_, .removed, rfl⟩)
  | order all pid => exact .inr (.inr ⟨pid, .kill, rfl⟩)
  | print num => exact .inr (.inr ⟨_, .forcePrint, rfl⟩)
  | orderFails | printFails => exact .inl children_exit
  | _ => exact .inl rfl

theorem children_handler {s s' : State} (h : s.HandlerSteps s') :
    s'.children = s.children ∨ ∃ pid m, s'.children = s.posted pid m := by
  cases h with
  | respond i cycle => exact .inr ⟨_, .response cycle, rfl⟩
  | respondFails => exact .inl children_exit
  | _ => exact .inl rfl

/-- A command begins with the parent idle, and leaves the children and the pids in the table as
they are. -/
theorem command_kept {s : State} (c : Command) (hmenu : s.pc = .menu) :
    (s.command c).pc.idle = true ∧ (s.command c).children = s.children ∧
      (s.command c).amount = s.amount ∧
      ∀ i, ((s.command c).childArray i).pid = (s.childArray i).pid := by
  cases c with
  | create | killLast =>
      simp only [State.command]
      split
      · simp [idle_exit]
      · simp [Pc.idle]
  | killAll => simp [State.command, Pc.idle]
  | stop num | resume num =>
      cases num with
      | none => simp [State.command, Pc.idle]
      | some num =>
          simp only [State.command]
          split
          · exact ⟨by rw [State.setAllowed, hmenu]; rfl, rfl, rfl, pid_setAllowed⟩
          · exact ⟨by rw [hmenu]; rfl, rfl, rfl, fun _ => rfl⟩
  | print num =>
      cases num with
      | none => simp [State.command, idle_exit]
      | some num => simp [State.command, Pc.idle]
  | quit => simp [State.command, idle_exit]

/-- Where a child comes from in a step. -/
inductive State.Origin (s : State) (a : Action) : Child → Prop where
  | forked (pid : ℕ) : Origin s a (Child.forked pid s.created)
  | same (c : Child) (mem : c ∈ s.children) : Origin s a c
  | posted (c : Child) (m : ParentMsg) (mem : c ∈ s.children) : Origin s a (c.post m)
  | placed (c : Child) (place : Place) (mem : c ∈ s.children) :
      Origin s a { c with place := place }
  | stepped (k : ℕ) (c c' : Child) (b : ChildAction) (told : Option ChildMsg)
      (action : a = .child k b) (child : s.children[k]? = some c)
      (step : c.step b = some (c', told)) : Origin s a c'

theorem origin_posted {s : State} {a : Action} {pid : ℕ} {m : ParentMsg} {c' : Child}
    (h : c' ∈ s.posted pid m) : s.Origin a c' := by
  obtain ⟨c, hc, rfl⟩ := List.mem_map.mp h
  split
  · exact .posted c m hc
  · exact .same c hc

theorem origin_placed {s : State} {a : Action} {pid : ℕ} {place : Place} {c' : Child}
    (h : c' ∈ s.placed pid place) : s.Origin a c' := by
  obtain ⟨c, hc, rfl⟩ := List.mem_map.mp h
  split
  · exact .placed c place hc
  · exact .same c hc

theorem origin_of_step {s s' : State} {a : Action} {c' : Child} (h : step s a = some s')
    (hc : c' ∈ s'.children) : s.Origin a c' := by
  cases steps_of_step h with
  | command c hmenu => exact .same c' ((command_kept c hmenu).2.1 ▸ hc)
  | forkFails => exact .same c' (by simpa using hc)
  | forked pid =>
      rcases List.mem_append.mp hc with hc | hc
      · exact .same c' hc
      · obtain rfl := List.mem_singleton.mp hc
        exact .forked pid
  | main _ _ hmain =>
      rcases children_main (mainSteps_of_main hmain) with heq | ⟨pid, place, heq⟩ | ⟨pid, m, heq⟩
      · exact .same c' (heq ▸ hc)
      · exact origin_placed (heq ▸ hc)
      · exact origin_posted (heq ▸ hc)
  | reap k => exact .same c' (List.mem_of_mem_eraseIdx hc)
  | noChild | expire | deliverAlarm | found => exact .same c' hc
  | unknown => exact .same c' (by simpa using hc)
  | handler _ hhandler =>
      rcases children_handler (handlerSteps_of_handler hhandler) with heq | ⟨pid, m, heq⟩
      · exact .same c' (heq ▸ hc)
      · exact origin_posted (heq ▸ hc)
  | child k b c d told usr2 hchild hstep =>
      rcases List.mem_or_eq_of_mem_set hc with hc | rfl
      · exact .same c' hc
      · exact .stepped k c c' b told rfl hchild hstep

end OsaspLabs.Lab3
