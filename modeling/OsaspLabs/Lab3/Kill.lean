import OsaspLabs.Lab3.Parent
import OsaspLabs.Library.Runs

/-! # The kill order in LAB_3

`kill_last_child` sends PARENT_KILL and waits for a child to end. The order shares its signal with
the responses and the forced prints. -/

namespace OsaspLabs.Lab3

open Runs

/-- The child that is about to get the order. -/
def Pc.killed : Pc → Option ℕ
  | .sendKill _ pid => some pid
  | _ => none

/-- The child that got the order. -/
def Pc.waitsFor : Pc → Option ℕ
  | .callWait _ pid | .waiting _ pid => some pid
  | _ => none

/-- The order is with the child of this pid, or some child has ended. -/
def Killed (children : List Child) (pid : ℕ) : Prop :=
  (∃ c ∈ children, c.pid = pid ∧ c.usr1.Holds .kill) ∨ ∃ c ∈ children, c.terminated = true

/-- Whoever waits in `kill_last_child` waits for a child that has the order, or for one that has
ended. -/
def KillNotLost (s : State) : Prop :=
  ∀ all pid, s.pc = .waiting all pid → Killed s.children pid

/-- When the order is sent, no other SIGUSR1 is pending for the child, unless it has an order
already or some child has ended. -/
def KillArrives (s : State) (a : Action) : Prop :=
  a = .main → ∀ pid ∈ s.pc.killed, (∃ c ∈ s.children, c.pid = pid) →
    (∃ c ∈ s.children, c.pid = pid ∧ (c.usr1.pending = none ∨ c.usr1.Holds .kill)) ∨
      ∃ c ∈ s.children, c.terminated = true

instance (s : State) (a : Action) : Decidable (KillArrives s a) :=
  inferInstanceAs (Decidable (a = .main → ∀ pid ∈ s.pc.killed, (∃ c ∈ s.children, c.pid = pid) →
    (∃ c ∈ s.children, c.pid = pid ∧ (c.usr1.pending = none ∨ c.usr1.Holds .kill)) ∨
      ∃ c ∈ s.children, c.terminated = true))

/-- What is kept from the sending of the order to the end of `wait`. -/
def Ordered (s : State) : Prop := ∀ pid ∈ s.pc.waitsFor, Killed s.children pid

/-- An order stays with a child until it has ended. -/
theorem Child.holds_step {c c' : Child} {a : ChildAction} {told : Option ChildMsg}
    (h : c.step a = some (c', told)) (hkill : c.usr1.Holds .kill) :
    c'.usr1.Holds .kill ∨ c'.terminated = true := by
  cases (Child.steps_of_step h).2 with
  | main parentLives _ =>
      left
      rw [(c.main_fixed parentLives).2.2]
      exact hkill
  | alarm _ => exact .inl hkill
  | endedEarly _ => exact .inr rfl
  | deliver m usr1 _ hdel => exact .inl (hkill.deliver hdel)
  | handle m hm =>
      cases m with
      | kill => exact .inr rfl
      | forcePrint | response cycle =>
          left
          rcases hkill with hpending | hhandling
          · exact .inl hpending
          · rw [hm] at hhandling
            cases hhandling

theorem Killed.posted {s : State} {pid pid' : ℕ} {m : ParentMsg} (h : Killed s.children pid) :
    Killed (s.posted pid' m) pid := by
  have hmem : ∀ c ∈ s.children, ∃ c' ∈ s.posted pid' m, c' = c ∨ c' = c.post m := by
    intro c hc
    refine ⟨_, List.mem_map_of_mem hc, ?_⟩
    split
    · exact .inr rfl
    · exact .inl rfl
  rcases h with ⟨c, hc, hpid, hkill⟩ | ⟨c, hc, hterm⟩
  · obtain ⟨c', hc', rfl | rfl⟩ := hmem c hc
    · exact .inl ⟨c', hc', hpid, hkill⟩
    · refine .inl ⟨c.post m, hc', by simpa using hpid, ?_⟩
      unfold Child.post
      split
      · exact hkill
      · exact hkill.post m
  · obtain ⟨c', hc', rfl | rfl⟩ := hmem c hc
    · exact .inr ⟨c', hc', hterm⟩
    · exact .inr ⟨c.post m, hc', by simpa using hterm⟩

theorem Killed.set {s : State} {pid k : ℕ} {c c' : Child} {a : ChildAction}
    {told : Option ChildMsg} (h : Killed s.children pid) (hc : s.children[k]? = some c)
    (hstep : c.step a = some (c', told)) : Killed (s.children.set k c') pid := by
  have hlt := (List.getElem?_eq_some_iff.mp hc).1
  have hnew : c' ∈ s.children.set k c' := List.mem_set hlt c'
  have hother : ∀ d ∈ s.children, d = c ∨ d ∈ s.children.set k c' := by
    intro d hd
    obtain ⟨j, hj⟩ := List.mem_iff_getElem?.mp hd
    by_cases hjk : j = k
    · subst hjk
      exact .inl (Option.some.inj (hj.symm.trans hc))
    · refine .inr (List.mem_of_getElem? (i := j) ?_)
      rw [List.getElem?_set_ne (Ne.symm hjk), hj]
  have halive := (Child.steps_of_step hstep).1
  rcases h with ⟨d, hd, hpid, hkill⟩ | ⟨d, hd, hterm⟩
  · rcases hother d hd with rfl | hd'
    · rcases Child.holds_step hstep hkill with hkill' | hterm'
      · exact .inl ⟨c', hnew, (Child.step_fixed hstep).1.trans hpid, hkill'⟩
      · exact .inr ⟨c', hnew, hterm'⟩
    · exact .inl ⟨d, hd', hpid, hkill⟩
  · rcases hother d hd with rfl | hd'
    · rw [halive] at hterm
      cases hterm
    · exact .inr ⟨d, hd', hterm⟩

/-- The order arrives where it can. -/
theorem killed_posted_iff {s : State} {pid : ℕ} :
    Killed (s.posted pid .kill) pid ↔
      (∃ c ∈ s.children, c.pid = pid ∧ (c.usr1.pending = none ∨ c.usr1.Holds .kill)) ∨
        ∃ c ∈ s.children, c.terminated = true := by
  constructor
  · rintro (⟨_, hc', hpid, hkill⟩ | ⟨_, hc', hterm⟩)
    · obtain ⟨c, hc, rfl⟩ := List.mem_map.mp hc'
      split at hpid
      · rename_i hsame
        rw [if_pos hsame] at hkill
        unfold Child.post at hkill
        split at hkill
        · rename_i hterm
          exact .inr ⟨c, hc, hterm⟩
        · exact .inl ⟨c, hc, hsame, Signal.holds_post_iff.mp hkill⟩
      · rename_i hother
        exact absurd hpid hother
    · obtain ⟨c, hc, rfl⟩ := List.mem_map.mp hc'
      refine .inr ⟨c, hc, ?_⟩
      split at hterm
      · simpa using hterm
      · exact hterm
  · rintro (⟨c, hc, hpid, hroom⟩ | hterm)
    · have hmem : c.post .kill ∈ s.posted pid .kill :=
        List.mem_map.mpr ⟨c, hc, if_pos hpid⟩
      by_cases hterm : c.terminated = true
      · exact .inr ⟨c.post .kill, hmem, by simpa using hterm⟩
      · refine .inl ⟨c.post .kill, hmem, by simpa using hpid, ?_⟩
        rw [Child.post, if_neg hterm]
        exact Signal.holds_post_iff.mpr hroom
    · have hkilled : Killed s.children pid := .inr hterm
      exact hkilled.posted

/-! ## Runs -/

theorem waitsFor_of_idle {pc : Pc} (h : pc.idle = true) : pc.waitsFor = none := by
  cases pc <;> first | rfl | cases h

theorem notMem_waitsFor_exit {s : State} {pid : ℕ} : pid ∉ s.exit.pc.waitsFor := by
  simp [waitsFor_of_idle idle_exit]

theorem notMem_waitsFor_afterKill {all : Bool} {pid : ℕ} : pid ∉ (afterKill all).waitsFor := by
  simp [waitsFor_of_idle (idle_afterKill all)]

theorem waitsFor_main {s s' : State} {pid : ℕ} (h : s.MainSteps s')
    (hpid : pid ∈ s'.pc.waitsFor) :
    (pid ∈ s.pc.waitsFor ∧ s'.children = s.children) ∨
      (pid ∈ s.pc.killed ∧ (∃ c ∈ s.children, c.pid = pid) ∧
        s'.children = s.posted pid .kill) := by
  cases h with
  | order all target hpc hchild =>
      obtain rfl : target = pid := by simpa [Pc.waitsFor] using hpid
      exact .inr ⟨by rw [hpc]; rfl, hchild, rfl⟩
  | callWait all target hpc =>
      refine .inl ⟨?_, rfl⟩
      rw [hpc]
      exact hpid
  | orderFails | printFails => exact absurd hpid notMem_waitsFor_exit
  | killed => cases hexiting : s.exiting <;> simp [hexiting, Pc.waitsFor] at hpid
  | _ => cases hpid

/-- A handler that returns ends the wait or leaves it as it is. -/
theorem waitsFor_returnChild {s : State} {frames : List Frame} {pid : ℕ}
    (h : pid ∈ (s.returnChild frames).pc.waitsFor) : pid ∈ s.pc.waitsFor := by
  dsimp only [State.returnChild] at h
  split at h
  · cases hpc : s.pc with
    | waiting all pid' =>
        rw [hpc, Pc.interrupted] at h
        exact absurd h notMem_waitsFor_afterKill
    | _ => simpa [hpc, Pc.interrupted] using h
  · exact h

theorem waitsFor_handler {s s' : State} {pid : ℕ} (h : s.HandlerSteps s')
    (hpid : pid ∈ s'.pc.waitsFor) : pid ∈ s.pc.waitsFor := by
  cases h with
  | refused | respond | informed => exact waitsFor_returnChild hpid
  | respondFails => exact absurd hpid notMem_waitsFor_exit
  | _ => exact hpid

theorem Ordered.step {s s' : State} {a : Action} (h : Ordered s) (harrives : KillArrives s a)
    (hstep : step s a = some s') : Ordered s' := by
  intro pid hpid
  cases steps_of_step hstep with
  | command c hmenu =>
      rw [waitsFor_of_idle (command_kept c hmenu).1] at hpid
      cases hpid
  | forkFails => exact absurd hpid notMem_waitsFor_exit
  | forked => cases hpid
  | main _ _ hmain =>
      rcases waitsFor_main (mainSteps_of_main hmain) hpid with
        ⟨hwaits, hsame⟩ | ⟨hkill, hsome, hposted⟩
      · exact hsame ▸ h pid hwaits
      · rw [hposted, killed_posted_iff]
        exact harrives rfl pid hkill hsome
  | reap => exact absurd hpid notMem_waitsFor_afterKill
  | noChild => exact absurd hpid notMem_waitsFor_afterKill
  | expire | deliverAlarm | found => exact h pid hpid
  | unknown => exact absurd hpid notMem_waitsFor_exit
  | handler _ hhandler =>
      have hsteps := handlerSteps_of_handler hhandler
      have hwaits := h pid (waitsFor_handler hsteps hpid)
      rcases children_handler hsteps with heq | ⟨pid', m, heq⟩
      · exact heq ▸ hwaits
      · exact heq ▸ hwaits.posted
  | child k b c c' told usr2 hc hcstep => exact (h pid hpid).set hc hcstep

/-- If no other SIGUSR1 is pending where an order is sent, whoever waits will not wait in vain. An
order that is sent arrives if and only if this is so. -/
theorem kill_not_lost_iff (s : State) :
    (Reaches step KillArrives init s → KillNotLost s) ∧
    ∀ s' pid, pid ∈ s.pc.killed → (∃ c ∈ s.children, c.pid = pid) →
      step s .main = some s' → (Killed s'.children pid ↔ KillArrives s .main) := by
  constructor
  · intro h all pid hpc
    have hordered : Ordered s := by
      refine h.invariant (I := Ordered) (by simp [Ordered, init, Pc.waitsFor])
        fun _ _ _ hu harrives hstep => hu.step harrives hstep
    exact hordered pid (by rw [hpc]; rfl)
  · intro s' pid hkill hsome hstep
    cases steps_of_step hstep with
    | main _ _ hmain =>
        have hposted : s'.children = s.posted pid .kill := by
          cases hpc : s.pc with
          | sendKill all target =>
              obtain rfl : target = pid := by simpa [hpc, Pc.killed] using hkill
              simp only [State.main, hpc, sendSignal_isSome hsome, Option.some.injEq] at hmain
              rw [← hmain]
          | _ => simp [hpc, Pc.killed] at hkill
        rw [hposted, killed_posted_iff]
        constructor
        · intro h _ pid' hkill' _
          obtain rfl := Option.some.inj (hkill.symm.trans hkill')
          exact h
        · intro h
          exact h rfl pid hkill hsome

/-- The child has handled a forced print when the order is sent. -/
def killAfterPrint : List Action :=
  [.command .create, .fork (some 7), .main, .main, .main, .child 0 (.main true),
    .command (.print (some 0)), .main, .main, .main, .main, .child 0 .deliver, .child 0 .handle,
    .command .killLast, .main, .main, .main]

theorem kill_not_lost_iff_after_print :
    ∃ s, Reaches step KillArrives init s ∧ s.pc = .waiting false 7 ∧ Killed s.children 7 := by
  have hrun : (exec (fun u a => if KillArrives u a then step u a else none) init
      killAfterPrint).map State.pc = some (.waiting false 7) := by decide +kernel
  obtain ⟨s, hexec, hpc⟩ := Option.map_eq_some_iff.mp hrun
  have hreach := reaches_of_guarded hexec
  exact ⟨s, hreach, hpc, (kill_not_lost_iff s).1 hreach false 7 hpc⟩

/-- A child is created, and a forced print is sent to it before the order. -/
def printThenKill : List Action :=
  [.command .create, .fork (some 7), .main, .main, .main, .child 0 (.main true),
    .command (.print (some 0)), .main, .main, .main, .main, .command .killLast, .main, .main, .main]

/-- The order finds a forced print that is pending. -/
theorem kill_discarded : ∃ s, Reaches step anything init s ∧ ¬ KillNotLost s := by
  have hrun : (exec step init printThenKill).map
      (fun s => (s.pc, s.children.map fun c => (c.usr1, c.terminated))) =
        some (.waiting false 7, [(⟨some .forcePrint, none⟩, false)]) := by decide
  obtain ⟨s, hexec, hstate⟩ := Option.map_eq_some_iff.mp hrun
  obtain ⟨hpc, hchildren⟩ := Prod.mk.inj hstate
  obtain ⟨c, hsingle, hc⟩ := List.map_eq_singleton_iff.mp hchildren
  obtain ⟨husr1, halive⟩ := Prod.mk.inj hc
  refine ⟨s, reaches_anything_of_exec hexec, fun hkept => ?_⟩
  rcases hkept false 7 hpc with ⟨d, hd, _, hkill⟩ | ⟨d, hd, hterm⟩
  · rw [hsingle, List.mem_singleton] at hd
    rw [hd, husr1] at hkill
    rcases hkill with hkill | hkill <;> cases hkill
  · rw [hsingle, List.mem_singleton] at hd
    rw [hd, halive] at hterm
    cases hterm

end OsaspLabs.Lab3
