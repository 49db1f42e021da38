import OsaspLabs.Lab3.Parent
import OsaspLabs.Library.Runs

/-! # The permission to print in LAB_3

A child asks, looks at its flag and clears it without waiting for the response, which sets the
flag whenever it arrives. -/

namespace OsaspLabs.Lab3

open Runs

/-- A child that prints in a cycle has the response to the question of that cycle. -/
def Permitted (c : Child) : Prop := c.pc = .printStat → c.cycle ∈ c.answered

/-- The message, if it is a response, answers the question of this cycle. -/
def ParentMsg.InCycle (now : Cycle) : ParentMsg → Prop
  | .response cycle => cycle = now
  | .kill | .forcePrint => True

instance (now : Cycle) : (m : ParentMsg) → Decidable (m.InCycle now)
  | .response cycle => inferInstanceAs (Decidable (cycle = now))
  | .kill | .forcePrint => inferInstanceAs (Decidable True)

/-- A response is handled in the cycle of its question. -/
def AnsweredInTime (s : State) (a : Action) : Prop :=
  ∀ k < s.children.length, a = .child k .handle →
    ∀ c ∈ s.children[k]?, ∀ m ∈ c.usr1.handling, m.InCycle c.cycle

instance (s : State) (a : Action) : Decidable (AnsweredInTime s a) := by
  unfold AnsweredInTime
  infer_instance

/-- The flag and the report of a child go back to a response of the same cycle. -/
structure Granted (c : Child) : Prop where
  flag : c.outputAllowed = true → c.cycle ∈ c.answered
  print : Permitted c

/-- What the main loop does to the flag, and when it prints. -/
theorem Child.main_flag (c : Child) (parentLives : Bool) :
    (c.main parentLives).1.answered = c.answered ∧
    ((c.main parentLives).1.outputAllowed = true →
      c.outputAllowed = true ∧ (c.main parentLives).1.cycle = c.cycle) ∧
    ((c.main parentLives).1.pc = .printStat →
      c.outputAllowed = true ∧ (c.main parentLives).1.cycle = c.cycle) := by
  unfold Child.main Child.tell
  cases hpc : c.pc with
  | test =>
      by_cases hpoint : c.alarmCount = alarmCountsToPrint
      · simp [hpoint]
      · simp [hpoint]
  | testAllowed => cases c.outputAllowed <;> simp
  | askToPrint | informAboutPrint => cases parentLives <;> simp
  | _ => simp

theorem Granted.main {c : Child} (h : Granted c) (parentLives : Bool) :
    Granted (c.main parentLives).1 := by
  obtain ⟨hanswered, hflag, hprint⟩ := c.main_flag parentLives
  refine ⟨fun hallowed => ?_, fun hpc => ?_⟩
  · obtain ⟨hold, hcycle⟩ := hflag hallowed
    rw [hanswered, hcycle]
    exact h.flag hold
  · obtain ⟨hold, hcycle⟩ := hprint hpc
    rw [hanswered, hcycle]
    exact h.flag hold

theorem Granted.step {c c' : Child} {a : ChildAction} {told : Option ChildMsg} (h : Granted c)
    (htime : a = .handle → ∀ m ∈ c.usr1.handling, m.InCycle c.cycle)
    (hstep : c.step a = some (c', told)) : Granted c' := by
  cases (Child.steps_of_step hstep).2 with
  | main parentLives _ => exact h.main parentLives
  | alarm _ => exact ⟨h.flag, h.print⟩
  | endedEarly _ => exact ⟨h.flag, h.print⟩
  | deliver m usr1 _ _ => exact ⟨h.flag, h.print⟩
  | handle m hm =>
      cases m with
      | response cycle =>
          have hsame : cycle = c.cycle := htime rfl _ hm
          exact ⟨fun _ => hsame ▸ List.mem_cons_self, fun _ => hsame ▸ List.mem_cons_self⟩
      | forcePrint => exact ⟨h.flag, h.print⟩
      | kill => exact ⟨h.flag, h.print⟩

theorem granted_of_step {s s' : State} {a : Action} (hs : ∀ c ∈ s.children, Granted c)
    (htime : AnsweredInTime s a) (h : step s a = some s') : ∀ c ∈ s'.children, Granted c := by
  intro c' hc'
  cases origin_of_step h hc' with
  | forked pid => exact ⟨by simp [Child.forked], by simp [Permitted, Child.forked]⟩
  | same _ hc => exact hs c' hc
  | posted c m hc =>
      obtain ⟨hflag, hprint⟩ := hs c hc
      unfold Child.post
      split
      · exact ⟨hflag, hprint⟩
      · exact ⟨hflag, hprint⟩
  | placed c place hc => exact ⟨(hs c hc).flag, (hs c hc).print⟩
  | stepped k c _ b told ha hc hstep =>
      refine (hs c (List.mem_of_getElem? hc)).step (fun hb => ?_) hstep
      exact htime k (List.getElem?_eq_some_iff.mp hc).1 (hb ▸ ha) c hc

/-- If every response is handled in the cycle of its question, a child prints only in a cycle
whose question was answered. -/
theorem print_permitted (s : State) (h : Reaches step AnsweredInTime init s) :
    ∀ c ∈ s.children, Permitted c := by
  have hgranted : ∀ c ∈ s.children, Granted c := by
    refine h.invariant (I := fun u => ∀ c ∈ u.children, Granted c) ?_
      fun _ _ _ hu htime hstep => granted_of_step hu htime hstep
    simp [init]
  exact fun c hc => (hgranted c hc).print

/-- The parent answers, and the child handles the response. -/
def response : List Action :=
  [.deliverUsr2, .handler, .handler, .child 0 .deliver, .child 0 .handle]

theorem print_permitted_first :
    ∃ s c, Reaches step AnsweredInTime init s ∧ c ∈ s.children ∧ c.pc = .printStat ∧
      c.cycle ∈ c.answered := by
  have hrun : (exec (fun u a => if AnsweredInTime u a then step u a else none) init
      (firstQuestion ++ response ++ [.child 0 (.main true)])).map
        (fun s => s.children.map Child.pc) = some [.printStat] := by decide +kernel
  obtain ⟨s, hexec, hpcs⟩ := Option.map_eq_some_iff.mp hrun
  obtain ⟨c, hc, hpc⟩ := List.mem_map.mp (hpcs ▸ List.mem_singleton_self ChildPc.printStat)
  have hreach := reaches_of_guarded hexec
  exact ⟨s, c, hreach, hc, hpc, print_permitted s hreach c hc hpc⟩

/-- The response to the first question is handled in the second cycle, whose question is not
answered. -/
theorem late_response_prints :
    ∃ s, Reaches step anything init s ∧ ¬ ∀ c ∈ s.children, Permitted c := by
  have hrun : (exec step init
      (firstQuestion ++ List.replicate 7 (.child 0 (.main true)) ++ response ++
        List.replicate 101 (.child 0 .alarm) ++ List.replicate 7 (.child 0 (.main true)))).map
        (fun s => s.children.map fun c => (c.pc, c.cycle, c.answered)) =
      some [(.printStat, ⟨0, 1⟩, [⟨0, 0⟩])] := by decide +kernel
  obtain ⟨s, hexec, hstate⟩ := Option.map_eq_some_iff.mp hrun
  obtain ⟨c, hc, heq⟩ := List.mem_map.mp (hstate ▸ List.mem_singleton_self _)
  simp only [Prod.mk.injEq] at heq
  obtain ⟨hpc, hcycle, hanswered⟩ := heq
  refine ⟨s, reaches_anything_of_exec hexec, fun hall => ?_⟩
  have hmem := hall c hc hpc
  rw [hcycle, hanswered] at hmem
  exact absurd hmem (by decide)

end OsaspLabs.Lab3
