import OsaspLabs.Lab3.Reporting

/-! # The statistic of a LAB_3 child

The handler of SIGALRM counts an alarm in the statistic and in `alarm_count`; `reset_cycle` clears
them one after the other. -/

namespace OsaspLabs.Lab3

open Runs

/-- From `alarm_count = 0` to `stat.I_I = 0`. -/
def ChildPc.clearing : ChildPc → Bool
  | .resetAllowed | .resetO_O | .resetO_I | .resetI_O | .resetI_I => true
  | _ => false

def Stat.total (stat : Stat) : ℕ := stat.O_O + stat.O_I + stat.I_O + stat.I_I

/-- The main loop finds every alarm in the statistic. -/
def Accounts (c : Child) : Prop := c.pc = .test → c.stat.total = c.alarmCount

/-- No alarm comes while `reset_cycle` has cleared `alarm_count` but not the whole statistic. -/
def AfterReset (c : Child) (e : ChildEvent) : Prop := e = .own .alarm → c.pc.clearing = false

instance (c : Child) (e : ChildEvent) : Decidable (AfterReset c e) :=
  inferInstanceAs (Decidable (e = .own .alarm → c.pc.clearing = false))

/-- The alarms that `reset_cycle` has cleared in the statistic only, since it last cleared
`alarm_count`. -/
def lostAfter (c : Child) (lost : ℕ) : ChildEvent → ℕ
  | .own (.main _) => if c.pc = .resetCount then 0 else lost
  | .own .alarm => if c.pc.clearing then lost + 1 else lost
  | _ => lost

def Child.nextLost (s : Child × ℕ) (e : ChildEvent) : Option (Child × ℕ) :=
  (s.1.next e).map fun c => (c, lostAfter s.1 s.2 e)

/-- How the statistic and `alarm_count` differ at each place of the main loop. -/
def Differ (stat : Stat) (alarmCount lost : ℕ) : ChildPc → Prop
  | .resetAllowed | .resetO_O => alarmCount = lost
  | .resetO_I => alarmCount = lost ∧ stat.O_O = 0
  | .resetI_O => alarmCount = lost ∧ stat.O_O = 0 ∧ stat.O_I = 0
  | .resetI_I => alarmCount = lost ∧ stat.O_O = 0 ∧ stat.O_I = 0 ∧ stat.I_O = 0
  | _ => stat.total + lost = alarmCount

/-- What `data` holds at each place of the main loop. -/
def Marks (data : Binary) : ChildPc → Prop
  | .starting | .arming | .zeroO | .zeroI | .threeO => True
  | .threeI => data.O = 1
  | _ => data = ⟨1, 1⟩

structure Tallied (c : Child) (lost : ℕ) : Prop where
  /-- During `reset_cycle` an alarm counts in `stat.I_I`, which is cleared last. -/
  data : Marks c.data c.pc
  differ : Differ c.stat c.alarmCount lost c.pc

theorem Child.next_stat {c c' : Child} {e : ChildEvent} (h : c.next e = some c') :
    (∃ parentLives, e = .own (.main parentLives) ∧ c' = (c.main parentLives).1) ∨
    (e = .own .alarm ∧ c' = c.alarmHandler ∧ c.pc.armed = true) ∨
    (e ≠ .own .alarm ∧ (∀ lost, lostAfter c lost e = lost) ∧ c'.pc = c.pc ∧ c'.data = c.data ∧
      c'.stat = c.stat ∧ c'.alarmCount = c.alarmCount) := by
  cases e with
  | sent m =>
      cases h
      refine .inr (.inr ⟨by simp, fun _ => rfl, ?_⟩)
      unfold Child.post
      split <;> exact ⟨rfl, rfl, rfl, rfl⟩
  | own a =>
      obtain ⟨⟨c', told⟩, hstep, rfl⟩ := Option.map_eq_some_iff.mp h
      cases (Child.steps_of_step hstep).2 with
      | main parentLives _ => exact .inl ⟨parentLives, rfl, rfl⟩
      | alarm harmed => exact .inr (.inl ⟨rfl, rfl, harmed⟩)
      | endedEarly _ => exact .inr (.inr ⟨by simp, fun _ => rfl, rfl, rfl, rfl, rfl⟩)
      | deliver m usr1 _ _ => exact .inr (.inr ⟨by simp, fun _ => rfl, rfl, rfl, rfl, rfl⟩)
      | handle m _ =>
          refine .inr (.inr ⟨by simp, fun _ => rfl, ?_⟩)
          cases m <;> exact ⟨rfl, rfl, rfl, rfl⟩

theorem Stat.total_count (stat : Stat) (data : Binary) :
    (stat.count data).total = stat.total + 1 := by
  unfold Stat.count Stat.total
  split <;> split <;> dsimp only <;> omega

theorem Tallied.main {c : Child} {lost : ℕ} (h : Tallied c lost) (parentLives : Bool) :
    Tallied (c.main parentLives).1 (lostAfter c lost (.own (.main parentLives))) := by
  obtain ⟨hdata, hdiffer⟩ := h
  unfold Child.main Child.tell lostAfter
  cases hpc : c.pc with
  | test =>
      rw [hpc] at hdata hdiffer
      by_cases hpoint : c.alarmCount = alarmCountsToPrint
      · exact ⟨by simpa [hpoint, Marks] using hdata, by simpa [hpoint, Differ] using hdiffer⟩
      · exact ⟨by simp [hpoint, Marks], by simpa [hpoint, Differ] using hdiffer⟩
  | threeI =>
      rw [hpc] at hdata hdiffer
      exact ⟨congrArg (Binary.mk · 1) hdata, hdiffer⟩
  | testAllowed =>
      rw [hpc] at hdata hdiffer
      cases c.outputAllowed <;> exact ⟨hdata, hdiffer⟩
  | askToPrint | informAboutPrint =>
      rw [hpc] at hdata hdiffer
      cases parentLives with
      | true => exact ⟨hdata, hdiffer⟩
      | false => exact ⟨by simpa [hpc] using hdata, by simpa [hpc] using hdiffer⟩
  | resetI_I =>
      rw [hpc] at hdiffer
      obtain ⟨hcount, hO_O, hO_I, hI_O⟩ := hdiffer
      exact ⟨trivial, by simp [Differ, Stat.total, hcount, hO_O, hO_I, hI_O]⟩
  | starting | arming | zeroO | zeroI =>
      rw [hpc] at hdiffer
      exact ⟨trivial, hdiffer⟩
  | threeO =>
      rw [hpc] at hdiffer
      exact ⟨rfl, hdiffer⟩
  | _ =>
      rw [hpc] at hdata hdiffer
      exact ⟨hdata, by simp_all [Differ]⟩

theorem Tallied.alarm {c : Child} {lost : ℕ} (h : Tallied c lost) :
    Tallied c.alarmHandler (lostAfter c lost (.own .alarm)) := by
  obtain ⟨hdata, hdiffer⟩ := h
  refine ⟨hdata, ?_⟩
  have htotal := c.stat.total_count c.data
  unfold lostAfter Child.alarmHandler
  cases hpc : c.pc with
  | resetAllowed | resetO_O | resetO_I | resetI_O | resetI_I =>
      rw [hpc] at hdata hdiffer
      have hthree : c.data = ⟨1, 1⟩ := hdata
      simp_all [Differ, ChildPc.clearing, Stat.count]
  | _ =>
      rw [hpc] at hdiffer
      simp only [Differ, ChildPc.clearing] at hdiffer ⊢
      simp only [Bool.false_eq_true, if_false]
      omega

theorem Tallied.next {c c' : Child} {lost : ℕ} {e : ChildEvent} (h : Tallied c lost)
    (hnext : c.next e = some c') : Tallied c' (lostAfter c lost e) := by
  rcases Child.next_stat hnext with
    ⟨parentLives, rfl, rfl⟩ | ⟨rfl, rfl, _⟩ | ⟨_, hlost, hpc, hdata, hstat, hcount⟩
  · exact h.main parentLives
  · exact h.alarm
  · rw [hlost]
    exact ⟨by rw [hpc, hdata]; exact h.data, by rw [hstat, hcount, hpc]; exact h.differ⟩

theorem Tallied.forked (pid number : ℕ) : Tallied (Child.forked pid number) 0 :=
  ⟨trivial, rfl⟩

/-- At the test the statistic misses exactly the alarms that came while `reset_cycle` had cleared
`alarm_count` but not the whole statistic. It accounts for every alarm as long as there are none,
and in each state it does so if and only if there were none in the last `reset_cycle`. -/
theorem statistic_accounts_iff (pid number : ℕ) :
    (∀ c, Reaches Child.next AfterReset (Child.forked pid number) c → Accounts c) ∧
    ∀ c lost, Reaches Child.nextLost anything (Child.forked pid number, 0) (c, lost) →
      (Accounts c ↔ (c.pc = .test → lost = 0)) := by
  have hdiffer : ∀ {c : Child} {lost : ℕ}, Tallied c lost → c.pc = .test →
      c.stat.total + lost = c.alarmCount := by
    intro c lost h hpc
    have hat := h.differ
    rwa [hpc] at hat
  constructor
  · intro c h hpc
    have htallied : Tallied c 0 := by
      refine h.invariant (I := fun c => Tallied c 0) (.forked pid number) ?_
      intro u e v hu hafter hnext
      have hv := hu.next hnext
      have hlost : lostAfter u 0 e = 0 := by
        cases e with
        | sent m => rfl
        | own a =>
            cases a with
            | main parentLives => simp [lostAfter]
            | alarm => simp [lostAfter, hafter rfl]
            | deliver | handle => rfl
      rwa [hlost] at hv
    exact hdiffer htallied hpc
  · intro c lost h
    have htallied : Tallied c lost := by
      refine h.invariant (I := fun s => Tallied s.1 s.2) (.forked pid number) ?_
      intro u e v hu _ hnext
      obtain ⟨c', hc', rfl⟩ := Option.map_eq_some_iff.mp hnext
      exact hu.next hc'
    refine forall_congr' fun hpc => ?_
    have hsum := hdiffer htallied hpc
    omega

/-- A cycle is over, and three alarms have come in the next one when it comes to its test. -/
def alarmsAfterReset : List ChildEvent :=
  List.replicate 2 (.own (.main true)) ++ List.replicate 101 (.own .alarm) ++
    List.replicate 13 (.own (.main true)) ++ List.replicate 3 (.own .alarm) ++
      List.replicate 4 (.own (.main true))

theorem statistic_accounts_iff_after_reset :
    ∃ c, Reaches Child.next AfterReset (Child.forked 7 0) c ∧ c.pc = .test ∧
      c.alarmCount = 3 ∧ c.stat.total = c.alarmCount := by
  have hrun : (exec (fun c e => if AfterReset c e then c.next e else none) (Child.forked 7 0)
      alarmsAfterReset).map (fun c => (c.pc, c.alarmCount)) = some (.test, 3) := by
    decide +kernel
  obtain ⟨c, hexec, hstate⟩ := Option.map_eq_some_iff.mp hrun
  obtain ⟨hpc, hcount⟩ := Prod.mk.inj hstate
  have hreach := reaches_of_guarded hexec
  exact ⟨c, hreach, hpc, hcount, (statistic_accounts_iff 7 0).1 c hreach hpc⟩

/-- An alarm comes right after `alarm_count = 0`, and the main loop goes on to its next test. -/
def alarmInReset : List ChildEvent :=
  List.replicate 2 (.own (.main true)) ++ List.replicate 101 (.own .alarm) ++
    List.replicate 8 (.own (.main true)) ++ .own .alarm :: List.replicate 9 (.own (.main true))

theorem alarm_missing :
    ∃ c, Reaches Child.next anything (Child.forked 7 0) c ∧ ¬ Accounts c := by
  have hrun : (exec Child.next (Child.forked 7 0) alarmInReset).map
      (fun c => (c.pc, c.stat.total, c.alarmCount)) = some (.test, 0, 1) := by
    decide +kernel
  obtain ⟨c, hexec, hstate⟩ := Option.map_eq_some_iff.mp hrun
  obtain ⟨hpc, hstate⟩ := Prod.mk.inj hstate
  obtain ⟨htotal, hcount⟩ := Prod.mk.inj hstate
  refine ⟨c, reaches_anything_of_exec hexec, fun haccounts => ?_⟩
  have heq := haccounts hpc
  rw [htotal, hcount] at heq
  cases heq

end OsaspLabs.Lab3
