import Mathlib.Logic.Basic
import OsaspLabs.Lab3.Child
import OsaspLabs.Library.Runs

/-! # The reporting point of a LAB_3 child

The main loop looks for one value of `alarm_count`, which the handler of SIGALRM raises at any
time. -/

namespace OsaspLabs.Lab3

open Runs

/-- What happens to a child, whatever its parent does. -/
inductive ChildEvent where
  | own (a : ChildAction)
  /-- The parent sends SIGUSR1. -/
  | sent (m : ParentMsg)
  deriving DecidableEq, Repr

def Child.next (c : Child) : ChildEvent → Option Child
  | .own a => (c.step a).map Prod.fst
  | .sent m => some (c.post m)

/-- From the test that succeeds to `alarm_count = 0`. -/
def ChildPc.reporting : ChildPc → Bool
  | .askToPrint | .testAllowed | .printStat | .informAboutPrint | .resetCount => true
  | _ => false

/-- No alarm comes between the one that makes `alarm_count` reach its point and the test. -/
def InTime (c : Child) (e : ChildEvent) : Prop :=
  e = .own .alarm → c.alarmCount < alarmCountsToPrint ∨ c.pc.reporting = true

instance (c : Child) (e : ChildEvent) : Decidable (InTime c e) :=
  inferInstanceAs (Decidable (e = .own .alarm → c.alarmCount < alarmCountsToPrint ∨
    c.pc.reporting = true))

/-- The main loop does not find `alarm_count` past its point. -/
def MeetsPoint (c : Child) : Prop := c.pc = .test → c.alarmCount ≤ alarmCountsToPrint

/-- Outside the report `alarm_count` is not past its point. -/
def Bounded (c : Child) : Prop := c.alarmCount ≤ alarmCountsToPrint ∨ c.pc.reporting = true

/-- Outside the report `alarm_count` is past its point. -/
def Missed (c : Child) : Prop := alarmCountsToPrint < c.alarmCount ∧ c.pc.reporting = false

/-- What the main loop does to `alarm_count`, and how it enters and leaves the report. -/
theorem Child.main_point (c : Child) (parentLives : Bool) :
    ((c.main parentLives).1.alarmCount = c.alarmCount ∨
      c.pc.reporting = true ∧ (c.main parentLives).1.alarmCount = 0) ∧
    ((c.main parentLives).1.pc.reporting = true →
      c.pc.reporting = true ∨ c.alarmCount = alarmCountsToPrint) ∧
    (c.pc.reporting = true →
      (c.main parentLives).1.pc.reporting = true ∨ (c.main parentLives).1.alarmCount = 0) := by
  unfold Child.main Child.tell
  cases hpc : c.pc with
  | test =>
      by_cases hpoint : c.alarmCount = alarmCountsToPrint
      · simp [ChildPc.reporting, hpoint]
      · simp [ChildPc.reporting, hpoint]
  | testAllowed => cases c.outputAllowed <;> simp [ChildPc.reporting]
  | askToPrint => cases parentLives <;> simp [ChildPc.reporting]
  | informAboutPrint => cases parentLives <;> simp [ChildPc.reporting]
  | _ => simp [ChildPc.reporting]

/-- The handlers and the signals leave the main loop and `alarm_count` alone, but for the handler
of SIGALRM. -/
theorem Child.next_point {c c' : Child} {e : ChildEvent} (h : c.next e = some c') :
    (∃ parentLives, e = .own (.main parentLives) ∧ c' = (c.main parentLives).1) ∨
    (e = .own .alarm ∧ c'.alarmCount = c.alarmCount + 1 ∧ c'.pc = c.pc) ∨
    (e ≠ .own .alarm ∧ c'.alarmCount = c.alarmCount ∧ c'.pc = c.pc) := by
  cases e with
  | sent m =>
      cases h
      refine .inr (.inr ⟨by simp, ?_⟩)
      unfold Child.post
      split <;> exact ⟨rfl, rfl⟩
  | own a =>
      obtain ⟨⟨c', told⟩, hstep, rfl⟩ := Option.map_eq_some_iff.mp h
      cases (Child.steps_of_step hstep).2 with
      | main parentLives _ => exact .inl ⟨parentLives, rfl, rfl⟩
      | alarm _ => exact .inr (.inl ⟨rfl, rfl, rfl⟩)
      | endedEarly _ => exact .inr (.inr ⟨by simp, rfl, rfl⟩)
      | deliver m usr1 _ _ => exact .inr (.inr ⟨by simp, rfl, rfl⟩)
      | handle m _ =>
          refine .inr (.inr ⟨by simp, ?_⟩)
          cases m <;> exact ⟨rfl, rfl⟩

theorem Bounded.next {c c' : Child} {e : ChildEvent} (h : Bounded c) (htime : InTime c e)
    (hnext : c.next e = some c') : Bounded c' := by
  rcases Child.next_point hnext with
    ⟨parentLives, _, rfl⟩ | ⟨rfl, hcount, hpc⟩ | ⟨_, hcount, hpc⟩
  · obtain ⟨hcount, henter, hleave⟩ := c.main_point parentLives
    unfold Bounded at *
    rcases h with h | h
    · left
      omega
    · rcases hleave h with hin | hzero
      · exact .inr hin
      · left
        omega
  · unfold Bounded
    rw [hpc]
    rcases htime rfl with hlt | hin
    · left
      omega
    · exact .inr hin
  · unfold Bounded at *
    rwa [hcount, hpc]

theorem Missed.next {c c' : Child} {e : ChildEvent} (h : Missed c) (hnext : c.next e = some c') :
    Missed c' := by
  obtain ⟨hpast, hout⟩ := h
  rcases Child.next_point hnext with
    ⟨parentLives, _, rfl⟩ | ⟨_, hcount, hpc⟩ | ⟨_, hcount, hpc⟩
  · obtain ⟨hcount, henter, _⟩ := c.main_point parentLives
    rw [hout] at hcount henter
    refine ⟨?_, ?_⟩
    · rcases hcount with hcount | ⟨hin, _⟩
      · omega
      · cases hin
    · refine Bool.eq_false_iff.mpr fun hin => ?_
      rcases henter hin with hin' | hpoint
      · cases hin'
      · omega
  · exact ⟨by omega, hpc ▸ hout⟩
  · exact ⟨by omega, hpc ▸ hout⟩

/-- A child finds `alarm_count` at its point at the latest if no alarm comes between the one that
reaches it and the test. After such an alarm every later test finds it past its point, and the
child does not report again. `alarm_count` is a natural number here: the runs are those in which the
`int` does not overflow. -/
theorem reporting_point_iff (pid number : ℕ) :
    (∀ c, Reaches Child.next InTime (Child.forked pid number) c → MeetsPoint c) ∧
    ∀ c c', c.next (.own .alarm) = some c' → ¬ InTime c (.own .alarm) →
      ∀ c'', Reaches Child.next anything c' c'' →
        alarmCountsToPrint < c''.alarmCount ∧ c''.pc.reporting = false := by
  constructor
  · intro c h hpc
    have hbounded : Bounded c := by
      refine h.invariant (I := Bounded) ?_ fun _ _ _ hu htime hnext => hu.next htime hnext
      exact .inl (Nat.zero_le _)
    rcases hbounded with hle | hin
    · exact hle
    · rw [hpc] at hin
      cases hin
  · intro c c' hnext hlate c'' h
    have hmissed : Missed c' := by
      simp only [InTime, true_implies, not_or, Nat.not_lt, Bool.not_eq_true] at hlate
      rcases Child.next_point hnext with ⟨_, hmain, _⟩ | ⟨_, hcount, hpc⟩ | ⟨hnot, _⟩
      · cases hmain
      · exact ⟨by omega, hpc ▸ hlate.2⟩
      · exact absurd rfl hnot
    exact h.invariant (I := Missed) hmissed fun _ _ _ hu _ hnext => hu.next hnext

/-- The test finds `alarm_count` at its point. -/
theorem reporting_point_iff_met :
    ∃ c, Reaches Child.next InTime (Child.forked 7 0) c ∧ c.pc = .test ∧
      c.alarmCount = alarmCountsToPrint ∧ MeetsPoint c := by
  have hrun : (exec (fun c e => if InTime c e then c.next e else none) (Child.forked 7 0)
      (List.replicate 2 (.own (.main true)) ++ List.replicate 101 (.own .alarm) ++
        List.replicate 4 (.own (.main true)))).map (fun c => (c.pc, c.alarmCount)) =
          some (.test, 101) := by decide +kernel
  obtain ⟨c, hexec, hstate⟩ := Option.map_eq_some_iff.mp hrun
  obtain ⟨hpc, hcount⟩ := Prod.mk.inj hstate
  have hreach := reaches_of_guarded hexec
  exact ⟨c, hreach, hpc, hcount, (reporting_point_iff 7 0).1 c hreach⟩

/-- The child starts and prints on demand while 102 alarms come. -/
def slowForcedPrint : List ChildEvent :=
  [.own (.main true), .own (.main true), .sent .forcePrint, .own .deliver] ++
    List.replicate 102 (.own .alarm) ++ .own .handle :: List.replicate 4 (.own (.main true))

theorem point_missed :
    ∃ c, Reaches Child.next anything (Child.forked 7 0) c ∧ ¬ MeetsPoint c := by
  have hrun : (exec Child.next (Child.forked 7 0) slowForcedPrint).map
      (fun c => (c.pc, c.alarmCount)) = some (.test, 102) := by decide
  obtain ⟨c, hexec, hstate⟩ := Option.map_eq_some_iff.mp hrun
  obtain ⟨hpc, hcount⟩ := Prod.mk.inj hstate
  refine ⟨c, reaches_anything_of_exec hexec, fun hmeets => ?_⟩
  have hle := hmeets hpc
  rw [hcount] at hle
  exact absurd hle (by decide)

end OsaspLabs.Lab3
