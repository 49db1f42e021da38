import Mathlib.Data.Fintype.EquivFin
import OsaspLabs.Lab3.Shutdown
import OsaspLabs.Library.Tally

/-! # The way to the end of LAB_3

Wherever the parent and its children are, they can come to the end of the parent without a further
signal from a child or the timer. What is left to do falls with every step on that way. -/

namespace OsaspLabs.Lab3

open Runs

/-! ## What is left to do -/

/-- The steps of a child up to the end of its handler. -/
def Child.rank (c : Child) : ℕ :=
  if c.terminated then 0
  else
    (if c.pc = .starting then 1 else 0) + (if c.usr1.pending = none then 0 else 2) +
      if c.usr1.handling = none then 0 else 1

/-- The steps of the parent up to its end, if `q` is typed at the menu. -/
def State.pcRank (s : State) : ℕ :=
  let first := if s.exiting then 0 else 3
  match s.pc with
  | .ended => 0
  | .killAll => 5 * s.amount + first + 1
  | .decrement _ => 5 * s.amount + first
  | .sendKill _ _ => 5 * s.amount + first + 4
  | .callWait _ _ => 5 * s.amount + first + 3
  | .waiting _ _ => 5 * s.amount + first + 2
  | .menu => 5 * s.amount + 2
  | .setAlarm => 5 * s.amount + 3
  | .printStat _ => 5 * s.amount + 4
  | .stopAll i _ => 5 * s.amount + 5 + (s.amount - i)
  | .resumeAll i => 5 * s.amount + 3 + (s.amount - i)
  | .count _ => 5 * s.amount + 8
  | .enterAllowed _ => 5 * s.amount + 9
  | .enterPid _ => 5 * s.amount + 10
  | .fork => 5 * s.amount + 11

/-- The children, with the one that is about to be forked. -/
def State.family (s : State) : ℕ := s.children.length + if s.pc = .fork then 1 else 0

/-- A step of the parent may leave four steps to each child. -/
def State.rank (s : State) : ℕ :=
  s.pcRank * (4 * s.family + 1) + tally Child.rank s.children

theorem Child.rank_le (c : Child) : c.rank ≤ 4 := by
  unfold Child.rank
  split
  · exact Nat.zero_le 4
  · split <;> split <;> split <;> decide

theorem ranks_le (children : List Child) : tally Child.rank children ≤ 4 * children.length := by
  induction children with
  | nil => exact Nat.le_refl 0
  | cons c children ih =>
      have hc := c.rank_le
      rw [tally_cons, List.length_cons]
      omega

/-- The parent has come nearer to its end. -/
theorem rank_lt_of_pcRank {s s' : State} (hpc : s'.pcRank < s.pcRank)
    (hfamily : s'.family ≤ s.family) : s'.rank < s.rank := by
  have hchildren : tally Child.rank s'.children ≤ 4 * s'.family := by
    have hlength : s'.children.length ≤ s'.family := Nat.le_add_right _ _
    exact (ranks_le s'.children).trans (Nat.mul_le_mul_left 4 hlength)
  calc s'.rank
      < s'.pcRank * (4 * s'.family + 1) + (4 * s'.family + 1) :=
        Nat.add_lt_add_left (Nat.lt_succ_of_le hchildren) _
    _ = (s'.pcRank + 1) * (4 * s'.family + 1) := (Nat.succ_mul _ _).symm
    _ ≤ s.pcRank * (4 * s.family + 1) := by
        apply Nat.mul_le_mul hpc
        omega
    _ ≤ s.rank := Nat.le_add_right _ _

/-! ## A child answers its signals -/

/-- A child that has a SIGUSR1 to handle can do so, and ends only by PARENT_KILL. -/
theorem Child.attends {c : Child} (halive : c.terminated = false)
    (hbusy : c.usr1.pending ≠ none ∨ c.usr1.handling ≠ none) (lives : Bool) :
    ∃ b c', c.step b = some (c', none) ∧ c'.rank < c.rank ∧
      (c'.terminated = true → c.usr1.Holds .kill) ∧ ∀ l, b = .main l → l = lives := by
  cases hhandling : c.usr1.handling with
  | some m =>
      refine ⟨.handle, c.parentHandler m, ?_, ?_, fun hend => ?_, by simp⟩
      · simp [Child.step, halive, hhandling]
      · cases m <;> simp [Child.parentHandler, Child.rank, Signal.finish, halive, hhandling]
      · cases m with
        | kill => exact .inr hhandling
        | forcePrint | response => simp [Child.parentHandler, halive] at hend
  | none =>
      have hsome := hbusy.resolve_right (by simp [hhandling])
      obtain ⟨m, hpending⟩ := Option.ne_none_iff_exists'.mp hsome
      by_cases hstarting : c.pc = .starting
      · refine ⟨.main lives, { c with pc := .arming }, ?_, ?_, ?_, by simp⟩
        · simp [Child.step, Child.main, halive, hhandling, hstarting]
        · simp [Child.rank, halive, hhandling, hstarting]
        · simp [halive]
      · have hdeliver : c.usr1.deliver = some (m, ⟨none, some m⟩) :=
          Signal.deliver_eq_some_iff.mpr ⟨hhandling, hpending, rfl⟩
        refine ⟨.deliver, { c with usr1 := ⟨none, some m⟩ }, ?_, ?_, ?_, by simp⟩
        · simp [Child.step, halive, hdeliver, hstarting]
        · simp [Child.rank, halive, hhandling, hpending, hstarting]
        · simp [halive]

section Way

variable {s : State}

/-- The next step of the way: no race is lost, and less is left to do. -/
def Nearer (s : State) : Prop :=
  ∃ a v, Orderly s a ∧ step s a = some v ∧ v.frames = [] ∧ v.rank < s.rank

theorem orderly_of_ne {a : Action} (hchild : ∀ k b, a ≠ .child k b)
    (hprint : ∀ num, a ≠ .command (.print (some num))) (hmain : a ≠ .main)
    (husr2 : a ≠ .deliverUsr2) : Orderly s a where
  ends := endsByKill_of_ne hchild
  prints num ha := absurd ha (hprint num)
  arrives ha := absurd ha hmain
  found ha := absurd ha husr2

theorem orderly_main
    (h : ∀ pid ∈ s.pc.killed, ∀ c ∈ s.children, c.pid = pid → c.usr1.pending = none ∨ Doomed c) :
    Orderly s .main where
  ends := endsByKill_of_ne (by simp)
  prints := by simp [PrintsChild]
  arrives _ := h
  found := by simp [SenderFound]

/-- A child that has something to handle is nearer to the end after it. -/
theorem nearer_of_busy {c : Child} (hfree : s.frames = []) (hc : c ∈ s.children)
    (halive : c.terminated = false) (hbusy : c.usr1.pending ≠ none ∨ c.usr1.handling ≠ none) :
    Nearer s := by
  obtain ⟨k, hk⟩ := List.mem_iff_getElem?.mp hc
  obtain ⟨b, c', hstep, hlt, hends, hlives⟩ :=
    Child.attends halive hbusy (decide (s.pc ≠ .ended))
  have henables : s.enables b = true := by
    cases b with
    | main lives =>
        rw [hlives lives rfl]
        simp [State.enables]
    | _ => rfl
  refine ⟨.child k b, { s with children := s.children.set k c', usr2 := s.usr2 }, ?_, ?_, hfree, ?_⟩
  · refine ⟨?_, by simp [PrintsChild], by simp [OrderArrives], by simp [SenderFound]⟩
    intro k' b' d d' told ha hd hstep' hend
    cases ha
    obtain rfl := Option.some.inj (hk.symm.trans hd)
    cases hstep.symm.trans hstep'
    exact hends hend
  · simp [step, henables, State.childStep, hk, hstep]
  · have hsum := tally_set_lt hk hlt
    simp only [State.rank, State.pcRank, State.family, List.length_set]
    omega

/-- A child that has PARENT_KILL and has not ended is nearer to its end after its next step. -/
theorem nearer_of_doomed {c : Child} (hfree : s.frames = []) (hc : c ∈ s.children)
    (halive : c.terminated = false) (hkill : c.usr1.Holds .kill) : Nearer s := by
  apply nearer_of_busy hfree hc halive
  rcases hkill with hpending | hhandling
  · exact .inl (by simp [hpending])
  · exact .inr (by simp [hhandling])

/-- A step of `main` that does not signal a child. -/
theorem nearer_of_main {v : State} (hfree : s.frames = []) (hkilled : s.pc.killed = none)
    (hmain : s.main = some v) (hframes : v.frames = []) (hrank : v.pcRank < s.pcRank)
    (hfamily : v.family ≤ s.family) : Nearer s := by
  refine ⟨.main, v, orderly_main (by simp [hkilled]), ?_, hframes, rank_lt_of_pcRank hrank hfamily⟩
  simp [step, hfree, hmain]

theorem length_posted (pid : ℕ) (m : ParentMsg) :
    (s.posted pid m).length = s.children.length := by
  simp [State.posted]

theorem length_placed (pid : ℕ) (place : Place) :
    (s.placed pid place).length = s.children.length := by
  simp [State.placed]

theorem nearer_menu (h : Steady s) (hfree : s.frames = []) (hpc : s.pc = .menu) : Nearer s := by
  have hexit := h.exit_eq (by rw [hpc]; rfl)
  refine ⟨.command .quit, s.exit, orderly_of_ne (by simp) (by simp) (by simp) (by simp), ?_,
    frames_exit, ?_⟩
  · simp [step, hpc, hfree, State.command]
  · rw [hexit]
    apply rank_lt_of_pcRank
    · simp [State.pcRank, hpc]
    · simp [State.family]

/-- `fork` has a pid to give. -/
theorem exists_fresh (children : List Child) :
    ∃ pid, pid ≠ 0 ∧ ∀ c ∈ children, c.pid ≠ pid := by
  obtain ⟨pid, hpid⟩ := Infinite.exists_notMem_finset (insert 0 (children.map Child.pid).toFinset)
  refine ⟨pid, fun hzero => hpid (by simp [hzero]), fun c hc heq => hpid ?_⟩
  simp only [Finset.mem_insert, List.mem_toFinset, List.mem_map]
  exact .inr ⟨c, hc, heq⟩

theorem nearer_fork (hfree : s.frames = []) (hpc : s.pc = .fork) : Nearer s := by
  obtain ⟨pid, hzero, hfresh⟩ := exists_fresh s.children
  refine ⟨.fork (some pid),
    { s with
      children := s.children ++ [Child.forked pid s.created]
      created := s.created + 1
      pc := .enterPid pid },
    orderly_of_ne (by simp) (by simp) (by simp) (by simp), ?_, hfree, ?_⟩
  · have hall : s.children.all (·.pid ≠ pid) = true := by simpa using hfresh
    simp only [step, hpc, hfree, ne_eq, hzero, not_false_eq_true, true_and, hall, if_true]
  · apply rank_lt_of_pcRank
    · simp [State.pcRank, hpc]
    · simp [State.family, hpc]

/-- The child that is to be killed first handles what is pending for it. -/
theorem nearer_sendKill (h : Steady s) (hfree : s.frames = []) {all : Bool} {pid : ℕ}
    (hpc : s.pc = .sendKill all pid) : Nearer s := by
  by_cases hroom : ∀ c ∈ s.children, c.pid = pid → c.usr1.pending = none ∨ Doomed c
  · refine ⟨.main, { s with children := s.posted pid .kill, pc := .callWait all pid },
      orderly_main ?_, ?_, hfree, ?_⟩
    · intro target htarget
      rw [hpc] at htarget
      obtain rfl := Option.some.inj htarget
      exact hroom
    · simp [step, hfree, State.main, hpc, sendSignal_isSome (h.orders hpc)]
    · apply rank_lt_of_pcRank
      · simp only [State.pcRank, hpc]
        omega
      · simp [State.family, length_posted]
  · simp only [not_forall, not_or] at hroom
    obtain ⟨c, hc, _, hpending, hdoomed⟩ := hroom
    refine nearer_of_busy hfree hc ?_ (.inl hpending)
    exact Bool.eq_false_iff.mpr fun hterm => hdoomed (.inl hterm)

/-- `wait` has a child to reap, or one that has PARENT_KILL. -/
theorem nearer_waiting (h : Steady s) (hfree : s.frames = []) {all : Bool} {pid : ℕ}
    (hpc : s.pc = .waiting all pid) : Nearer s := by
  have hreap : ∀ c ∈ s.children, c.terminated = true → Nearer s := by
    intro c hc hterm
    obtain ⟨k, hk⟩ := List.mem_iff_getElem?.mp hc
    refine ⟨.reap k, { s with children := s.children.eraseIdx k, pc := afterKill all },
      orderly_of_ne (by simp) (by simp) (by simp) (by simp), ?_, hfree, ?_⟩
    · simp [step, hk, hpc, hfree, hterm]
    · have hfamily : (s.children.eraseIdx k).length ≤ s.children.length :=
        List.length_eraseIdx_le _ _
      cases all with
      | true =>
          apply rank_lt_of_pcRank
          · simp only [State.pcRank, hpc, afterKill, if_true]
            omega
          · simpa [State.family, afterKill, hpc] using hfamily
      | false =>
          have hexiting := h.not_exiting (by rw [hpc]; rfl)
          apply rank_lt_of_pcRank
          · simp [State.pcRank, hpc, afterKill, hexiting]
          · simpa [State.family, afterKill, hpc] using hfamily
  rcases h.ordered pid (by rw [hpc]; rfl) with ⟨c, hc, _, hkill⟩ | ⟨c, hc, hterm⟩
  · cases hterm : c.terminated with
    | true => exact hreap c hc hterm
    | false => exact nearer_of_doomed hfree hc hterm hkill
  · exact hreap c hc hterm

theorem nearer_killAll (hfree : s.frames = []) (hpc : s.pc = .killAll) : Nearer s := by
  by_cases hsome : 0 < s.amount
  · apply nearer_of_main (v := { s with pc := .decrement true }) hfree (by rw [hpc]; rfl)
    · simp [State.main, hpc, hsome]
    · exact hfree
    · simp [State.pcRank, hpc]
    · simp [State.family]
  · apply nearer_of_main (v := { s with pc := if s.exiting then .ended else .menu }) hfree
      (by rw [hpc]; rfl)
    · simp [State.main, hpc, hsome]
    · exact hfree
    · cases hexiting : s.exiting <;> simp [State.pcRank, hpc, hexiting]
    · cases s.exiting <;> simp [State.family]

theorem nearer_decrement (h : Steady s) (hfree : s.frames = []) {all : Bool}
    (hpc : s.pc = .decrement all) : Nearer s := by
  obtain ⟨before, hsound⟩ := h.sound
  have hrange := hsound.range
  rw [hpc] at hrange
  refine nearer_of_main (v := { s with
      amount := s.amount - 1
      children := s.placed (s.childArray (s.amount - 1)).pid .removed
      pc := .sendKill all (s.childArray (s.amount - 1)).pid }) hfree
    (by rw [hpc]; rfl) ?_ hfree ?_ ?_
  · simp [State.main, hpc]
  · have hpos := hrange.1
    simp only [State.pcRank, hpc]
    omega
  · simp [State.family, length_placed]

theorem nearer_stopAll (hfree : s.frames = []) {i : ℕ} {print : Option ℕ}
    (hpc : s.pc = .stopAll i print) : Nearer s := by
  by_cases hmore : i < s.amount
  · apply nearer_of_main (v := { s.setAllowed i false with pc := .stopAll (i + 1) print }) hfree
      (by rw [hpc]; rfl)
    · simp [State.main, hpc, hmore]
    · exact hfree
    · simp only [State.pcRank, hpc, amount_setAllowed]
      omega
    · simp [State.family]
  · cases print with
    | none =>
        apply nearer_of_main (v := { s with pc := .menu }) hfree (by rw [hpc]; rfl)
        · simp [State.main, hpc, hmore]
        · exact hfree
        · simp only [State.pcRank, hpc]
          omega
        · simp [State.family]
    | some num =>
        apply nearer_of_main (v := { s with pc := .printStat num }) hfree (by rw [hpc]; rfl)
        · simp [State.main, hpc, hmore]
        · exact hfree
        · simp only [State.pcRank, hpc]
          omega
        · simp [State.family]

theorem nearer_resumeAll (hfree : s.frames = []) {i : ℕ} (hpc : s.pc = .resumeAll i) :
    Nearer s := by
  by_cases hmore : i < s.amount
  · apply nearer_of_main (v := { s.setAllowed i true with pc := .resumeAll (i + 1) }) hfree
      (by rw [hpc]; rfl)
    · simp [State.main, hpc, hmore]
    · exact hfree
    · simp only [State.pcRank, hpc, amount_setAllowed]
      omega
    · simp [State.family]
  · apply nearer_of_main (v := { s with pc := .menu }) hfree (by rw [hpc]; rfl)
    · simp [State.main, hpc, hmore]
    · exact hfree
    · simp only [State.pcRank, hpc]
      omega
    · simp [State.family]

/-- The child that is to print stands in the table. -/
theorem nearer_printStat (h : Steady s) (hfree : s.frames = []) {num : ℕ}
    (hpc : s.pc = .printStat num) : Nearer s := by
  obtain ⟨before, hsound⟩ := h.sound
  have hrange := hsound.range
  rw [hpc] at hrange
  have hbounded : s.amount + 0 ≤ maxChild - 1 := by
    have hroom := h.bounded
    rw [State.Bounded, hpc] at hroom
    exact hroom
  have hinside : num < maxChild := by
    have hnum := hrange.1
    omega
  obtain ⟨c, hc, hpid, _⟩ := hsound.stands.entries num hrange.1
  have hchild : ∃ c ∈ s.children, c.pid = (s.childArray num).pid := ⟨c, hc, hpid⟩
  refine nearer_of_main (v := { s with
      children := s.posted (s.childArray num).pid .forcePrint
      pc := .setAlarm }) hfree (by rw [hpc]; rfl) ?_ hfree ?_ ?_
  · simp [State.main, hpc, hinside, sendSignal_isSome hchild]
  · simp [State.pcRank, hpc]
  · simp [State.family, length_posted]

/-- The parent has ended, and so has every process that it has forked. -/
def State.Over (s : State) : Prop := s.pc = .ended ∧ ∀ c ∈ s.children, c.terminated = true

theorem Steady.nearer (h : Steady s) (hfree : s.frames = []) (hover : ¬ s.Over) : Nearer s := by
  cases hpc : s.pc with
  | menu => exact nearer_menu h hfree hpc
  | fork => exact nearer_fork hfree hpc
  | enterPid pid =>
      refine nearer_of_main (v := { s with
          childArray :=
            Function.update s.childArray s.amount { s.childArray s.amount with pid := pid }
          pc := .enterAllowed pid }) hfree (by rw [hpc]; rfl) ?_ hfree ?_ ?_
      · simp [State.main, hpc]
      · simp [State.pcRank, hpc]
      · simp [State.family]
  | enterAllowed pid =>
      refine nearer_of_main (v := { s.setAllowed s.amount true with pc := .count pid }) hfree
        (by rw [hpc]; rfl) ?_ hfree ?_ ?_
      · simp [State.main, hpc]
      · simp [State.pcRank, hpc]
      · simp [State.family]
  | count pid =>
      refine nearer_of_main (v := { s with
          amount := s.amount + 1
          children := s.placed pid .listed
          pc := .menu }) hfree (by rw [hpc]; rfl) ?_ hfree ?_ ?_
      · simp [State.main, hpc]
      · simp only [State.pcRank, hpc]
        omega
      · simp [State.family, length_placed]
  | killAll => exact nearer_killAll hfree hpc
  | decrement all => exact nearer_decrement h hfree hpc
  | sendKill all pid => exact nearer_sendKill h hfree hpc
  | callWait all pid =>
      refine nearer_of_main (v := { s with pc := .waiting all pid }) hfree (by rw [hpc]; rfl) ?_
        hfree ?_ ?_
      · simp [State.main, hpc]
      · simp [State.pcRank, hpc]
      · simp [State.family]
  | waiting all pid => exact nearer_waiting h hfree hpc
  | stopAll i print => exact nearer_stopAll hfree hpc
  | resumeAll i => exact nearer_resumeAll hfree hpc
  | printStat num => exact nearer_printStat h hfree hpc
  | setAlarm =>
      refine nearer_of_main (v := { s with timer := true, pc := .menu }) hfree (by rw [hpc]; rfl) ?_
        hfree ?_ ?_
      · simp [State.main, hpc]
      · simp [State.pcRank, hpc]
      · simp [State.family]
  | ended =>
      obtain ⟨c, hc, halive⟩ : ∃ c ∈ s.children, c.terminated = false := by
        by_contra hnone
        refine hover ⟨hpc, fun c hc => ?_⟩
        cases hterm : c.terminated with
        | true => rfl
        | false => exact absurd ⟨c, hc, hterm⟩ hnone
      have hdoomed := h.doomed hpc hc
      exact nearer_of_doomed hfree hc halive (hdoomed.resolve_left (by simp [halive]))

/-- The handlers that run come to their ends. -/
theorem Steady.returns (h : Steady s) :
    ∃ t, Reaches Lab3.step Orderly s t ∧ Steady t ∧ t.frames = [] := by
  apply Reaches.exists_final (I := Steady) (fun u => tally (Frame.rank u.amount) u.frames) ?_ h
  intro u hu hbusy
  obtain ⟨f, frames, hframes⟩ := List.exists_cons_of_ne_nil hbusy
  obtain ⟨v, hv, hhandled⟩ := hu.handled hframes
  have horder : Orderly u .handler := orderly_of_ne (by simp) (by simp) (by simp) (by simp)
  refine ⟨.handler, v, horder, hv, hu.step horder hv, ?_⟩
  rw [hhandled.amount, hframes, tally_cons]
  rcases hhandled.frames with hpop | ⟨g, hgo, _, hlt⟩
  · have hpos : 0 < f.rank u.amount := by cases f <;> simp [Frame.rank]
    rw [hpop]
    omega
  · rw [hgo, tally_cons]
    omega

theorem Steady.quits (h : Steady s) : ∃ t, Reaches Lab3.step Orderly s t ∧ t.Over := by
  obtain ⟨u, hu, hsteady, hfree⟩ := h.returns
  obtain ⟨t, ht, _, hover⟩ :
      ∃ t, Reaches Lab3.step Orderly u t ∧ (Steady t ∧ t.frames = []) ∧ t.Over := by
    apply Reaches.exists_final (I := fun v => Steady v ∧ v.frames = []) State.rank ?_
      ⟨hsteady, hfree⟩
    intro v hv hover
    obtain ⟨a, w, horder, hstep, hframes, hlt⟩ := hv.1.nearer hv.2 hover
    exact ⟨a, w, horder, hstep, ⟨hv.1.step horder hstep, hframes⟩, hlt⟩
  exact ⟨t, hu.trans ht, hover⟩

end Way

/-- Wherever a run in which no race is lost has come to, it can go on in such a way that the parent
ends and every process that it has forked has ended. -/
theorem quit_stays_possible (s : State) (h : Reaches step Orderly init s) :
    ∃ t, Reaches step Orderly s t ∧ t.Over :=
  (steady_of_reaches h).quits

theorem quit_stays_possible_question :
    ∃ s t, Reaches step Orderly init s ∧ s.usr2 = ⟨some (7, .ask ⟨0, 0⟩), none⟩ ∧
      Reaches step Orderly s t ∧ t.Over := by
  have hrun : (exec (fun u a => if Orderly u a then step u a else none) init
      firstQuestion).map State.usr2 = some ⟨some (7, .ask ⟨0, 0⟩), none⟩ := by decide +kernel
  obtain ⟨s, hexec, hasked⟩ := Option.map_eq_some_iff.mp hrun
  have hreach := reaches_of_guarded hexec
  obtain ⟨t, ht, hover⟩ := quit_stays_possible s hreach
  exact ⟨s, t, hreach, hasked, ht, hover⟩

end OsaspLabs.Lab3
