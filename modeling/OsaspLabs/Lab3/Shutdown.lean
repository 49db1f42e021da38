import Mathlib.Tactic.Linarith
import OsaspLabs.Lab3.Kill
import OsaspLabs.Lab3.Targets

/-! # The end of LAB_3

`q` runs `kill_all`, which sends PARENT_KILL to the children of the table, one after the other.
Nothing else ends them: a child that the table has lost stays behind. -/

namespace OsaspLabs.Lab3

open Runs

/-- The child has ended, or it has PARENT_KILL. -/
def Doomed (c : Child) : Prop := c.terminated = true ∨ c.usr1.Holds .kill

instance (c : Child) : Decidable (Doomed c) :=
  inferInstanceAs (Decidable (c.terminated = true ∨ c.usr1.Holds .kill))

/-- PARENT_KILL finds no other SIGUSR1 pending for its child. -/
def OrderArrives (s : State) (a : Action) : Prop :=
  a = .main → ∀ pid ∈ s.pc.killed, ∀ c ∈ s.children, c.pid = pid →
    c.usr1.pending = none ∨ Doomed c

/-- The handler of SIGUSR2 finds the sender in the table. -/
def SenderFound (s : State) (a : Action) : Prop :=
  a = .deliverUsr2 → ∀ x ∈ s.usr2.deliver, (s.getIndexByPid x.1.1).isSome = true

/-- None of the races between the parent and its children is lost. -/
structure Orderly (s : State) (a : Action) : Prop where
  ends : EndsByKill s a
  prints : PrintsChild s a
  arrives : OrderArrives s a
  found : SenderFound s a

/-! ## Orderly steps are decided -/

section Decide

variable {s : State} {a : Action}

theorem orderly_iff :
    Orderly s a ↔ (∀ c ∈ s.ending a, c.usr1.Holds .kill) ∧ (∀ num ∈ a.printed, num < s.amount) ∧
      (a = .main → ∀ pid ∈ s.pc.killed, ∀ c ∈ s.children, c.pid = pid →
        c.usr1.pending = none ∨ Doomed c) ∧
      (a = .deliverUsr2 → ∀ x ∈ s.usr2.deliver, (s.getIndexByPid x.1.1).isSome = true) := by
  rw [← endsByKill_iff, ← printsChild_iff]
  constructor
  · exact fun ⟨hends, hprints, harrives, hfound⟩ => ⟨hends, hprints, harrives, hfound⟩
  · exact fun ⟨hends, hprints, harrives, hfound⟩ => ⟨hends, hprints, harrives, hfound⟩

instance (s : State) (a : Action) : Decidable (Orderly s a) := decidable_of_iff' _ orderly_iff

end Decide

/-- `kill_all` called by `exit`, and what comes after it. -/
def Pc.winding : Pc → Bool
  | .killAll | .decrement true | .sendKill true _ | .callWait true _ | .waiting true _ | .ended =>
      true
  | _ => false

/-- `create_child` between its test of `amount` and `++amount`. -/
def Pc.creating : Pc → Bool
  | .fork | .enterPid _ | .enterAllowed _ | .count _ => true
  | _ => false

/-- The entry that `child_handler` answers. -/
def Frame.index : Frame → Option ℕ
  | .answer i _ | .respond i _ => some i
  | .informed | .resumeAll _ => none

/-- A child that does not stand in the table is being entered, or it has PARENT_KILL or is about to
get it. -/
structure Accounted (s : State) : Prop where
  entering : ∀ c ∈ s.children, c.place = .entering → c.pid ∈ s.pc.entering
  removed : ∀ c ∈ s.children, c.place = .removed → Doomed c ∨ c.pid ∈ s.pc.killed

/-- There is room in `child_array` for the child that is being created. -/
def State.Bounded (s : State) : Prop :=
  s.amount + (if s.pc.creating then 1 else 0) ≤ maxChild - 1

/-- What every step keeps as long as no race is lost. -/
structure Steady (s : State) : Prop where
  sound : ∃ before, Sound s before
  ordered : Ordered s
  accounted : Accounted s
  winding : s.exiting = true → s.pc.winding = true
  ended : s.pc = .ended → s.amount = 0
  bounded : s.Bounded
  frames : ∀ f ∈ s.frames, ∀ i ∈ f.index, i < s.amount

/-! ## The children -/

/-- The later children are earlier ones at their places, and PARENT_KILL is not taken from them. -/
def Attended (children children' : List Child) : Prop :=
  ∀ c' ∈ children', ∃ c ∈ children, c'.pid = c.pid ∧ c'.place = c.place ∧ (Doomed c → Doomed c')

theorem Attended.refl (children : List Child) : Attended children children :=
  fun c hc => ⟨c, hc, rfl, rfl, id⟩

theorem Doomed.post {c : Child} (h : Doomed c) (m : ParentMsg) : Doomed (c.post m) := by
  by_cases hterm : c.terminated = true
  · exact .inl (by rw [Child.terminated_post, hterm])
  · refine .inr ?_
    rw [Child.post, if_neg hterm]
    exact (h.resolve_left hterm).post m

theorem Attended.posted (s : State) (pid : ℕ) (m : ParentMsg) :
    Attended s.children (s.posted pid m) := by
  intro c' hc'
  obtain ⟨c, hc, rfl⟩ := List.mem_map.mp hc'
  refine ⟨c, hc, ?_⟩
  split
  · exact ⟨c.pid_post m, c.place_post m, fun h => h.post m⟩
  · exact ⟨rfl, rfl, id⟩

theorem Attended.set {children : List Child} {k : ℕ} {c c' : Child} {a : ChildAction}
    {told : Option ChildMsg} (hc : children[k]? = some c) (hstep : c.step a = some (c', told)) :
    Attended children (children.set k c') := by
  intro d hd
  rcases List.mem_or_eq_of_mem_set hd with hd | rfl
  · exact ⟨d, hd, rfl, rfl, id⟩
  · obtain ⟨hpid, hplace⟩ := Child.step_fixed hstep
    refine ⟨c, List.mem_of_getElem? hc, hpid, hplace, fun h => ?_⟩
    have halive := (Child.steps_of_step hstep).1
    have hkill : c.usr1.Holds .kill := h.resolve_left (by simp [halive])
    exact (Child.holds_step hstep hkill).symm

/-- PARENT_KILL arrives at every child of its pid. -/
theorem doomed_posted {s : State} {pid : ℕ}
    (harrives : ∀ c ∈ s.children, c.pid = pid → c.usr1.pending = none ∨ Doomed c) :
    ∀ c ∈ s.posted pid .kill, c.pid = pid → Doomed c := by
  intro c' hc' hpid
  obtain ⟨c, hc, rfl⟩ := List.mem_map.mp hc'
  by_cases hsame : c.pid = pid
  · rw [if_pos hsame]
    by_cases hterm : c.terminated = true
    · exact .inl (by rw [Child.terminated_post, hterm])
    · refine .inr ?_
      rw [Child.post, if_neg hterm, Signal.holds_post_iff]
      rcases harrives c hc hsame with hroom | hdoomed
      · exact .inl hroom
      · exact .inr (hdoomed.resolve_left hterm)
  · rw [if_neg hsame] at hpid
    exact absurd hpid hsame

/-! ## The steps of the parent -/

section Steps

variable {s s' : State} {a : Action}

/-- The child of the entry that is answered can be signalled. -/
theorem Steady.answers (h : Steady s) {f : Frame} {i : ℕ} (hf : f ∈ s.frames) (hi : i ∈ f.index) :
    ∃ c ∈ s.children, c.pid = (s.childArray i).pid := by
  obtain ⟨before, hsound⟩ := h.sound
  obtain ⟨c, hc, hpid, _⟩ := hsound.stands.entries i (h.frames f hf i hi)
  exact ⟨c, hc, hpid⟩

theorem Steady.orders (h : Steady s) {all : Bool} {pid : ℕ} (hpc : s.pc = .sendKill all pid) :
    ∃ c ∈ s.children, c.pid = pid := by
  obtain ⟨before, hsound⟩ := h.sound
  obtain ⟨⟨c, hc, hpid, _⟩, _⟩ := hsound.stands.sending all pid hpc
  exact ⟨c, hc, hpid⟩

/-- `kill_last_child` finds the process that it signals. -/
theorem Steady.main_ne_exit (h : Steady s) {all : Bool} {pid : ℕ} (hpc : s.pc = .sendKill all pid) :
    s.main ≠ some s.exit := by
  intro hmain
  simp only [State.main, hpc, sendSignal_isSome (h.orders hpc), Option.some.injEq] at hmain
  have hidle := idle_exit (s := s)
  rw [← hmain] at hidle
  cases hidle

/-- How much a handler has still to do. -/
def Frame.rank (amount : ℕ) : Frame → ℕ
  | .answer _ _ => 2
  | .respond _ _ | .informed => 1
  | .resumeAll i => amount - i + 1

/-- What a step of a handler leaves, when it finds the process that it signals. -/
structure State.Handled (s : State) (f : Frame) (frames : List Frame) (s' : State) : Prop where
  amount : s'.amount = s.amount
  exiting : s'.exiting = s.exiting
  pc : s'.pc = s.pc ∨ s'.pc = s.pc.interrupted
  children : s'.children = s.children ∨ ∃ pid m, s'.children = s.posted pid m
  frames : s'.frames = frames ∨
    ∃ g, s'.frames = g :: frames ∧ g.index = f.index ∧ g.rank s.amount < f.rank s.amount

theorem pc_returnChild {t : State} {frames : List Frame} :
    (t.returnChild frames).pc = t.pc ∨ (t.returnChild frames).pc = t.pc.interrupted := by
  dsimp only [State.returnChild]
  split
  · exact .inr rfl
  · exact .inl rfl

theorem Steady.handled (h : Steady s) {f : Frame} {frames : List Frame}
    (hframes : s.frames = f :: frames) :
    ∃ s', s.handler = some s' ∧ s.Handled f frames s' := by
  have hmem : f ∈ s.frames := by
    rw [hframes]
    exact List.mem_cons_self
  cases f with
  | answer i cycle =>
      by_cases hallowed : (s.childArray i).printAllowed = true
      · refine ⟨{ s with frames := .respond i cycle :: frames }, ?_, rfl, rfl, .inl rfl, .inl rfl,
          .inr ⟨.respond i cycle, rfl, rfl, Nat.lt_succ_self 1⟩⟩
        simp [State.handler, hframes, hallowed]
      · refine ⟨s.returnChild frames, ?_, rfl, rfl, pc_returnChild, .inl rfl, .inl rfl⟩
        simp [State.handler, hframes, hallowed]
  | respond i cycle =>
      have hchild := h.answers hmem (i := i) rfl
      let answered := { s with children := s.posted (s.childArray i).pid (.response cycle) }
      refine ⟨answered.returnChild frames, ?_, rfl, rfl, pc_returnChild (t := answered),
        .inr ⟨_, _, rfl⟩, .inl rfl⟩
      simp only [State.handler, hframes, sendSignal_isSome hchild, answered]
  | informed =>
      refine ⟨s.returnChild frames, ?_, rfl, rfl, pc_returnChild, .inl rfl, .inl rfl⟩
      simp [State.handler, hframes]
  | resumeAll i =>
      by_cases hmore : i < s.amount
      · refine ⟨{ s.setAllowed i true with frames := .resumeAll (i + 1) :: frames }, ?_, rfl, rfl,
          .inl rfl, .inl rfl, .inr ⟨.resumeAll (i + 1), rfl, rfl, ?_⟩⟩
        · simp [State.handler, hframes, hmore]
        · dsimp only [Frame.rank]
          omega
      · refine ⟨{ s with alarm := s.alarm.finish, frames := frames }, ?_, rfl, rfl, .inl rfl,
          .inl rfl, .inl rfl⟩
        simp [State.handler, hframes, hmore]

/-- The same of a step of a handler that is taken. -/
theorem Steady.handled_of_handler (h : Steady s) (hstep : s.handler = some s') :
    ∃ f frames, s.frames = f :: frames ∧ s.Handled f frames s' := by
  cases hframes : s.frames with
  | nil => simp [State.handler, hframes] at hstep
  | cons f frames =>
      obtain ⟨t, ht, hhandled⟩ := h.handled hframes
      rw [Option.some.inj (hstep.symm.trans ht)]
      exact ⟨f, frames, rfl, hhandled⟩

/-- The children are as they were, but for messages, and so is what the parent is about to do. -/
theorem Accounted.kept (h : Accounted s) (hchildren : Attended s.children s'.children)
    (hentering : ∀ pid ∈ s.pc.entering, pid ∈ s'.pc.entering)
    (hkilled : ∀ pid ∈ s.pc.killed, pid ∈ s'.pc.killed) : Accounted s' where
  entering c' hc' hplace := by
    obtain ⟨c, hc, hpid, hplace', _⟩ := hchildren c' hc'
    rw [hpid]
    exact hentering _ (h.entering c hc (hplace' ▸ hplace))
  removed c' hc' hplace := by
    obtain ⟨c, hc, hpid, hplace', hdoomed⟩ := hchildren c' hc'
    rcases h.removed c hc (hplace' ▸ hplace) with hold | hkill
    · exact .inl (hdoomed hold)
    · rw [hpid]
      exact .inr (hkilled _ hkill)

/-- The parent is neither entering a child nor about to send PARENT_KILL. -/
theorem Accounted.of_free (h : Accounted s) (hchildren : Attended s.children s'.children)
    (hentering : s.pc.entering = none) (hkilled : s.pc.killed = none) : Accounted s' := by
  apply h.kept hchildren
  · simp [hentering]
  · simp [hkilled]

theorem attended_of_eq (h : s'.children = s.children) : Attended s.children s'.children := by
  rw [h]
  exact .refl _

theorem accounted_main (h : Steady s) (harrives : OrderArrives s .main)
    (hmain : s.main = some s') : Accounted s' := by
  have hacc := h.accounted
  cases mainSteps_of_main hmain with
  | enterPid pid hpc =>
      refine hacc.kept (attended_of_eq rfl) ?_ ?_
      · simp [hpc, Pc.entering]
      · simp [hpc, Pc.killed]
  | enterAllowed pid hpc =>
      refine hacc.kept (attended_of_eq rfl) ?_ ?_
      · simp [hpc, Pc.entering]
      · simp [hpc, Pc.killed]
  | count pid hpc =>
      refine ⟨fun c' hc' hplace => ?_, fun c' hc' hplace => ?_⟩
      · obtain ⟨c, hc, rfl⟩ := List.mem_map.mp hc'
        by_cases hsame : c.pid = pid
        · rw [if_pos hsame] at hplace
          cases hplace
        · rw [if_neg hsame] at hplace
          have hpid := hacc.entering c hc hplace
          rw [hpc] at hpid
          exact absurd (Option.some.inj hpid).symm hsame
      · obtain ⟨c, hc, rfl⟩ := List.mem_map.mp hc'
        by_cases hsame : c.pid = pid
        · rw [if_pos hsame] at hplace
          cases hplace
        · rw [if_neg hsame] at hplace ⊢
          rcases hacc.removed c hc hplace with hdoomed | hkill
          · exact .inl hdoomed
          · simp [hpc, Pc.killed] at hkill
  | decrement all hpc =>
      refine ⟨fun c' hc' hplace => ?_, fun c' hc' hplace => ?_⟩
      · obtain ⟨c, hc, rfl⟩ := List.mem_map.mp hc'
        by_cases hsame : c.pid = (s.childArray (s.amount - 1)).pid
        · rw [if_pos hsame] at hplace
          cases hplace
        · rw [if_neg hsame] at hplace
          have hpid := hacc.entering c hc hplace
          simp [hpc, Pc.entering] at hpid
      · obtain ⟨c, hc, rfl⟩ := List.mem_map.mp hc'
        by_cases hsame : c.pid = (s.childArray (s.amount - 1)).pid
        · rw [if_pos hsame]
          exact .inr (congrArg some hsame.symm)
        · rw [if_neg hsame] at hplace ⊢
          rcases hacc.removed c hc hplace with hdoomed | hkill
          · exact .inl hdoomed
          · simp [hpc, Pc.killed] at hkill
  | orderFails all pid hpc => exact absurd hmain (h.main_ne_exit hpc)
  | order all pid hpc =>
      have hdoomed := doomed_posted (harrives rfl pid (by rw [hpc]; rfl))
      refine ⟨fun c' hc' hplace => ?_, fun c' hc' hplace => ?_⟩
      · obtain ⟨c, hc, _, hplace', _⟩ := Attended.posted s pid .kill c' hc'
        have hpid := hacc.entering c hc (hplace' ▸ hplace)
        simp [hpc, Pc.entering] at hpid
      · obtain ⟨c, hc, hpid, hplace', hkept⟩ := Attended.posted s pid .kill c' hc'
        rcases hacc.removed c hc (hplace' ▸ hplace) with hold | hkill
        · exact .inl (hkept hold)
        · rw [hpc] at hkill
          exact .inl (hdoomed c' hc' (hpid.trans (Option.some.inj hkill).symm))
  | printFails num hpc =>
      exact hacc.of_free (attended_of_eq children_exit) (by rw [hpc]; rfl) (by rw [hpc]; rfl)
  | print num hpc =>
      exact hacc.of_free (.posted s _ _) (by rw [hpc]; rfl) (by rw [hpc]; rfl)
  | killNext hpc | killed hpc | callWait _ _ hpc | stop _ _ hpc | stopped _ hpc | frozen _ _ hpc
  | resume _ hpc | resumed _ hpc | setAlarm hpc =>
      exact hacc.of_free (attended_of_eq rfl) (by rw [hpc]; rfl) (by rw [hpc]; rfl)

theorem killed_interrupted (pc : Pc) (pid : ℕ) (h : pid ∈ pc.killed) :
    pid ∈ pc.interrupted.killed := by
  cases pc <;> first | exact h | cases h

theorem entering_interrupted (pc : Pc) (pid : ℕ) (h : pid ∈ pc.entering) :
    pid ∈ pc.interrupted.entering := by
  cases pc <;> first | exact h | cases h

/-- `get_index_by_pid` does not fail. -/
theorem SenderFound.found (h : SenderFound s .deliverUsr2) {pid : ℕ} {m : ChildMsg}
    {usr2 : Signal (ℕ × ChildMsg)} (hdel : s.usr2.deliver = some ((pid, m), usr2)) :
    s.getIndexByPid pid ≠ none := by
  have hsome := h rfl _ hdel
  intro hnone
  rw [hnone] at hsome
  cases hsome

theorem Accounted.step (h : Steady s) (horder : Orderly s a) (hstep : step s a = some s') :
    Accounted s' := by
  have hacc := h.accounted
  cases steps_of_step hstep with
  | command c hmenu =>
      refine hacc.of_free (attended_of_eq (command_kept c hmenu).2.1) ?_ ?_
      · rw [hmenu]; rfl
      · rw [hmenu]; rfl
  | forkFails hfork =>
      exact hacc.of_free (attended_of_eq children_exit) (by rw [hfork]; rfl) (by rw [hfork]; rfl)
  | forked pid hfork =>
      refine ⟨fun c hc hplace => ?_, fun c hc hplace => ?_⟩
      · rcases List.mem_append.mp hc with hc | hc
        · have hpid := hacc.entering c hc hplace
          simp [hfork, Pc.entering] at hpid
        · rw [List.mem_singleton.mp hc]
          rfl
      · rcases List.mem_append.mp hc with hc | hc
        · rcases hacc.removed c hc hplace with hdoomed | hkill
          · exact .inl hdoomed
          · simp [hfork, Pc.killed] at hkill
        · rw [List.mem_singleton.mp hc] at hplace
          cases hplace
  | main _ _ hmain => exact accounted_main h horder.arrives hmain
  | reap k c all pid _ hwait =>
      refine hacc.of_free (fun d hd => ?_) (by rw [hwait]; rfl) (by rw [hwait]; rfl)
      exact ⟨d, List.mem_of_mem_eraseIdx hd, rfl, rfl, id⟩
  | noChild all pid hwait =>
      exact hacc.of_free (attended_of_eq rfl) (by rw [hwait]; rfl) (by rw [hwait]; rfl)
  | expire | deliverAlarm | found =>
      exact hacc.kept (attended_of_eq rfl) (fun _ => id) (fun _ => id)
  | unknown pid m usr2 _ hdel hindex => exact absurd hindex (horder.found.found hdel)
  | handler _ hhandler =>
      obtain ⟨f, frames, _, hhandled⟩ := h.handled_of_handler hhandler
      have hchildren : Attended s.children s'.children := by
        rcases hhandled.children with heq | ⟨pid, m, heq⟩
        · exact attended_of_eq heq
        · rw [heq]
          exact .posted s pid m
      rcases hhandled.pc with hpc | hpc
      · apply hacc.kept hchildren
        · simp [hpc]
        · simp [hpc]
      · apply hacc.kept hchildren
        · rw [hpc]
          exact entering_interrupted s.pc
        · rw [hpc]
          exact killed_interrupted s.pc
  | child k b c c' told usr2 hc hcstep =>
      exact hacc.kept (.set hc hcstep) (fun _ => id) (fun _ => id)

theorem winding_exit : s.exit.pc.winding = true := by
  unfold State.exit
  split <;> rfl

theorem winding_afterKill {all : Bool} {pid : ℕ} (h : (Pc.waiting all pid).winding = true) :
    (afterKill all).winding = true := by
  cases all with
  | true => rfl
  | false => cases h

theorem winding_interrupted {pc : Pc} (h : pc.winding = true) : pc.interrupted.winding = true := by
  cases pc with
  | waiting all pid => exact winding_afterKill h
  | _ => exact h

theorem ended_of_interrupted {pc : Pc} (h : pc.interrupted = .ended) : pc = .ended := by
  cases pc with
  | waiting all pid => cases all <;> cases h
  | _ => exact h

/-- A command leaves `exit` as the only way into the end. -/
theorem winding_command {c : Command} (hexiting : s.exiting = false) :
    ((s.command c).exiting = true → (s.command c).pc.winding = true) ∧
      ((s.command c).pc = .ended → s.pc = .ended) := by
  have hexit : s.exit.pc.winding = true ∧ (s.exit.pc = .ended → s.pc = .ended) := by
    refine ⟨winding_exit, fun hpc => ?_⟩
    simp [State.exit, hexiting] at hpc
  cases c with
  | create | killLast =>
      simp only [State.command]
      split
      · exact ⟨fun _ => hexit.1, hexit.2⟩
      · simp [hexiting]
  | killAll => simp [State.command, hexiting]
  | stop num | resume num =>
      cases num with
      | none => simp [State.command, hexiting]
      | some num =>
          simp only [State.command]
          split
          · simp [State.setAllowed, hexiting]
          · simp [hexiting]
  | print num =>
      cases num with
      | none => exact ⟨fun _ => hexit.1, hexit.2⟩
      | some num => simp [State.command, hexiting]
  | quit => exact ⟨fun _ => hexit.1, hexit.2⟩

/-- At these places `exit` has not been called. -/
theorem Steady.not_exiting (h : Steady s) (hpc : s.pc.winding = false) : s.exiting = false := by
  cases hexiting : s.exiting with
  | false => rfl
  | true =>
      rw [h.winding hexiting] at hpc
      cases hpc

/-- The first `exit` goes on to `kill_all`. -/
theorem Steady.exit_eq (h : Steady s) (hpc : s.pc.winding = false) :
    s.exit = { s with pc := .killAll, exiting := true, frames := [] } := by
  simp [State.exit, h.not_exiting hpc]

theorem winding_main (h : Steady s) (hmain : s.main = some s') :
    (s'.exiting = true → s'.pc.winding = true) ∧ (s'.pc = .ended → s'.amount = 0) := by
  have hwinding := h.winding
  cases mainSteps_of_main hmain with
  | killed hpc hnone => cases hexiting : s.exiting <;> simp [hnone, Pc.winding]
  | orderFails all pid hpc => exact absurd hmain (h.main_ne_exit hpc)
  | printFails num hpc =>
      refine ⟨fun _ => winding_exit, fun hend => ?_⟩
      rw [h.exit_eq (by rw [hpc]; rfl)] at hend
      cases hend
  | decrement all hpc | order all pid hpc | callWait all pid hpc =>
      refine ⟨fun hexiting => ?_, by simp⟩
      have hall := hwinding hexiting
      rw [hpc] at hall
      cases all with
      | true => rfl
      | false => cases hall
  | killNext hpc => exact ⟨fun _ => rfl, by simp⟩
  | enterPid pid hpc | enterAllowed pid hpc | count pid hpc | stop _ _ hpc | stopped _ hpc
  | frozen _ _ hpc | resume _ hpc | resumed _ hpc | print _ hpc | setAlarm hpc =>
      refine ⟨fun hexiting => ?_, by simp⟩
      have hnot := hwinding hexiting
      rw [hpc] at hnot
      cases hnot

theorem winding_step (h : Steady s) (horder : Orderly s a) (hstep : step s a = some s') :
    (s'.exiting = true → s'.pc.winding = true) ∧ (s'.pc = .ended → s'.amount = 0) := by
  have hwinding := h.winding
  have hended := h.ended
  cases steps_of_step hstep with
  | command c hmenu =>
      have hexiting := h.not_exiting (by rw [hmenu]; rfl)
      refine ⟨(winding_command hexiting).1, fun hend => ?_⟩
      have hpc := (winding_command hexiting).2 hend
      rw [hmenu] at hpc
      cases hpc
  | forkFails hfork =>
      refine ⟨fun _ => winding_exit, fun hend => ?_⟩
      rw [h.exit_eq (by rw [hfork]; rfl)] at hend
      cases hend
  | forked pid hfork =>
      refine ⟨fun hexiting => ?_, by simp⟩
      have hnot := hwinding hexiting
      rw [hfork] at hnot
      cases hnot
  | main _ _ hmain => exact winding_main h hmain
  | reap k c all pid _ hwait | noChild all pid hwait =>
      refine ⟨fun hexiting => ?_, fun hend => by cases all <;> cases hend⟩
      have hall := hwinding hexiting
      rw [hwait] at hall
      exact winding_afterKill hall
  | expire | deliverAlarm | found | child => exact ⟨hwinding, hended⟩
  | unknown pid m usr2 _ hdel hindex => exact absurd hindex (horder.found.found hdel)
  | handler _ hhandler =>
      obtain ⟨f, frames, _, hhandled⟩ := h.handled_of_handler hhandler
      rw [hhandled.exiting, hhandled.amount]
      rcases hhandled.pc with hpc | hpc
      · rw [hpc]
        exact ⟨hwinding, hended⟩
      · rw [hpc]
        exact ⟨fun hexiting => winding_interrupted (hwinding hexiting),
          fun hend => hended (ended_of_interrupted hend)⟩

theorem State.Bounded.of_le (h : s.Bounded) (hamount : s'.amount ≤ s.amount)
    (hpc : s'.pc.creating = true → s.pc.creating = true) : s'.Bounded := by
  unfold State.Bounded at h ⊢
  split
  · rename_i hcreating
    rw [if_pos (hpc hcreating)] at h
    omega
  · omega

theorem creating_exit : s.exit.pc.creating = false := by
  unfold State.exit
  split <;> rfl

theorem State.Bounded.exit (h : s.Bounded) : s.exit.Bounded := by
  apply h.of_le (Nat.le_of_eq amount_exit)
  simp [creating_exit]

theorem State.Bounded.command (h : s.Bounded) (c : Command) : (s.command c).Bounded := by
  cases c with
  | create =>
      simp only [State.command]
      split
      · exact h.exit
      · rename_i hroom
        unfold State.Bounded at h
        show s.amount + 1 ≤ maxChild - 1
        omega
  | killLast =>
      simp only [State.command]
      split
      · exact h.exit
      · exact h.of_le (Nat.le_refl _) (by simp [Pc.creating])
  | stop num | resume num =>
      cases num with
      | none => exact h.of_le (Nat.le_refl _) (by simp [State.command, Pc.creating])
      | some num =>
          simp only [State.command]
          split
          · exact h.of_le (Nat.le_refl _) id
          · exact h
  | print num =>
      cases num with
      | none => exact h.exit
      | some num => exact h.of_le (Nat.le_refl _) (by simp [State.command, Pc.creating])
  | killAll => exact h.of_le (Nat.le_refl _) (by simp [State.command, Pc.creating])
  | quit => exact h.exit

theorem State.Bounded.main (h : s.Bounded) (hmain : s.MainSteps s') : s'.Bounded := by
  cases hmain with
  | enterPid pid hpc | enterAllowed pid hpc =>
      exact h.of_le (Nat.le_refl _) (by simp [hpc, Pc.creating])
  | count pid hpc =>
      unfold State.Bounded at h
      rw [hpc] at h
      exact h
  | killed => exact h.of_le (Nat.le_refl _) (by cases s.exiting <;> simp [Pc.creating])
  | decrement => exact h.of_le (Nat.sub_le _ _) (by simp [Pc.creating])
  | orderFails | printFails => exact h.exit
  | _ => exact h.of_le (Nat.le_refl _) (by simp [Pc.creating])

theorem creating_interrupted {pc : Pc} (h : pc.interrupted.creating = true) :
    pc.creating = true := by
  cases pc with
  | waiting all pid => cases all <;> cases h
  | _ => exact h

theorem State.Bounded.step (h : s.Bounded) (hsteady : Steady s) (hstep : step s a = some s') :
    s'.Bounded := by
  cases steps_of_step hstep with
  | command c => exact h.command c
  | forkFails => exact h.exit
  | unknown => exact State.Bounded.exit (s := { s with usr2 := _ }) h
  | forked pid hfork => exact h.of_le (Nat.le_refl _) (by simp [hfork, Pc.creating])
  | main _ _ hmain => exact h.main (mainSteps_of_main hmain)
  | reap _ _ all | noChild all =>
      exact h.of_le (Nat.le_refl _) (by cases all <;> simp [afterKill, Pc.creating])
  | handler _ hhandler =>
      obtain ⟨f, frames, _, hhandled⟩ := hsteady.handled_of_handler hhandler
      apply h.of_le (Nat.le_of_eq hhandled.amount)
      rcases hhandled.pc with hpc | hpc
      · rw [hpc]
        exact id
      · rw [hpc]
        exact creating_interrupted
  | expire | deliverAlarm | found | child => exact h

/-- `main` and the functions that it calls go on without a handler. -/
theorem frames_main (h : s.MainSteps s') (hfree : s.frames = []) : s'.frames = [] := by
  cases h with
  | orderFails | printFails => exact frames_exit
  | _ => exact hfree

theorem frames_command (c : Command) (hfree : s.frames = []) : (s.command c).frames = [] := by
  cases c with
  | create | killLast =>
      simp only [State.command]
      split
      · exact frames_exit
      · exact hfree
  | killAll => exact hfree
  | stop num | resume num =>
      cases num with
      | none => exact hfree
      | some num =>
          simp only [State.command]
          split <;> exact hfree
  | print num =>
      cases num with
      | none => exact frames_exit
      | some num => exact hfree
  | quit => exact frames_exit

theorem index_frame {i j : ℕ} {m : ChildMsg} (h : j ∈ (m.frame i).index) : j = i := by
  cases m with
  | ask cycle => exact (Option.some.inj h).symm
  | inform => cases h

theorem frames_step (h : Steady s) (hstep : step s a = some s') :
    ∀ f ∈ s'.frames, ∀ i ∈ f.index, i < s'.amount := by
  have hnone : s'.frames = [] → ∀ f ∈ s'.frames, ∀ i ∈ f.index, i < s'.amount := by
    intro hfree f hf
    rw [hfree] at hf
    cases hf
  cases steps_of_step hstep with
  | command c _ hfree => exact hnone (frames_command c hfree)
  | forkFails | unknown => exact hnone frames_exit
  | forked _ _ hfree => exact hnone hfree
  | main _ hfree hmain => exact hnone (frames_main (mainSteps_of_main hmain) hfree)
  | reap _ _ _ _ _ _ hfree | noChild _ _ _ hfree => exact hnone hfree
  | deliverAlarm =>
      intro f hf i hi
      rcases List.mem_cons.mp hf with rfl | hf
      · cases hi
      · exact h.frames f hf i hi
  | found pid j m _ _ _ hindex =>
      intro f hf i hi
      rcases List.mem_cons.mp hf with rfl | hf
      · rw [index_frame hi]
        exact List.mem_range.mp (List.mem_of_find?_eq_some hindex)
      · exact h.frames f hf i hi
  | handler _ hhandler =>
      obtain ⟨f, frames, hframes, hhandled⟩ := h.handled_of_handler hhandler
      have hrest : ∀ g ∈ frames, ∀ i ∈ g.index, i < s'.amount := by
        intro g hg i hi
        rw [hhandled.amount]
        exact h.frames g (by rw [hframes]; exact List.mem_cons_of_mem f hg) i hi
      rcases hhandled.frames with hpop | ⟨g, hgo, hindex, _⟩
      · rw [hpop]
        exact hrest
      · rw [hgo]
        intro f' hf' i hi
        rcases List.mem_cons.mp hf' with rfl | hf'
        · rw [hhandled.amount]
          exact h.frames f (by rw [hframes]; exact List.mem_cons_self) i (hindex ▸ hi)
        · exact hrest f' hf' i hi
  | expire | child => exact h.frames

/-- An order that arrives is not lost. -/
theorem OrderArrives.killArrives (h : OrderArrives s a) : KillArrives s a := by
  rintro hmain pid hkill ⟨c, hc, hpid⟩
  rcases h hmain pid hkill c hc hpid with hroom | hterm | hholds
  · exact .inl ⟨c, hc, hpid, .inl hroom⟩
  · exact .inr ⟨c, hc, hterm⟩
  · exact .inl ⟨c, hc, hpid, .inr hholds⟩

theorem Steady.step (h : Steady s) (horder : Orderly s a) (hstep : Lab3.step s a = some s') :
    Steady s' where
  sound := by
    obtain ⟨before, hsound⟩ := h.sound
    exact ⟨_, hsound.step horder.ends horder.prints hstep⟩
  ordered := h.ordered.step horder.arrives.killArrives hstep
  accounted := Accounted.step h horder hstep
  winding := (winding_step h horder hstep).1
  ended := (winding_step h horder hstep).2
  bounded := State.Bounded.step h.bounded h hstep
  frames := frames_step h hstep

theorem Steady.init : Steady init where
  sound := ⟨0, .init⟩
  ordered := by simp [Ordered, Lab3.init, Pc.waitsFor]
  accounted := ⟨by simp [Lab3.init], by simp [Lab3.init]⟩
  winding := by simp [Lab3.init]
  ended := by simp [Lab3.init]
  bounded := by simp [State.Bounded, Lab3.init, Pc.creating]
  frames := by simp [Lab3.init]

theorem steady_of_reaches (h : Reaches step Orderly init s) : Steady s :=
  h.invariant (I := Steady) .init fun _ _ _ hu horder hstep => hu.step horder hstep

end Steps

/-! ## Nobody is left behind -/

/-- The children that do not stand in the table. -/
theorem Steady.places {s : State} (h : Steady s) {c : Child} (hc : c ∈ s.children) :
    (∃ i < s.amount, (s.childArray i).pid = c.pid) ∨
      c.pid ∈ s.pc.entering ∨ c.pid ∈ s.pc.killed ∨ Doomed c := by
  obtain ⟨before, hsound⟩ := h.sound
  cases hplace : c.place with
  | entering => exact .inr (.inl (h.accounted.entering c hc hplace))
  | listed => exact .inl (hsound.listed.listed c hc hplace)
  | removed =>
      rcases h.accounted.removed c hc hplace with hdoomed | hkill
      · exact .inr (.inr (.inr hdoomed))
      · exact .inr (.inr (.inl hkill))

theorem Steady.doomed {s : State} (h : Steady s) (hend : s.pc = .ended) {c : Child}
    (hc : c ∈ s.children) : Doomed c := by
  rcases h.places hc with ⟨i, hi, _⟩ | hentering | hkill | hdoomed
  · rw [h.ended hend] at hi
    cases hi
  · rw [hend] at hentering
    cases hentering
  · rw [hend] at hkill
    cases hkill
  · exact hdoomed

/-- As long as no race is lost, every child that does not stand in the table is being entered, or
it has PARENT_KILL or is about to get it. So when the parent has ended, every process that it has
forked and not reaped has ended or has PARENT_KILL. -/
theorem no_child_left_behind (s : State) (h : Reaches step Orderly init s) :
    (∀ c ∈ s.children, (∃ i < s.amount, (s.childArray i).pid = c.pid) ∨
      c.pid ∈ s.pc.entering ∨ c.pid ∈ s.pc.killed ∨ Doomed c) ∧
    (s.pc = .ended → ∀ c ∈ s.children, Doomed c) := by
  have hsteady := steady_of_reaches h
  exact ⟨fun c hc => hsteady.places hc, fun hend c hc => hsteady.doomed hend hc⟩

/-- Two children run, and `q` is typed while the question of the first one is pending. It
interrupts the parent where that waits for the second one to end. -/
def interruptedQuit : List Action :=
  firstQuestion ++ [.command .create, .fork (some 8), .main, .main, .main, .command .quit, .main,
    .main, .main, .main, .deliverUsr2, .handler, .handler, .child 0 .deliver, .child 0 .handle,
    .main, .main, .main, .main, .child 0 .deliver, .child 0 .handle, .reap 0, .main]

/-- The second child is not reaped, but it has PARENT_KILL. -/
theorem no_child_left_behind_interrupted :
    ∃ s, Reaches step Orderly init s ∧ s.pc = .ended ∧ s.children.map Child.pid = [8] ∧
      ∀ c ∈ s.children, Doomed c := by
  have hrun : (exec (fun u a => if Orderly u a then step u a else none) init interruptedQuit).map
      (fun s => (s.pc, s.children.map Child.pid)) = some (.ended, [8]) := by decide +kernel
  obtain ⟨s, hexec, hstate⟩ := Option.map_eq_some_iff.mp hrun
  obtain ⟨hpc, hpids⟩ := Prod.mk.inj hstate
  have hreach := reaches_of_guarded hexec
  exact ⟨s, hreach, hpc, hpids, (no_child_left_behind s hreach).2 hpc⟩

end OsaspLabs.Lab3
