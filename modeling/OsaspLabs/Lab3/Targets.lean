import OsaspLabs.Lab3.Table

/-! # Whom the commands of LAB_3 reach

A command changes entries of `child_array` and signals the children that stand there. Only `p`
does not compare its number with `amount`. -/

namespace OsaspLabs.Lab3

open Runs

/-- The entry that the next step changes for a command, or whose child it signals for one. -/
def touched (s : State) : Action → Option ℕ
  | .command (.stop (some num)) | .command (.resume (some num)) =>
      if num < s.amount then some num else none
  | .main =>
      match s.pc with
      | .stopAll i _ | .resumeAll i => if i < s.amount then some i else none
      | .sendKill _ _ => some s.amount
      | .printStat num => some num
      | _ => none
  | _ => none

/-- A child with this pid runs, and PARENT_KILL was not sent to it. -/
def Standing (children : List Child) (pid : ℕ) : Prop :=
  ∃ c ∈ children, c.pid = pid ∧ c.terminated = false ∧ ¬ c.usr1.Holds .kill

/-- A child ends only by PARENT_KILL. -/
def EndsByKill (s : State) (a : Action) : Prop :=
  ∀ k b c c' told, a = .child k b → s.children[k]? = some c → c.step b = some (c', told) →
    c'.terminated = true → c.usr1.Holds .kill

/-- `p` gets the number of a child. -/
def PrintsChild (s : State) (a : Action) : Prop :=
  ∀ num, a = .command (.print (some num)) → num < s.amount

/-- The child that a step ends, as it was before. -/
def State.ending (s : State) : Action → Option Child
  | .child k b => s.children[k]?.filter fun c => (c.step b).any fun x => x.1.terminated
  | _ => none

/-- The number that `p` gets. -/
def Action.printed : Action → Option ℕ
  | .command (.print num) => num
  | _ => none

theorem endsByKill_iff {s : State} {a : Action} :
    EndsByKill s a ↔ ∀ c ∈ s.ending a, c.usr1.Holds .kill := by
  constructor
  · intro h c hc
    cases a with
    | child k b =>
        obtain ⟨hchild, hends⟩ := Option.mem_filter_iff.mp hc
        obtain ⟨⟨c', told⟩, hstep, hterm⟩ := (Option.any_eq_true _ _).mp hends
        exact h k b c c' told rfl hchild hstep hterm
    | _ => cases hc
  · rintro h k b c c' told rfl hc hstep hterm
    refine h c (Option.mem_filter_iff.mpr ⟨hc, ?_⟩)
    simp [hstep, hterm]

theorem printsChild_iff {s : State} {a : Action} :
    PrintsChild s a ↔ ∀ num ∈ a.printed, num < s.amount := by
  constructor
  · intro h num hnum
    cases a with
    | command c =>
        cases c with
        | print num' =>
            obtain rfl : num' = some num := hnum
            exact h num rfl
        | _ => cases hnum
    | _ => cases hnum
  · rintro h num rfl
    exact h num rfl

instance (s : State) (a : Action) : Decidable (EndsByKill s a) := decidable_of_iff' _ endsByKill_iff

instance (s : State) (a : Action) : Decidable (PrintsChild s a) :=
  decidable_of_iff' _ printsChild_iff

/-- `amount` before the command to which a step belongs. -/
def amountBefore (s : State) (before : ℕ) : Action → ℕ
  | .command _ => s.amount
  | _ => before

/-- `amount` before the last command, or before the call of `exit`. -/
def nextBefore (s s' : State) (before : ℕ) (a : Action) : ℕ :=
  if s'.exiting = true ∧ s.exiting = false then s.amount else amountBefore s before a

def stepBefore (s : State × ℕ) (a : Action) : Option (State × ℕ) :=
  (step s.1 a).map fun s' => (s', nextBefore s.1 s' s.2 a)

/-- What a command touches stood in the table before it, and its child runs. -/
structure ReachesChildren (s : State) (before : ℕ) : Prop where
  index : ∀ a i, touched s a = some i → i < amountBefore s before a
  last : ∀ pid, s.pc = .sendKill false pid → s.amount + 1 = before
  target : ∀ all pid, s.pc = .sendKill all pid → (s.childArray s.amount).pid = pid
  running : ∀ a i, touched s a = some i → Standing s.children (s.childArray i).pid

theorem printAllowed_setAllowed {s : State} {i j : ℕ} {allowed : Bool}
    (h : ((s.setAllowed j allowed).childArray i).printAllowed ≠ (s.childArray i).printAllowed) :
    i = j := by
  by_contra hij
  exact h (by simp [State.setAllowed, hij])

/-- Apart from the handlers, and from `create_child`, whatever changes an entry touches it. -/
theorem touched_of_changed {s s' : State} {a : Action} {i : ℕ} (hstep : step s a = some s')
    (hhandler : a ≠ .handler) (hcreate : ∀ pid, s.pc ≠ .enterAllowed pid)
    (h : (s'.childArray i).printAllowed ≠ (s.childArray i).printAllowed) :
    touched s a = some i := by
  cases steps_of_step hstep with
  | command c =>
      cases c with
      | create | killLast =>
          simp only [State.command] at h
          split at h
          · simp at h
          · exact absurd rfl h
      | killAll => exact absurd rfl h
      | stop num | resume num =>
          cases num with
          | none => exact absurd rfl h
          | some num =>
              simp only [State.command] at h
              split at h
              · rename_i hlt
                obtain rfl := printAllowed_setAllowed h
                exact if_pos hlt
              · exact absurd rfl h
      | print num =>
          cases num with
          | none => simp [State.command] at h
          | some num => exact absurd rfl h
      | quit => simp [State.command] at h
  | forkFails | unknown => simp at h
  | main _ _ hmain =>
      cases mainSteps_of_main hmain with
      | enterPid =>
          refine absurd ?_ h
          by_cases hi : i = s.amount
          · subst hi
            simp
          · simp [hi]
      | enterAllowed pid hpc => exact absurd hpc (hcreate pid)
      | stop j print hpc hmore | resume j hpc hmore =>
          obtain rfl := printAllowed_setAllowed h
          simp only [touched, hpc]
          exact if_pos hmore
      | orderFails | printFails => simp at h
      | _ => exact absurd rfl h
  | handler => exact absurd rfl hhandler
  | _ => exact absurd rfl h

/-! ## The children that run -/

section Standing

variable {s s' : State} {a : Action} {pid : ℕ}

theorem Standing.posted {target : ℕ} {m : ParentMsg} (h : Standing s.children pid)
    (hm : m = .kill → pid ≠ target) : Standing (s.posted target m) pid := by
  obtain ⟨c, hc, hpid, hrun, hkill⟩ := h
  refine ⟨_, List.mem_map_of_mem hc, ?_⟩
  split
  · rename_i htarget
    refine ⟨by rw [Child.pid_post, hpid], by rw [Child.terminated_post, hrun], fun hpost => ?_⟩
    rw [Child.post, if_neg (by simp [hrun])] at hpost
    rcases hpost.of_post with hold | rfl
    · exact hkill hold
    · exact hm rfl (hpid.symm.trans htarget)
  · exact ⟨hpid, hrun, hkill⟩

theorem Standing.placed {target : ℕ} {place : Place} (h : Standing s.children pid) :
    Standing (s.placed target place) pid := by
  obtain ⟨c, hc, hpid, hrun, hkill⟩ := h
  refine ⟨_, List.mem_map_of_mem hc, ?_⟩
  split <;> exact ⟨hpid, hrun, hkill⟩

theorem Child.not_holds_step {c c' : Child} {b : ChildAction} {told : Option ChildMsg}
    (hstep : c.step b = some (c', told)) (hkill : ¬ c.usr1.Holds .kill) :
    ¬ c'.usr1.Holds .kill := by
  cases (Child.steps_of_step hstep).2 with
  | main parentLives _ =>
      rw [(c.main_fixed parentLives).2.2]
      exact hkill
  | alarm _ | endedEarly _ => exact hkill
  | deliver m usr1 _ hdel => exact fun hnew => hkill (hnew.of_deliver hdel)
  | handle m hm =>
      cases m with
      | kill => exact absurd (.inr hm) hkill
      | forcePrint | response cycle =>
          rintro (hpending | hhandling)
          · exact hkill (.inl hpending)
          · cases hhandling

theorem Standing.set {k : ℕ} {c c' : Child} {b : ChildAction} {told : Option ChildMsg}
    (h : Standing s.children pid) (hc : s.children[k]? = some c)
    (hstep : c.step b = some (c', told)) (hends : c'.terminated = true → c.usr1.Holds .kill) :
    Standing (s.children.set k c') pid := by
  obtain ⟨d, hd, hpid, hrun, hkill⟩ := h
  obtain ⟨j, hj⟩ := List.mem_iff_getElem?.mp hd
  by_cases hjk : k = j
  · subst hjk
    obtain rfl := Option.some.inj (hc.symm.trans hj)
    refine ⟨c', List.mem_set (List.getElem?_eq_some_iff.mp hc).1 c',
      (Child.step_fixed hstep).1.trans hpid, ?_, Child.not_holds_step hstep hkill⟩
    exact Bool.eq_false_iff.mpr fun hterm => hkill (hends hterm)
  · refine ⟨d, List.mem_of_getElem? (i := j) ?_, hpid, hrun, hkill⟩
    rw [List.getElem?_set_ne hjk, hj]

theorem Standing.eraseIdx {k : ℕ} {c : Child} (h : Standing s.children pid)
    (hc : s.children[k]? = some c) (hterm : c.terminated = true) :
    Standing (s.children.eraseIdx k) pid := by
  obtain ⟨d, hd, hpid, hrun, hkill⟩ := h
  obtain ⟨j, hj⟩ := List.mem_iff_getElem?.mp hd
  refine ⟨d, List.mem_eraseIdx_iff_getElem?.mpr ⟨j, ?_, hj⟩, hpid, hrun, hkill⟩
  rintro rfl
  obtain rfl := Option.some.inj (hc.symm.trans hj)
  rw [hterm] at hrun
  cases hrun

/-- A child runs on unless it is sent PARENT_KILL. -/
theorem Standing.step (h : Standing s.children pid) (hends : EndsByKill s a)
    (hkill : ∀ all, s.pc = .sendKill all pid → a ≠ .main) (hstep : step s a = some s') :
    Standing s'.children pid := by
  cases steps_of_step hstep with
  | command c hmenu =>
      rw [(command_kept c hmenu).2.1]
      exact h
  | forkFails | unknown =>
      rw [children_exit]
      exact h
  | forked =>
      obtain ⟨c, hc, hfixed⟩ := h
      exact ⟨c, List.mem_append_left _ hc, hfixed⟩
  | main _ _ hmain =>
      cases mainSteps_of_main hmain with
      | count | decrement => exact h.placed
      | order all target hpc =>
          refine h.posted fun _ htarget => ?_
          exact hkill all (htarget ▸ hpc) rfl
      | print => exact h.posted nofun
      | orderFails | printFails =>
          rw [children_exit]
          exact h
      | _ => exact h
  | reap k c all target hc _ _ hterm => exact h.eraseIdx hc hterm
  | handler _ hhandler =>
      cases handlerSteps_of_handler hhandler with
      | respond => exact h.posted nofun
      | respondFails =>
          rw [children_exit]
          exact h
      | _ => exact h
  | child k b c c' told usr2 hc hchild =>
      exact h.set hc hchild (hends k b c c' told rfl hc hchild)
  | _ => exact h

end Standing

/-! ## The table of running children -/

/-- The children of the table run, and so do those that enter it and the one that has left it and
is about to get PARENT_KILL. -/
structure TableStands (s : State) : Prop where
  entries : ∀ i < s.amount, Standing s.children (s.childArray i).pid
  entering : ∀ pid ∈ s.pc.entering, Standing s.children pid
  sending : ∀ all pid, s.pc = .sendKill all pid → Standing s.children pid ∧
    (s.childArray s.amount).pid = pid ∧ ∀ i < s.amount, (s.childArray i).pid ≠ pid

/-- How many children are left at each place of the parent, with `amount` before the command. -/
def InRange (before amount : ℕ) : Pc → Prop
  | .decrement all => 0 < amount ∧ amount ≤ before ∧ (all = false → amount = before)
  | .sendKill all _ => amount < before ∧ (all = false → amount + 1 = before)
  | .killAll | .callWait _ _ | .waiting _ _ | .stopAll _ none | .resumeAll _ => amount ≤ before
  | .stopAll _ (some num) | .printStat num => num < amount ∧ amount ≤ before
  | _ => True

section Steps

variable {s s' : State} {a : Action}

theorem sendKill_returnChild {t : State} {frames : List Frame} {all : Bool} {pid : ℕ}
    (h : (t.returnChild frames).pc = .sendKill all pid) : t.pc = .sendKill all pid := by
  dsimp only [State.returnChild] at h
  split at h
  · cases hpc : t.pc with
    | waiting all' target =>
        rw [hpc] at h
        cases all' <;> cases h
    | _ =>
        rw [hpc] at h
        exact h
  · exact h

/-- The parent is about to send PARENT_KILL since an earlier step, or since `--amount`. -/
theorem sendKill_of_step {all : Bool} {pid : ℕ} (hstep : step s a = some s')
    (hpc : s'.pc = .sendKill all pid) :
    (s.pc = .sendKill all pid ∧ a ≠ .main ∧ s'.amount = s.amount ∧
      ∀ i, (s'.childArray i).pid = (s.childArray i).pid) ∨
    (s.pc = .decrement all ∧ a = .main ∧ s'.amount = s.amount - 1 ∧
      s'.childArray = s.childArray ∧ (s.childArray (s.amount - 1)).pid = pid) := by
  have hbusy : s'.pc.idle ≠ true := by rw [hpc]; exact Bool.false_ne_true
  cases steps_of_step hstep with
  | command c hmenu => exact absurd (command_kept c hmenu).1 hbusy
  | forkFails | unknown => exact absurd idle_exit hbusy
  | forked => cases hpc
  | main _ _ hmain =>
      cases mainSteps_of_main hmain with
      | decrement all' hbefore =>
          cases hpc
          exact .inr ⟨hbefore, rfl, rfl, rfl, rfl⟩
      | killed =>
          dsimp only at hpc
          split at hpc <;> cases hpc
      | orderFails | printFails => exact absurd idle_exit hbusy
      | _ => cases hpc
  | reap _ _ all' => exact absurd (idle_afterKill all') hbusy
  | noChild all' => exact absurd (idle_afterKill all') hbusy
  | handler _ hhandler =>
      cases handlerSteps_of_handler hhandler with
      | refused | informed => exact .inl ⟨sendKill_returnChild hpc, nofun, rfl, fun _ => rfl⟩
      | respond => exact .inl ⟨sendKill_returnChild (t := { s with children := _ }) hpc,
          nofun, rfl, fun _ => rfl⟩
      | respondFails => exact absurd idle_exit hbusy
      | resume => exact .inl ⟨hpc, nofun, rfl, pid_setAllowed⟩
      | allowed | resumed => exact .inl ⟨hpc, nofun, rfl, fun _ => rfl⟩
  | _ => exact .inl ⟨hpc, nofun, rfl, fun _ => rfl⟩

/-- `fork` returns none of the pids of the table, as their processes run. -/
theorem TableStands.noReuse (h : TableStands s) (hstep : step s a = some s') : NoReuse s a := by
  rintro pid rfl i hi rfl
  obtain ⟨c, hc, hpid, _⟩ := h.entries i hi
  cases steps_of_step hstep with
  | forked _ _ _ hfresh => exact hfresh c hc hpid

theorem TableStands.step (h : TableStands s) (hs : Listed s) (hd : Distinct s)
    (hpos : ∀ all, s.pc = .decrement all → 0 < s.amount) (hends : EndsByKill s a)
    (hstep : step s a = some s') : TableStands s' := by
  have hentry : ∀ i < s.amount, Standing s'.children (s.childArray i).pid := by
    intro i hi
    refine (h.entries i hi).step hends (fun all hpc => ?_) hstep
    exact absurd rfl ((h.sending all _ hpc).2.2 i hi)
  have hentering : ∀ pid ∈ s.pc.entering, Standing s'.children pid := by
    intro pid hpid
    refine (h.entering pid hpid).step hends (fun all hpc => ?_) hstep
    rw [hpc] at hpid
    cases hpid
  have hsending : ∀ all pid, s'.pc = .sendKill all pid → Standing s'.children pid ∧
      (s'.childArray s'.amount).pid = pid ∧ ∀ i < s'.amount, (s'.childArray i).pid ≠ pid := by
    intro all pid hpc
    rcases sendKill_of_step hstep hpc with
      ⟨hbefore, hmain, hamount, hpids⟩ | ⟨hbefore, _, hamount, hchildArray, rfl⟩
    · obtain ⟨hstands, hlast, hne⟩ := h.sending all pid hbefore
      refine ⟨hstands.step hends (fun _ _ => hmain) hstep, ?_, ?_⟩
      · rw [hamount, hpids, hlast]
      · simp only [hamount, hpids]
        exact hne
    · have hlt := Nat.sub_one_lt_of_lt (hpos all hbefore)
      rw [hamount, hchildArray]
      refine ⟨hentry _ hlt, rfl, fun i hi heq => ?_⟩
      have hlast := hd.distinct i (by omega) (s.amount - 1) hlt heq
      omega
  refine ⟨?_, ?_, hsending⟩
  · cases tableStep_of_step hstep with
    | kept hamount hpids =>
        simp only [hamount, hpids]
        exact hentry
    | forked _ _ hamount hchildArray =>
        rw [hamount, hchildArray]
        exact hentry
    | enterPid _ _ hamount hpids =>
        intro i hi
        rw [hamount] at hi
        rw [hpids i hi]
        exact hentry i hi
    | count pid hbefore hamount hchildArray =>
        intro i hi
        rw [hamount] at hi
        rw [hchildArray]
        rcases Nat.lt_succ_iff_lt_or_eq.mp hi with hi | rfl
        · exact hentry i hi
        · rw [hs.entered pid (by rw [hbefore]; rfl)]
          exact hentering pid (by rw [hbefore]; rfl)
    | decrement all hamount hchildArray =>
        intro i hi
        rw [hchildArray]
        exact hentry i (by omega)
  · cases tableStep_of_step hstep with
    | kept _ _ hkept => exact fun pid hpid => hentering pid (hkept pid hpid)
    | forked pid _ _ _ hpc hchildren =>
        intro pid' hpid
        rw [hpc] at hpid
        obtain rfl := Option.some.inj hpid
        refine ⟨Child.forked pid s.created, ?_, rfl, rfl, ?_⟩
        · rw [hchildren]
          exact List.mem_append_right _ (List.mem_singleton.mpr rfl)
        · rintro (hpending | hhandling)
          · cases hpending
          · cases hhandling
    | enterPid pid hbefore _ _ _ hpc =>
        rw [hpc]
        rw [hbefore] at hentering
        exact hentering
    | count _ _ _ _ hpc =>
        rw [hpc]
        exact nofun
    | decrement _ _ _ hpc =>
        rw [hpc]
        exact nofun

theorem inRange_exit {t : State} {before : ℕ} (hamount : t.amount = s.amount)
    (hexiting : t.exiting = s.exiting) :
    InRange (nextBefore s t.exit before a) t.exit.amount t.exit.pc := by
  unfold nextBefore State.exit
  cases h : s.exiting with
  | true =>
      rw [hexiting, h]
      trivial
  | false =>
      rw [hexiting, h]
      exact Nat.le_of_eq hamount

theorem InRange.of_exiting {before : ℕ} (h : InRange (amountBefore s before a) s'.amount s'.pc)
    (hexiting : s'.exiting = s.exiting) :
    InRange (nextBefore s s' before a) s'.amount s'.pc := by
  unfold nextBefore
  rw [if_neg (by simp [hexiting])]
  exact h

theorem inRange_command {before : ℕ} (c : Command) (hmenu : s.pc = .menu)
    (hprint : PrintsChild s (.command c)) :
    InRange (nextBefore s (s.command c) before (.command c)) (s.command c).amount
      (s.command c).pc := by
  cases c with
  | create =>
      simp only [State.command]
      split
      · exact inRange_exit rfl rfl
      · exact .of_exiting trivial rfl
  | killLast =>
      simp only [State.command]
      split
      · exact inRange_exit rfl rfl
      · rename_i hne
        exact .of_exiting ⟨Nat.pos_of_ne_zero hne, Nat.le_refl _, fun _ => rfl⟩ rfl
  | killAll => exact .of_exiting (Nat.le_refl s.amount) rfl
  | stop num | resume num =>
      cases num with
      | none => exact .of_exiting (Nat.le_refl s.amount) rfl
      | some num =>
          simp only [State.command]
          split
          · exact .of_exiting (by rw [State.setAllowed, hmenu]; trivial) rfl
          · exact .of_exiting (by rw [hmenu]; trivial) rfl
  | print num =>
      cases num with
      | none => exact inRange_exit rfl rfl
      | some num => exact .of_exiting ⟨hprint num rfl, Nat.le_refl s.amount⟩ rfl
  | quit => exact inRange_exit rfl rfl

theorem inRange_afterKill {before amount : ℕ} (all : Bool) (h : amount ≤ before) :
    InRange before amount (afterKill all) := by
  cases all with
  | true => exact h
  | false => trivial

theorem inRange_returnChild {t : State} {before : ℕ} {frames : List Frame}
    (h : InRange before t.amount t.pc) : InRange before t.amount (t.returnChild frames).pc := by
  dsimp only [State.returnChild]
  split
  · cases hpc : t.pc with
    | waiting all pid =>
        rw [hpc] at h
        exact inRange_afterKill all h
    | _ =>
        rw [hpc] at h
        exact h
  · exact h

theorem inRange_main {before : ℕ} (h : InRange before s.amount s.pc) (hmain : s.MainSteps s') :
    InRange (nextBefore s s' before .main) s'.amount s'.pc := by
  cases hmain with
  | enterPid | enterAllowed | count | stopped | resumed | setAlarm | print =>
      exact .of_exiting trivial rfl
  | killNext hpc hsome =>
      rw [hpc] at h
      exact .of_exiting ⟨hsome, h, nofun⟩ rfl
  | killed =>
      refine .of_exiting ?_ rfl
      dsimp only
      split <;> trivial
  | decrement all hpc =>
      rw [hpc] at h
      obtain ⟨hpos, hle, hlast⟩ := h
      refine .of_exiting ⟨?_, fun hall => ?_⟩ rfl
      · exact Nat.lt_of_lt_of_le (Nat.sub_one_lt_of_lt hpos) hle
      · rw [Nat.sub_one_add_one (Nat.ne_of_gt hpos), hlast hall]
        rfl
  | orderFails | printFails => exact inRange_exit rfl rfl
  | order all pid hpc =>
      rw [hpc] at h
      exact .of_exiting (Nat.le_of_lt h.1) rfl
  | callWait all pid hpc =>
      rw [hpc] at h
      exact .of_exiting h rfl
  | stop i print hpc hmore =>
      rw [hpc] at h
      refine .of_exiting ?_ rfl
      cases print <;> exact h
  | frozen i num hpc =>
      rw [hpc] at h
      exact .of_exiting h rfl
  | resume i hpc =>
      rw [hpc] at h
      exact .of_exiting h rfl

theorem InRange.step {before : ℕ} (h : InRange before s.amount s.pc) (hprint : PrintsChild s a)
    (hstep : step s a = some s') : InRange (nextBefore s s' before a) s'.amount s'.pc := by
  cases steps_of_step hstep with
  | command c hmenu => exact inRange_command c hmenu hprint
  | forkFails => exact inRange_exit rfl rfl
  | unknown => exact inRange_exit rfl rfl
  | forked => exact .of_exiting trivial rfl
  | main _ _ hmain => exact inRange_main h (mainSteps_of_main hmain)
  | reap k c all pid _ hwait | noChild all pid hwait =>
      rw [hwait] at h
      exact .of_exiting (inRange_afterKill all h) rfl
  | handler _ hhandler =>
      cases handlerSteps_of_handler hhandler with
      | refused | informed => exact .of_exiting (inRange_returnChild h) rfl
      | respond =>
          exact .of_exiting (inRange_returnChild (t := { s with children := _ }) h) rfl
      | respondFails => exact inRange_exit rfl rfl
      | allowed | resume | resumed => exact .of_exiting h rfl
  | expire | deliverAlarm | found | child => exact .of_exiting h rfl

end Steps

/-! ## What a command reaches -/

/-- What holds in every state, with `amount` before the command. -/
structure Sound (s : State) (before : ℕ) : Prop where
  listed : Listed s
  distinct : Distinct s
  stands : TableStands s
  range : InRange before s.amount s.pc

theorem Sound.step {s s' : State} {before : ℕ} {a : Action} (h : Sound s before)
    (hends : EndsByKill s a) (hprint : PrintsChild s a) (hstep : step s a = some s') :
    Sound s' (nextBefore s s' before a) where
  listed := h.listed.step hstep
  distinct := h.distinct.step h.listed (h.stands.noReuse hstep) hstep
  stands := by
    refine h.stands.step h.listed h.distinct (fun all hpc => ?_) hends hstep
    have hrange := h.range
    rw [hpc] at hrange
    exact hrange.1
  range := h.range.step hprint hstep

theorem Sound.init : Sound init 0 where
  listed := ⟨fun _ hc => absurd hc List.not_mem_nil, nofun⟩
  distinct := ⟨nofun, nofun, fun _ hc => absurd hc List.not_mem_nil⟩
  stands := ⟨nofun, nofun, nofun⟩
  range := trivial

theorem Sound.reachesChildren {s : State} {before : ℕ} (h : Sound s before) :
    ReachesChildren s before := by
  obtain ⟨_, _, hstands, hrange⟩ := h
  have hentry : ∀ {n i : ℕ}, (if n < s.amount then some n else none) = some i →
      i < s.amount ∧ Standing s.children (s.childArray i).pid := by
    intro n i hi
    obtain ⟨hlt, heq⟩ := Option.ite_none_right_eq_some.mp hi
    obtain rfl := Option.some.inj heq
    exact ⟨hlt, hstands.entries n hlt⟩
  have htouched : ∀ a i, touched s a = some i →
      i < amountBefore s before a ∧ Standing s.children (s.childArray i).pid := by
    intro a i hi
    unfold touched at hi
    split at hi
    · exact hentry hi
    · exact hentry hi
    · cases hpc : s.pc with
      | stopAll j print =>
          simp only [hpc] at hi hrange
          obtain ⟨hlt, hchild⟩ := hentry hi
          cases print with
          | none => exact ⟨Nat.lt_of_lt_of_le hlt hrange, hchild⟩
          | some num => exact ⟨Nat.lt_of_lt_of_le hlt hrange.2, hchild⟩
      | resumeAll j =>
          simp only [hpc] at hi hrange
          obtain ⟨hlt, hchild⟩ := hentry hi
          exact ⟨Nat.lt_of_lt_of_le hlt hrange, hchild⟩
      | sendKill all pid =>
          simp only [hpc] at hi hrange
          obtain rfl := Option.some.inj hi
          obtain ⟨hchild, hlast, _⟩ := hstands.sending all pid hpc
          exact ⟨hrange.1, hlast ▸ hchild⟩
      | printStat num =>
          simp only [hpc] at hi hrange
          obtain rfl := Option.some.inj hi
          exact ⟨Nat.lt_of_lt_of_le hrange.1 hrange.2, hstands.entries num hrange.1⟩
      | _ =>
          simp only [hpc] at hi
          cases hi
    · cases hi
  refine ⟨fun a i hi => (htouched a i hi).1, fun pid hpc => ?_,
    fun all pid hpc => (hstands.sending all pid hpc).2.1, fun a i hi => (htouched a i hi).2⟩
  rw [hpc] at hrange
  exact hrange.2 rfl

theorem endsByKill_of_ne {s : State} {a : Action} (h : ∀ k b, a ≠ .child k b) : EndsByKill s a :=
  fun k b _ _ _ ha => absurd ha (h k b)

/-- The loop of `stop_all_stat` comes to its end. -/
theorem reaches_printStat {s : State} {num i : ℕ} (before : ℕ) (hpc : s.pc = .stopAll i (some num))
    (hframes : s.frames = []) :
    ∃ s', Reaches stepBefore (fun u a => EndsByKill u.1 a) (s, before) (s', before) ∧
      s'.pc = .printStat num := by
  have hown : ∀ u : State, EndsByKill u .main := fun u => endsByKill_of_ne (by simp)
  induction hleft : s.amount - i generalizing s i with
  | zero =>
      have hstep : stepBefore (s, before) .main =
          some ({ s with pc := .printStat num }, before) := by
        have hend : ¬ i < s.amount := by omega
        simp [stepBefore, step, State.main, hframes, hpc, hend, nextBefore, amountBefore]
      exact ⟨_, .single ⟨_, hown s, hstep⟩, rfl⟩
  | succ left ih =>
      have hstep : stepBefore (s, before) .main =
          some ({ s.setAllowed i false with pc := .stopAll (i + 1) (some num) }, before) := by
        have hmore : i < s.amount := by omega
        simp [stepBefore, step, State.main, hframes, hpc, hmore, nextBefore, amountBefore,
          State.setAllowed]
      obtain ⟨s', hrun, hprint⟩ := ih
        (s := { s.setAllowed i false with pc := .stopAll (i + 1) (some num) }) rfl hframes
        (by rw [amount_setAllowed]; omega)
      exact ⟨s', .head ⟨_, hown s, hstep⟩ hrun, hprint⟩

/-- A `p` with a number that no child has comes to signal the entry of that number. -/
theorem print_touches {s : State} {num : ℕ} (before : ℕ) (hmenu : s.pc = .menu)
    (hframes : s.frames = []) (hnum : s.amount ≤ num) :
    ∃ s', Reaches stepBefore (fun u a => EndsByKill u.1 a) (s, before) (s', s.amount) ∧
      touched s' .main = some num ∧ ¬ ReachesChildren s' s.amount := by
  have hstep : stepBefore (s, before) (.command (.print (some num))) =
      some ({ s with pc := .stopAll 0 (some num) }, s.amount) := by
    simp [stepBefore, step, State.command, hmenu, hframes, nextBefore, amountBefore]
  obtain ⟨s', hrun, hpc⟩ := reaches_printStat (s := { s with pc := .stopAll 0 (some num) })
    s.amount rfl hframes
  have htouched : touched s' .main = some num := by simp [touched, hpc]
  refine ⟨s', .head ⟨_, endsByKill_of_ne (by simp), hstep⟩ hrun, htouched, fun hreach => ?_⟩
  exact absurd (hreach.index .main num htouched) (Nat.not_lt_of_le hnum)

/-- As long as children end only by PARENT_KILL and `p` gets the number of a child, a command
touches only entries that stood in the table before it, and their children run; `-` touches the
last one. A `p` with a greater number comes to signal an entry behind the table. Nothing but the
handlers and the creation of its child changes an entry that is not touched. -/
theorem targets_running_iff (s : State) (before : ℕ) :
    (Reaches stepBefore (fun u a => EndsByKill u.1 a ∧ PrintsChild u.1 a) (init, 0) (s, before) →
      ReachesChildren s before) ∧
    (∀ num, s.pc = .menu → s.frames = [] → s.amount ≤ num →
      ∃ s', Reaches stepBefore (fun u a => EndsByKill u.1 a) (s, before) (s', s.amount) ∧
        touched s' .main = some num ∧ ¬ ReachesChildren s' s.amount) ∧
    ∀ a s' i, step s a = some s' → a ≠ .handler → (∀ pid, s.pc ≠ .enterAllowed pid) →
      (s'.childArray i).printAllowed ≠ (s.childArray i).printAllowed → touched s a = some i := by
  refine ⟨fun h => ?_, fun num => print_touches before,
    fun _ _ _ hstep hhandler hcreate => touched_of_changed hstep hhandler hcreate⟩
  refine Sound.reachesChildren (h.invariant (I := fun u => Sound u.1 u.2) .init ?_)
  intro u a v hu hallowed hstep
  obtain ⟨s', hs', rfl⟩ := Option.map_eq_some_iff.mp hstep
  exact hu.step hallowed.1 hallowed.2 hs'

/-- `p0` is typed when there is one child. -/
def printFirst : List Action :=
  [.command .create, .fork (some 7), .main, .main, .main, .command (.print (some 0)), .main, .main]

theorem targets_running_iff_first :
    ∃ s before, Reaches stepBefore (fun u a => EndsByKill u.1 a ∧ PrintsChild u.1 a) (init, 0)
        (s, before) ∧ touched s .main = some 0 ∧ ReachesChildren s before := by
  have hrun : (exec (fun u a => if EndsByKill u.1 a ∧ PrintsChild u.1 a then stepBefore u a
      else none) (init, 0) printFirst).map (fun u => touched u.1 .main) = some (some 0) := by
    decide +kernel
  obtain ⟨⟨s, before⟩, hexec, htouched⟩ := Option.map_eq_some_iff.mp hrun
  have hreach := @reaches_of_guarded _ _ stepBefore
    (fun u a => EndsByKill u.1 a ∧ PrintsChild u.1 a) _ _ _ _ hexec
  exact ⟨s, before, hreach, htouched, (targets_running_iff s before).1 hreach⟩

/-- `p0` is typed before there is any child. -/
theorem no_child_signalled :
    ∃ s before, Reaches stepBefore (fun u a => EndsByKill u.1 a) (init, 0) (s, before) ∧
      ¬ ReachesChildren s before := by
  obtain ⟨s, hrun, _, hnot⟩ := print_touches (s := init) 0 rfl rfl (Nat.le_refl 0)
  exact ⟨s, 0, hrun, hnot⟩

end OsaspLabs.Lab3
