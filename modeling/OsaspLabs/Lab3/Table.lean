import OsaspLabs.Lab3.Parent
import OsaspLabs.Library.Runs

/-! # The table of children in LAB_3

`child_array[0..amount-1]` holds the pids of the children, but not between `fork` and `++amount`,
and no longer after `--amount`. The handler of SIGUSR2 looks there for its sender. -/

namespace OsaspLabs.Lab3

open Runs

/-- The child that was forked and is not counted yet. -/
def Pc.entering : Pc → Option ℕ
  | .enterPid pid | .enterAllowed pid | .count pid => some pid
  | _ => none

/-- The child whose pid is already behind the table. -/
def Pc.entered : Pc → Option ℕ
  | .enterAllowed pid | .count pid => some pid
  | _ => none

/-- The later children are earlier ones, at their places. -/
def SameChildren (children children' : List Child) : Prop :=
  ∀ c' ∈ children', ∃ c ∈ children, c'.pid = c.pid ∧ c'.place = c.place

/-- What a step does to the table. -/
inductive State.TableStep (s : State) (a : Action) (s' : State) : Prop where
  | kept (amount : s'.amount = s.amount)
      (pids : ∀ i, (s'.childArray i).pid = (s.childArray i).pid)
      (entering : ∀ pid ∈ s'.pc.entering, pid ∈ s.pc.entering)
      (entered : ∀ pid ∈ s'.pc.entered, pid ∈ s.pc.entered)
      (children : SameChildren s.children s'.children)
  | forked (pid : ℕ) (action : a = .fork (some pid)) (amount : s'.amount = s.amount)
      (childArray : s'.childArray = s.childArray) (pc : s'.pc = .enterPid pid)
      (children : s'.children = s.children ++ [Child.forked pid s.created])
  | enterPid (pid : ℕ) (before : s.pc = .enterPid pid) (amount : s'.amount = s.amount)
      (pids : ∀ i < s.amount, (s'.childArray i).pid = (s.childArray i).pid)
      (new : (s'.childArray s.amount).pid = pid) (pc : s'.pc = .enterAllowed pid)
      (children : s'.children = s.children)
  | count (pid : ℕ) (before : s.pc = .count pid) (amount : s'.amount = s.amount + 1)
      (childArray : s'.childArray = s.childArray) (pc : s'.pc = .menu)
      (children : s'.children = s.placed pid .listed)
  | decrement (all : Bool) (amount : s'.amount = s.amount - 1)
      (childArray : s'.childArray = s.childArray)
      (pc : s'.pc = .sendKill all (s.childArray (s.amount - 1)).pid)
      (children : s'.children = s.placed (s.childArray (s.amount - 1)).pid .removed)

theorem SameChildren.refl (children : List Child) : SameChildren children children :=
  fun c hc => ⟨c, hc, rfl, rfl⟩

theorem SameChildren.posted (s : State) (pid : ℕ) (m : ParentMsg) :
    SameChildren s.children (s.posted pid m) := by
  intro c' hc'
  obtain ⟨c, hc, rfl⟩ := List.mem_map.mp hc'
  refine ⟨c, hc, ?_⟩
  split
  · exact ⟨c.pid_post m, c.place_post m⟩
  · exact ⟨rfl, rfl⟩

theorem SameChildren.set {children : List Child} {k : ℕ} {c c' : Child} {a : ChildAction}
    {told : Option ChildMsg} (hc : children[k]? = some c) (hstep : c.step a = some (c', told)) :
    SameChildren children (children.set k c') := by
  intro d hd
  rcases List.mem_or_eq_of_mem_set hd with hd | rfl
  · exact ⟨d, hd, rfl, rfl⟩
  · exact ⟨c, List.mem_of_getElem? hc, Child.step_fixed hstep⟩

theorem entering_of_idle {pc : Pc} (h : pc.idle = true) : pc.entering = none := by
  cases pc <;> first | rfl | cases h

theorem mem_entering_of_entered {pc : Pc} {pid : ℕ} (h : pid ∈ pc.entered) :
    pid ∈ pc.entering := by
  cases pc <;> first | exact h | cases h

section TableSteps

variable {s s' : State} {a : Action}

/-- With no child being entered afterwards, only the table itself is to be looked at. -/
theorem kept_of_entering (hpc : s'.pc.entering = none) (hamount : s'.amount = s.amount)
    (hpids : ∀ i, (s'.childArray i).pid = (s.childArray i).pid)
    (hchildren : SameChildren s.children s'.children) : s.TableStep a s' := by
  have hnone : ∀ pid, pid ∉ s'.pc.entering := by simp [hpc]
  exact .kept hamount hpids (fun pid hpid => absurd hpid (hnone pid))
    (fun pid hpid => absurd (mem_entering_of_entered hpid) (hnone pid)) hchildren

theorem kept_of_pc (hpc : s'.pc = s.pc) (hamount : s'.amount = s.amount)
    (hpids : ∀ i, (s'.childArray i).pid = (s.childArray i).pid)
    (hchildren : SameChildren s.children s'.children) : s.TableStep a s' :=
  .kept hamount hpids (fun _ hpid => hpc ▸ hpid) (fun _ hpid => hpc ▸ hpid) hchildren

theorem kept_exit {t : State} (hamount : t.amount = s.amount)
    (hchildArray : t.childArray = s.childArray) (hchildren : t.children = s.children) :
    s.TableStep a t.exit := by
  refine kept_of_entering (entering_of_idle idle_exit) ?_ (fun i => ?_) ?_
  · rw [amount_exit, hamount]
  · rw [childArray_exit, hchildArray]
  · rw [children_exit, hchildren]
    exact SameChildren.refl _

theorem tableStep_main (h : s.MainSteps s') : s.TableStep a s' := by
  cases h with
  | enterPid pid hpc =>
      refine .enterPid pid hpc rfl (fun i hi => ?_) (by simp) rfl rfl
      simp [Nat.ne_of_lt hi]
  | enterAllowed pid hpc =>
      refine .kept rfl pid_setAllowed (fun p hp => ?_) (fun p hp => ?_) (SameChildren.refl _)
      · rw [hpc]
        exact hp
      · rw [hpc]
        exact hp
  | count pid hpc => exact .count pid hpc rfl rfl rfl rfl
  | decrement all => exact .decrement all rfl rfl rfl rfl
  | order all pid =>
      exact kept_of_entering rfl rfl (fun _ => rfl) (SameChildren.posted s pid .kill)
  | print num =>
      exact kept_of_entering rfl rfl (fun _ => rfl) (SameChildren.posted s _ .forcePrint)
  | orderFails | printFails => exact kept_exit rfl rfl rfl
  | killed =>
      refine kept_of_entering ?_ rfl (fun _ => rfl) (SameChildren.refl _)
      cases s.exiting <;> rfl
  | stop | resume => exact kept_of_entering rfl rfl pid_setAllowed (SameChildren.refl _)
  | _ => exact kept_of_entering rfl rfl (fun _ => rfl) (SameChildren.refl _)

/-- A handler that returns does not enter a child. -/
theorem kept_returnChild {t : State} (frames : List Frame) (hpc : t.pc = s.pc)
    (hamount : t.amount = s.amount) (hchildArray : t.childArray = s.childArray)
    (hchildren : SameChildren s.children t.children) : s.TableStep a (t.returnChild frames) := by
  have hmem : ∀ pid ∈ (t.returnChild frames).pc.entering, (t.returnChild frames).pc = s.pc := by
    intro pid hpid
    dsimp only [State.returnChild] at hpid ⊢
    split
    · rename_i hframes
      rw [if_pos hframes] at hpid
      rw [← hpc]
      cases hwait : t.pc with
      | waiting all target =>
          rw [hwait, Pc.interrupted, entering_of_idle (idle_afterKill all)] at hpid
          cases hpid
      | _ => rfl
    · exact hpc
  refine .kept hamount (fun i => by rw [childArray_returnChild, hchildArray]) ?_ ?_ hchildren
  · exact fun pid hpid => hmem pid hpid ▸ hpid
  · exact fun pid hpid => hmem pid (mem_entering_of_entered hpid) ▸ hpid

theorem tableStep_handler (h : s.HandlerSteps s') : s.TableStep a s' := by
  cases h with
  | refused _ _ frames | informed frames =>
      exact kept_returnChild frames rfl rfl rfl (SameChildren.refl _)
  | respond i cycle frames =>
      exact kept_returnChild frames rfl rfl rfl (SameChildren.posted s _ _)
  | respondFails => exact kept_exit rfl rfl rfl
  | resume => exact kept_of_pc rfl rfl pid_setAllowed (SameChildren.refl _)
  | allowed | resumed => exact kept_of_pc rfl rfl (fun _ => rfl) (SameChildren.refl _)

theorem tableStep_of_step (h : step s a = some s') : s.TableStep a s' := by
  cases steps_of_step h with
  | command c hmenu =>
      obtain ⟨hidle, hchildren, hamount, hpids⟩ := command_kept c hmenu
      exact kept_of_entering (entering_of_idle hidle) hamount hpids
        (hchildren ▸ SameChildren.refl _)
  | forkFails => exact kept_exit rfl rfl rfl
  | forked pid => exact .forked pid rfl rfl rfl rfl rfl
  | main _ _ hmain => exact tableStep_main (mainSteps_of_main hmain)
  | reap k c all =>
      refine kept_of_entering (entering_of_idle (idle_afterKill all)) rfl (fun _ => rfl) ?_
      exact fun d hd => ⟨d, List.mem_of_mem_eraseIdx hd, rfl, rfl⟩
  | noChild all =>
      exact kept_of_entering (entering_of_idle (idle_afterKill all)) rfl (fun _ => rfl)
        (SameChildren.refl _)
  | expire | deliverAlarm | found => exact kept_of_pc rfl rfl (fun _ => rfl) (SameChildren.refl _)
  | unknown => exact kept_exit rfl rfl rfl
  | handler _ hhandler => exact tableStep_handler (handlerSteps_of_handler hhandler)
  | child k b c c' told usr2 hc hstep =>
      exact kept_of_pc rfl rfl (fun _ => rfl) (SameChildren.set hc hstep)

end TableSteps

/-! ## The table in a run -/

/-- The children that are listed stand in the table. -/
structure Listed (s : State) : Prop where
  listed : ∀ c ∈ s.children, c.place = .listed → ∃ i < s.amount, (s.childArray i).pid = c.pid
  entered : ∀ pid ∈ s.pc.entered, (s.childArray s.amount).pid = pid

/-- Nothing else stands there. -/
structure Distinct (s : State) : Prop where
  distinct : ∀ i < s.amount, ∀ j < s.amount,
    (s.childArray i).pid = (s.childArray j).pid → i = j
  fresh : ∀ pid ∈ s.pc.entering, ∀ i < s.amount, (s.childArray i).pid ≠ pid
  unlisted : ∀ c ∈ s.children, (∃ i < s.amount, (s.childArray i).pid = c.pid) → c.place = .listed

/-- `fork` does not return a pid that still stands in the table. -/
def NoReuse (s : State) (a : Action) : Prop :=
  ∀ pid, a = .fork (some pid) → ∀ i < s.amount, (s.childArray i).pid ≠ pid

/-- The pid of a process that has been forked. -/
def Action.forked : Action → Option ℕ
  | .fork pid => pid
  | _ => none

instance (s : State) (a : Action) : Decidable (NoReuse s a) :=
  decidable_of_iff (∀ pid ∈ a.forked, ∀ i < s.amount, (s.childArray i).pid ≠ pid) (by
    constructor
    · rintro h pid rfl
      exact h pid rfl
    · intro h pid hpid
      cases a with
      | fork pid' =>
          obtain rfl : pid' = some pid := hpid
          exact h pid rfl
      | _ => cases hpid)

/-- Where no pid has been entered, only the listed children count. -/
theorem Listed.of_none_entered {s : State} (hpc : s.pc.entered = none)
    (h : ∀ c ∈ s.children, c.place = .listed → ∃ i < s.amount, (s.childArray i).pid = c.pid) :
    Listed s where
  listed := h
  entered pid hpid := by
    rw [hpc] at hpid
    cases hpid

theorem Listed.step {s s' : State} {a : Action} (h : Listed s) (hstep : step s a = some s') :
    Listed s' := by
  obtain ⟨hlisted, hentered⟩ := h
  cases tableStep_of_step hstep with
  | kept hamount hpids _ hentered' hchildren =>
      refine ⟨fun c' hc' hplace => ?_, fun pid hpid => ?_⟩
      · obtain ⟨c, hc, hpid, hplace'⟩ := hchildren c' hc'
        obtain ⟨i, hi, hmatch⟩ := hlisted c hc (hplace' ▸ hplace)
        exact ⟨i, hamount ▸ hi, by rw [hpids, hmatch, hpid]⟩
      · rw [hamount, hpids]
        exact hentered pid (hentered' pid hpid)
  | forked pid _ hamount hchildArray hpc hchildren =>
      apply Listed.of_none_entered (by rw [hpc]; rfl)
      intro c' hc' hplace
      rw [hchildren] at hc'
      rcases List.mem_append.mp hc' with hc | hc
      · rw [hamount, hchildArray]
        exact hlisted c' hc hplace
      · rw [List.mem_singleton.mp hc] at hplace
        cases hplace
  | enterPid pid hbefore hamount hpids hnew hpc hchildren =>
      refine ⟨fun c' hc' hplace => ?_, fun pid' hpid => ?_⟩
      · obtain ⟨i, hi, hmatch⟩ := hlisted c' (hchildren ▸ hc') hplace
        exact ⟨i, hamount ▸ hi, by rw [hpids i hi, hmatch]⟩
      · rw [hpc] at hpid
        rw [hamount, hnew]
        exact Option.some.inj hpid
  | count pid hbefore hamount hchildArray hpc hchildren =>
      apply Listed.of_none_entered (by rw [hpc]; rfl)
      intro c' hc' hplace
      rw [hchildren] at hc'
      rw [hamount, hchildArray]
      obtain ⟨c, hc, rfl⟩ := List.mem_map.mp hc'
      split at hplace
      · rename_i hsame
        refine ⟨s.amount, Nat.lt_succ_self _, ?_⟩
        rw [if_pos hsame, hentered pid (by rw [hbefore]; rfl), hsame]
      · rename_i hother
        obtain ⟨i, hi, hmatch⟩ := hlisted c hc hplace
        exact ⟨i, Nat.lt_succ_of_lt hi, by rw [if_neg hother, hmatch]⟩
  | decrement all hamount hchildArray hpc hchildren =>
      apply Listed.of_none_entered (by rw [hpc]; rfl)
      intro c' hc' hplace
      rw [hchildren] at hc'
      rw [hamount, hchildArray]
      obtain ⟨c, hc, rfl⟩ := List.mem_map.mp hc'
      split at hplace
      · cases hplace
      · rename_i hother
        obtain ⟨i, hi, hmatch⟩ := hlisted c hc hplace
        -- the entry that is given up is the one of another child
        have hne : i ≠ s.amount - 1 := by
          rintro rfl
          exact hother hmatch.symm
        exact ⟨i, by omega, by rw [if_neg hother, hmatch]⟩

theorem Distinct.step {s s' : State} {a : Action} (h : Distinct s) (hs : Listed s)
    (hreuse : NoReuse s a) (hstep : step s a = some s') : Distinct s' := by
  obtain ⟨hdistinct, hfresh, hunlisted⟩ := h
  cases tableStep_of_step hstep with
  | kept hamount hpids hentering _ hchildren =>
      refine ⟨?_, ?_, ?_⟩
      · simp only [hamount, hpids]
        exact hdistinct
      · simp only [hamount, hpids]
        exact fun pid hpid => hfresh pid (hentering pid hpid)
      · simp only [hamount, hpids]
        intro c' hc' hmatch
        obtain ⟨c, hc, hpid, hplace⟩ := hchildren c' hc'
        rw [hplace]
        exact hunlisted c hc (hpid ▸ hmatch)
  | forked pid haction hamount hchildArray hpc hchildren =>
      have hnew := hreuse pid haction
      refine ⟨?_, ?_, ?_⟩
      · rw [hamount, hchildArray]
        exact hdistinct
      · rw [hamount, hchildArray, hpc]
        intro pid' hpid
        obtain rfl := Option.some.inj hpid
        exact hnew
      · rw [hamount, hchildArray, hchildren]
        rintro c' hc' ⟨i, hi, hmatch⟩
        rcases List.mem_append.mp hc' with hc | hc
        · exact hunlisted c' hc ⟨i, hi, hmatch⟩
        · rw [List.mem_singleton.mp hc] at hmatch
          exact absurd hmatch (hnew i hi)
  | enterPid pid hbefore hamount hpids hnew hpc hchildren =>
      refine ⟨?_, ?_, ?_⟩
      · rw [hamount]
        intro i hi j hj hmatch
        rw [hpids i hi, hpids j hj] at hmatch
        exact hdistinct i hi j hj hmatch
      · rw [hamount, hpc]
        intro pid' hpid i hi
        obtain rfl := Option.some.inj hpid
        rw [hpids i hi]
        exact hfresh pid (by rw [hbefore]; rfl) i hi
      · rw [hamount, hchildren]
        rintro c hc ⟨i, hi, hmatch⟩
        exact hunlisted c hc ⟨i, hi, hpids i hi ▸ hmatch⟩
  | count pid hbefore hamount hchildArray hpc hchildren =>
      have hentered := hs.entered pid (by rw [hbefore]; rfl)
      have hfresh' := hfresh pid (by rw [hbefore]; rfl)
      have hnone : ∀ pid', pid' ∉ s'.pc.entering := by simp [hpc, Pc.entering]
      refine ⟨?_, fun pid' hpid => absurd hpid (hnone pid'), ?_⟩
      · rw [hamount, hchildArray]
        intro i hi j hj hmatch
        rcases Nat.lt_succ_iff_lt_or_eq.mp hi with hi | rfl
        · rcases Nat.lt_succ_iff_lt_or_eq.mp hj with hj | rfl
          · exact hdistinct i hi j hj hmatch
          · exact absurd (hmatch.trans hentered) (hfresh' i hi)
        · rcases Nat.lt_succ_iff_lt_or_eq.mp hj with hj | rfl
          · exact absurd (hmatch.symm.trans hentered) (hfresh' j hj)
          · rfl
      · rw [hamount, hchildArray, hchildren]
        rintro c' hc' ⟨i, hi, hmatch⟩
        obtain ⟨c, hc, rfl⟩ := List.mem_map.mp hc'
        split
        · rfl
        · rename_i hother
          rw [if_neg hother] at hmatch
          rcases Nat.lt_succ_iff_lt_or_eq.mp hi with hi | rfl
          · exact hunlisted c hc ⟨i, hi, hmatch⟩
          · exact absurd (hmatch.symm.trans hentered) hother
  | decrement all hamount hchildArray hpc hchildren =>
      have hnone : ∀ pid', pid' ∉ s'.pc.entering := by simp [hpc, Pc.entering]
      refine ⟨?_, fun pid' hpid => absurd hpid (hnone pid'), ?_⟩
      · rw [hamount, hchildArray]
        exact fun i hi j hj hmatch => hdistinct i (by omega) j (by omega) hmatch
      · rw [hamount, hchildArray, hchildren]
        rintro c' hc' ⟨i, hi, hmatch⟩
        obtain ⟨c, hc, rfl⟩ := List.mem_map.mp hc'
        split
        · rename_i hsame
          rw [if_pos hsame] at hmatch
          have hlast := hdistinct i (by omega) (s.amount - 1) (by omega) (hmatch.trans hsame)
          omega
        · rename_i hother
          rw [if_neg hother] at hmatch
          exact hunlisted c hc ⟨i, by omega, hmatch⟩

/-! ## The sender of a signal -/

/-- A SIGUSR2 of a child that runs is delivered next. -/
def Delivers (s : State) (c : Child) : Prop :=
  c ∈ s.children ∧ c.terminated = false ∧ ∃ m usr2, s.usr2.deliver = some ((c.pid, m), usr2)

/-- `get_index_by_pid` finds the child in the table. -/
def Finds (s : State) (c : Child) : Prop :=
  ∃ i < s.amount, s.getIndexByPid c.pid = some i ∧ (s.childArray i).pid = c.pid

theorem finds_iff {s : State} {c : Child} :
    Finds s c ↔ ∃ i < s.amount, (s.childArray i).pid = c.pid := by
  constructor
  · rintro ⟨i, hi, _, hmatch⟩
    exact ⟨i, hi, hmatch⟩
  · rintro ⟨i, hi, hmatch⟩
    have hsome : (s.getIndexByPid c.pid).isSome = true :=
      List.find?_isSome.mpr ⟨i, List.mem_range.mpr hi, by simpa using hmatch⟩
    obtain ⟨j, hj⟩ := Option.isSome_iff_exists.mp hsome
    exact ⟨j, List.mem_range.mp (List.mem_of_find?_eq_some hj), hj,
      by simpa using List.find?_some hj⟩

/-- The sender of a SIGUSR2 is found if it is listed. As long as no pid that stands in the table is
used again, it is found only then. The parent goes on to answer if and only if it is found. -/
theorem sender_found_iff (s : State) (c : Child) :
    (Reaches step anything init s → Delivers s c → c.place = .listed → Finds s c) ∧
    (Reaches step NoReuse init s → Delivers s c → (Finds s c ↔ c.place = .listed)) ∧
    ∀ s', Delivers s c → step s .deliverUsr2 = some s' →
      (Finds s c ↔ ∃ frame, s'.frames = frame :: s.frames) := by
  have hlisted : ∀ s, Reaches step anything init s → Listed s := by
    intro s h
    refine h.invariant (I := Listed) ⟨by simp [init], by simp [init, Pc.entered]⟩
      fun _ _ _ hu _ hstep => hu.step hstep
  refine ⟨fun h hdel hplace => ?_, fun h hdel => ?_, fun s' hdel hstep => ?_⟩
  · exact finds_iff.mpr ((hlisted s h).listed c hdel.1 hplace)
  · have hdistinct : Listed s ∧ Distinct s := by
      refine h.invariant (I := fun u => Listed u ∧ Distinct u)
        ⟨hlisted init .refl, by simp [init], by simp [init], by simp [init]⟩ ?_
      exact fun _ _ _ hu hreuse hstep => ⟨hu.1.step hstep, hu.2.step hu.1 hreuse hstep⟩
    rw [finds_iff]
    exact ⟨hdistinct.2.unlisted c hdel.1, hdistinct.1.listed c hdel.1⟩
  · obtain ⟨_, _, m, usr2, hsignal⟩ := hdel
    cases steps_of_step hstep with
    | found pid i m' usr2' _ hsignal' hindex =>
        cases hsignal.symm.trans hsignal'
        refine iff_of_true ?_ ⟨_, rfl⟩
        exact ⟨i, List.mem_range.mp (List.mem_of_find?_eq_some hindex), hindex,
          by simpa using List.find?_some hindex⟩
    | unknown pid m' usr2' _ hsignal' hindex =>
        cases hsignal.symm.trans hsignal'
        refine iff_of_false ?_ ?_
        · rintro ⟨i, _, hindex', _⟩
          rw [hindex] at hindex'
          cases hindex'
        · simp

/-- A child that is listed has asked, and the parent goes on to answer. -/
theorem sender_found_iff_asked :
    ∃ s c s', Reaches step NoReuse init s ∧ Delivers s c ∧ c.place = .listed ∧ Finds s c ∧
      step s .deliverUsr2 = some s' ∧ ∃ frame, s'.frames = frame :: s.frames := by
  have hrun : (exec (fun u a => if NoReuse u a then step u a else none) init firstQuestion).map
      (fun s => (s.usr2, s.children.map fun c => (c.pid, c.terminated, c.place),
        (step s .deliverUsr2).isSome)) =
        some (⟨some (7, .ask ⟨0, 0⟩), none⟩, [(7, false, .listed)], true) := by decide +kernel
  obtain ⟨s, hexec, hstate⟩ := Option.map_eq_some_iff.mp hrun
  simp only [Prod.mk.injEq] at hstate
  obtain ⟨husr2, hchildren, hsome⟩ := hstate
  obtain ⟨s', hstep⟩ := Option.isSome_iff_exists.mp hsome
  obtain ⟨c, hsingle, hc⟩ := List.map_eq_singleton_iff.mp hchildren
  simp only [Prod.mk.injEq] at hc
  obtain ⟨hpid, halive, hplace⟩ := hc
  have hdel : Delivers s c :=
    ⟨hsingle ▸ List.mem_singleton_self c, halive, .ask ⟨0, 0⟩, ⟨none, some (7, .ask ⟨0, 0⟩)⟩,
      by rw [husr2, hpid]; rfl⟩
  have hreach := reaches_of_guarded hexec
  obtain ⟨-, hiff, hnext⟩ := sender_found_iff s c
  have hfinds := (hiff hreach hdel).mpr hplace
  exact ⟨s, c, s', hreach, hdel, hplace, hfinds, hstep, (hnext s' hdel hstep).mp hfinds⟩

/-- The child has asked, and is taken from the table before its question is delivered. -/
theorem removed_child_not_found :
    ∃ s c, Reaches step anything init s ∧ Delivers s c ∧ ¬ Finds s c := by
  have hrun : (exec step init (firstQuestion ++ [.command .killLast, .main])).map
      (fun s => (s.amount, s.usr2, s.children.map fun c => (c.pid, c.terminated))) =
        some (0, ⟨some (7, .ask ⟨0, 0⟩), none⟩, [(7, false)]) := by decide +kernel
  obtain ⟨s, hexec, hstate⟩ := Option.map_eq_some_iff.mp hrun
  simp only [Prod.mk.injEq] at hstate
  obtain ⟨hamount, husr2, hchildren⟩ := hstate
  obtain ⟨c, hsingle, hc⟩ := List.map_eq_singleton_iff.mp hchildren
  obtain ⟨hpid, halive⟩ := Prod.mk.inj hc
  refine ⟨s, c, reaches_anything_of_exec hexec, ⟨?_, halive, ?_⟩, ?_⟩
  · exact hsingle ▸ List.mem_singleton_self c
  · exact ⟨.ask ⟨0, 0⟩, ⟨none, some (7, .ask ⟨0, 0⟩)⟩, by rw [husr2, hpid]; rfl⟩
  · rintro ⟨i, hi, _⟩
    omega

end OsaspLabs.Lab3
