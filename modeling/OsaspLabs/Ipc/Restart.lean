import OsaspLabs.Ipc.Semaphores
import Mathlib.Logic.Function.Basic

/-! # Successive runs of LAB_4 and LAB_5

The queue is cleared by every `init`, but a named semaphore keeps its value until some run
unlinks it. The programs run one after the other and share two of the three names. -/

namespace OsaspLabs

namespace Ipc

open Runs

inductive SemName where
  | mutex
  | freeSpace
  | items
  deriving DecidableEq, Repr

/-- The value that `init` passes to `sem_open`. -/
def SemName.initial : SemName → ℕ
  | .mutex => 1
  | .freeSpace => msgMax
  | .items => 0

/-- The named semaphores that exist, with their values. -/
abbrev Names := SemName → Option ℕ

def noNames : Names := fun _ => none

/-- The value of the semaphore that `sem_open` returns: without `O_EXCL` an existing one is
opened as it is, and `O_TRUNC` means nothing to it. -/
def opened (names : Names) (n : SemName) : ℕ := (names n).getD n.initial

def semOpen (names : Names) (n : SemName) : Names :=
  Function.update names n (some (opened names n))

def semUnlink (names : Names) (n : SemName) : Names := Function.update names n none

/-- The queue is empty and no participant, removed ones included, is between the two
semaphore operations of its turn. -/
def Quiet {L : Type} (sh : Shared L) (ws : List Worker) : Prop :=
  sh.queue.msgAmount.toNat = 0 ∧ ∀ w ∈ ws, w.pc.holdsSlot = false

/-- What a run can leave behind that finds the names `before` and whose states hold those of
`held`. -/
inductive Leaves {σ α : Type} (semNames : List SemName) (step : σ → α → Option σ)
    (start : MsgQueue → σ) (held : σ → Names) (allowed : σ → ℕ → Prop) (before : Names) :
    Names → Prop where
  /-- It is killed in `init`, after `k` calls of `sem_open`. -/
  | init (k : ℕ) :
      Leaves semNames step start held allowed before ((semNames.take k).foldl semOpen before)
  /-- It ends in the state `s` with the first `k` names unlinked by `atexit_handler`. -/
  | run (memory : MsgQueue) (s : σ) (k : ℕ) (reach : Reaches step anything (start memory) s)
      (ok : allowed s k) :
      Leaves semNames step start held allowed before ((semNames.take k).foldl semUnlink (held s))

end Ipc

open Ipc Runs

namespace Lab4

/-- In the order of `sem_open` and of `sem_unlink`. -/
def semNames : List SemName := [.mutex, .freeSpace, .items]

/-- The state that `init` leaves if the semaphores `names` exist before it. -/
def start (memory : MsgQueue) (names : Names) : State :=
  { init memory with
    shared := ⟨msgQueueInit memory, opened names .mutex, opened names .freeSpace,
      opened names .items⟩ }

def StartsConsistent (names : Names) : Prop :=
  ∀ memory, (start memory names).shared.freeSpace =
      msgMax - (start memory names).shared.queue.msgAmount.toNat ∧
    (start memory names).shared.items = (start memory names).shared.queue.msgAmount.toNat ∧
    (start memory names).shared.mutex = 1

/-- The named semaphores in the state `s` of a run. -/
def held (s : State) : Names
  | .mutex => some s.shared.mutex
  | .freeSpace => some s.shared.freeSpace
  | .items => some s.shared.items

/-- What a run can leave behind. -/
abbrev Leaves (allowed : State → ℕ → Prop) (before : Names) : Names → Prop :=
  Ipc.Leaves semNames step (fun memory => start memory before) held allowed before

/-- The run has unlinked all its names, or its semaphores are as it found them. -/
def EndsClean (s : State) (k : ℕ) : Prop :=
  semNames.length ≤ k ∨ Quiet s.shared s.workers

end Lab4

namespace Lab5

def semNames : List SemName := [.freeSpace, .items]

/-- The state that `init` leaves if the semaphores `names` exist before it. -/
def start (memory : MsgQueue) (names : Names) : State :=
  { init memory with
    shared := ⟨msgQueueInit memory, none, opened names .freeSpace, opened names .items⟩ }

def StartsConsistent (names : Names) : Prop :=
  ∀ memory, (start memory names).shared.freeSpace =
      msgMax - (start memory names).shared.queue.msgAmount.toNat ∧
    (start memory names).shared.items = (start memory names).shared.queue.msgAmount.toNat

/-- The semaphore `mutex` of LAB_4 is left alone. -/
def held (before : Names) (s : State) : Names
  | .mutex => before .mutex
  | .freeSpace => some s.shared.freeSpace
  | .items => some s.shared.items

/-- What a run can leave behind. The handler unlinks nothing if it finds the mutex locked. -/
abbrev Leaves (allowed : State → ℕ → Prop) (before : Names) : Names → Prop :=
  Ipc.Leaves semNames step (fun memory => start memory before) (held before) allowed before

/-- The run has unlinked all its names, or its semaphores are as it found them. -/
def EndsClean (s : State) (k : ℕ) : Prop :=
  semNames.length ≤ k ∨ Quiet s.shared s.workers

end Lab5

namespace Ipc

/-- The named semaphores that a history of runs can leave, from a system without them. -/
def Left (allowed4 : Lab4.State → ℕ → Prop) (allowed5 : Lab5.State → ℕ → Prop) :
    Names → Prop :=
  Relation.ReflTransGen (fun a b => Lab4.Leaves allowed4 a b ∨ Lab5.Leaves allowed5 a b) noNames

/-! ## Opening and unlinking -/

/-- The semaphore does not exist or has its initial value. -/
def AtInitial (names : Names) (n : SemName) : Prop :=
  names n = none ∨ names n = some n.initial

theorem opened_eq_initial_iff {names : Names} {n : SemName} :
    opened names n = n.initial ↔ AtInitial names n := by
  unfold opened AtInitial
  cases names n <;> simp

theorem opened_iff {names : Names} {ns : List SemName} :
    (∀ n ∈ ns, opened names n = n.initial) ↔ ∀ n ∈ ns, AtInitial names n :=
  forall₂_congr fun _ _ => opened_eq_initial_iff

theorem foldl_semOpen_atInitial {names : Names} (h : ∀ n, AtInitial names n)
    (ns : List SemName) : ∀ n, AtInitial (ns.foldl semOpen names) n := by
  induction ns generalizing names with
  | nil => exact h
  | cons m ns ih =>
      refine ih fun n => ?_
      by_cases hn : n = m
      · subst hn
        right
        rw [semOpen, Function.update_self, opened_eq_initial_iff.mpr (h n)]
      · rw [AtInitial, semOpen, Function.update_of_ne hn]
        exact h n

theorem foldl_semUnlink (ns : List SemName) (names : Names) (n : SemName) :
    ns.foldl semUnlink names n = if n ∈ ns then none else names n := by
  induction ns generalizing names with
  | nil => rfl
  | cons m ns ih =>
      rw [List.foldl_cons, ih, semUnlink]
      by_cases hmem : n ∈ ns
      · simp [hmem]
      · by_cases hn : n = m
        · simp [hn]
        · simp [hmem, hn]

/-- What is unlinked, or was at its initial value, is so at the next start. -/
theorem foldl_semUnlink_atInitial {names : Names} {ns : List SemName} {k : ℕ}
    (hnames : ns.length ≤ k ∨ ∀ n ∈ ns, AtInitial names n)
    (hother : ∀ n, n ∉ ns → AtInitial names n) (n : SemName) :
    AtInitial ((ns.take k).foldl semUnlink names) n := by
  rw [AtInitial, foldl_semUnlink]
  split
  · exact .inl rfl
  · rename_i hn
    by_cases hmem : n ∈ ns
    · rcases hnames with hk | hinitial
      · rw [List.take_of_length_le hk] at hn
        exact absurd hmem hn
      · exact hinitial n hmem
    · exact hother n hmem

/-- A run that leaves the names of others alone, and its own ones unlinked or at their initial
values, leaves a consistent start. -/
theorem Leaves.atInitial {σ α : Type} {semNames : List SemName} {step : σ → α → Option σ}
    {start : MsgQueue → σ} {held : σ → Names} {allowed : σ → ℕ → Prop} {before after : Names}
    (h : Leaves semNames step start held allowed before after)
    (hbefore : ∀ n, AtInitial before n)
    (hend : ∀ memory s k, Reaches step anything (start memory) s → allowed s k →
      semNames.length ≤ k ∨ ∀ n ∈ semNames, AtInitial (held s) n)
    (hother : ∀ s n, n ∉ semNames → AtInitial (held s) n) : ∀ n, AtInitial after n := by
  cases h with
  | init k => exact foldl_semOpen_atInitial hbefore _
  | run memory s k reach ok =>
      exact foldl_semUnlink_atInitial (hend memory s k reach ok) (hother s)

/-! ## The state that a run ends in -/

theorem count_eq_zero_iff {at? : Pc → Bool} {ws : List Worker} :
    count at? ws = 0 ↔ ∀ w ∈ ws, at? w.pc = false := by
  rw [count, tally_toNat, List.countP_eq_zero]
  simp

/-- The semaphores are back at their initial values exactly in a quiet state. -/
theorem Balanced.quiet_iff {L : Type} {prog : Program L} {sh : Shared L} {ws : List Worker}
    (hb : Balanced prog sh ws) : sh.freeSpace = msgMax ∧ sh.items = 0 ↔ Quiet sh ws := by
  have hitems := hb.items
  have hslots := hb.slots
  constructor
  · rintro ⟨hfree, hzero⟩
    have hput := count_eq_zero_iff.mp (show count Pc.aboutToPut ws = 0 by omega)
    have hpostItems := count_eq_zero_iff.mp (show count Pc.aboutToPostItems ws = 0 by omega)
    have hget := count_eq_zero_iff.mp (show count Pc.aboutToGet ws = 0 by omega)
    have hpostFree := count_eq_zero_iff.mp (show count Pc.aboutToPostFreeSpace ws = 0 by omega)
    refine ⟨by omega, fun w hw => ?_⟩
    simp [Pc.holdsSlot, hput w hw, hpostItems w hw, hget w hw, hpostFree w hw]
  · rintro ⟨hamount, hws⟩
    simp only [Pc.holdsSlot, Bool.or_eq_false_iff] at hws
    have hput := count_eq_zero_iff.mpr fun w hw => (hws w hw).1.1.1
    have hpostFree := count_eq_zero_iff.mpr fun w hw => (hws w hw).2
    omega

theorem Quiet.mutex_free {L : Type} {prog : Program L} {sh : Shared L} {ws : List Worker}
    (hb : Balanced prog sh ws) (hq : Quiet sh ws) : prog.lock.free sh.mutex = 1 := by
  have hmutex := hb.mutex
  have hout : count Pc.inCriticalSection ws = 0 := by
    refine count_eq_zero_iff.mpr fun w hw => Bool.eq_false_iff.mpr fun hinside => ?_
    exact Bool.eq_false_iff.mp (hq.2 w hw) (holdsSlot_of_inCriticalSection hinside)
  omega

end Ipc

namespace Lab4

theorem startsConsistent_iff (names : Names) :
    StartsConsistent names ↔ ∀ n ∈ semNames, AtInitial names n := by
  have hamount : ∀ memory, (start memory names).shared.queue.msgAmount.toNat = 0 :=
    fun _ => rfl
  rw [← opened_iff]
  simp only [StartsConsistent, hamount, Nat.sub_zero, semNames, List.mem_cons, List.not_mem_nil,
    or_false, forall_eq_or_imp, forall_eq]
  exact ⟨fun h => ⟨(h zeroMemory).2.2, (h zeroMemory).1, (h zeroMemory).2.1⟩,
    fun h _ => ⟨h.2.1, h.2.2, h.1⟩⟩

theorem start_eq_init {names : Names} (h : StartsConsistent names) (memory : MsgQueue) :
    start memory names = init memory := by
  have hopened := opened_iff.mpr ((startsConsistent_iff names).mp h)
  rw [start, hopened .mutex (by decide), hopened .freeSpace (by decide),
    hopened .items (by decide)]
  rfl

/-- A run from a consistent start that unlinks nothing leaves a consistent start exactly if
it ends in a quiet state. -/
theorem held_startsConsistent_iff {names : Names} {memory : MsgQueue} {s : State}
    (hnames : StartsConsistent names) (h : Reaches step anything (start memory names) s) :
    StartsConsistent (held s) ↔ Quiet s.shared s.workers := by
  rw [start_eq_init hnames] at h
  have hb := balanced_of_reaches h
  rw [startsConsistent_iff, ← hb.quiet_iff]
  simp only [semNames, List.mem_cons, List.not_mem_nil, or_false, forall_eq_or_imp, forall_eq,
    AtInitial, held, reduceCtorEq, false_or, Option.some.injEq, SemName.initial]
  exact and_iff_right_of_imp fun hback => (hb.quiet_iff.mp hback).mutex_free hb

theorem leaves_atInitial {before after : Names} (h : Leaves EndsClean before after)
    (hbefore : ∀ n, AtInitial before n) : ∀ n, AtInitial after n := by
  have hnames := (startsConsistent_iff before).mpr fun n _ => hbefore n
  refine h.atInitial hbefore (fun _ s _ reach ok => ok.imp_right fun hquiet => ?_)
    fun _ n hn => ?_
  · exact (startsConsistent_iff _).mp ((held_startsConsistent_iff hnames reach).mpr hquiet)
  · cases n <;> exact absurd (by decide) hn

end Lab4

namespace Lab5

theorem startsConsistent_iff (names : Names) :
    StartsConsistent names ↔ ∀ n ∈ semNames, AtInitial names n := by
  have hamount : ∀ memory, (start memory names).shared.queue.msgAmount.toNat = 0 :=
    fun _ => rfl
  rw [← opened_iff]
  simp only [StartsConsistent, hamount, Nat.sub_zero, semNames, List.mem_cons, List.not_mem_nil,
    or_false, forall_eq_or_imp, forall_eq]
  exact ⟨fun h => h zeroMemory, fun h _ => h⟩

theorem start_eq_init {names : Names} (h : StartsConsistent names) (memory : MsgQueue) :
    start memory names = init memory := by
  have hopened := opened_iff.mpr ((startsConsistent_iff names).mp h)
  rw [start, hopened .freeSpace (by decide), hopened .items (by decide)]
  rfl

/-- A run from a consistent start that unlinks nothing leaves a consistent start exactly if
it ends in a quiet state. -/
theorem held_startsConsistent_iff {names : Names} {memory : MsgQueue} {s : State}
    (hnames : StartsConsistent names) (h : Reaches step anything (start memory names) s) :
    StartsConsistent (held names s) ↔ Quiet s.shared s.workers := by
  rw [start_eq_init hnames] at h
  have hb := balanced_of_reaches h
  rw [startsConsistent_iff, ← hb.quiet_iff]
  simp [semNames, AtInitial, held, SemName.initial]

theorem leaves_atInitial {before after : Names} (h : Leaves EndsClean before after)
    (hbefore : ∀ n, AtInitial before n) : ∀ n, AtInitial after n := by
  have hnames := (startsConsistent_iff before).mpr fun n _ => hbefore n
  refine h.atInitial hbefore (fun _ s _ reach ok => ok.imp_right fun hquiet => ?_)
    fun _ n hn => ?_
  · exact (startsConsistent_iff _).mp ((held_startsConsistent_iff hnames reach).mpr hquiet)
  · cases n with
    | mutex => exact hbefore .mutex
    | freeSpace | items => exact absurd (by decide) hn

end Lab5

namespace Ipc

theorem Left.atInitial {names : Names} (h : Left Lab4.EndsClean Lab5.EndsClean names) :
    ∀ n, AtInitial names n := by
  induction h with
  | refl => exact fun _ => .inl rfl
  | tail _ hlast ih =>
      rcases hlast with hlast | hlast
      · exact Lab4.leaves_atInitial hlast ih
      · exact Lab5.leaves_atInitial hlast ih

/-- A start is consistent exactly if each of its semaphores is missing or has its initial
value. This is so after every history whose runs unlinked their names or ended quietly, and
after a run that was killed it is so only then. -/
theorem restart_consistent_iff (names : Names) (memory : MsgQueue) :
    ((Lab4.StartsConsistent names ↔ ∀ n ∈ Lab4.semNames, AtInitial names n) ∧
      (Lab5.StartsConsistent names ↔ ∀ n ∈ Lab5.semNames, AtInitial names n)) ∧
    (Left Lab4.EndsClean Lab5.EndsClean names →
      Lab4.StartsConsistent names ∧ Lab5.StartsConsistent names) ∧
    (∀ s, Lab4.StartsConsistent names →
      Reaches Lab4.step anything (Lab4.start memory names) s →
      (Lab4.StartsConsistent (Lab4.held s) ↔ Quiet s.shared s.workers)) ∧
    ∀ s, Lab5.StartsConsistent names →
      Reaches Lab5.step anything (Lab5.start memory names) s →
      (Lab5.StartsConsistent (Lab5.held names s) ↔ Quiet s.shared s.workers) :=
  ⟨⟨Lab4.startsConsistent_iff names, Lab5.startsConsistent_iff names⟩,
    fun h => ⟨(Lab4.startsConsistent_iff names).mpr fun n _ => h.atInitial n,
      (Lab5.startsConsistent_iff names).mpr fun n _ => h.atInitial n⟩,
    fun _ hnames h => Lab4.held_startsConsistent_iff hnames h,
    fun _ hnames h => Lab5.held_startsConsistent_iff hnames h⟩

theorem startsConsistent_noNames :
    Lab4.StartsConsistent noNames ∧ Lab5.StartsConsistent noNames :=
  ⟨fun _ => ⟨rfl, rfl, rfl⟩, fun _ => ⟨rfl, rfl⟩⟩

/-- Both programs are killed with a message under way. LAB_4 has unlinked its three names by then or
none of them. -/
theorem restart_consistent_iff_killed :
    ∃ s₄ s₅, exec Lab4.step (Lab4.start zeroMemory noNames) (underWay (.createProducer Msg.zero 0)
        (.createConsumer Msg.zero 0) fun pid => .run pid noRand) = some s₄ ∧
      exec Lab5.step (Lab5.start zeroMemory noNames) (underWay (.createProducer Msg.zero 0)
        (.createConsumer Msg.zero 0) fun tid => .run tid noRand) = some s₅ ∧
      Lab4.StartsConsistent ((Lab4.semNames.take 3).foldl semUnlink (Lab4.held s₄)) ∧
      ¬ Lab4.StartsConsistent (Lab4.held s₄) ∧ ¬ Lab5.StartsConsistent (Lab5.held noNames s₅) := by
  have hrun₄ : ∃ s, exec Lab4.step (Lab4.start zeroMemory noNames)
      (underWay (.createProducer Msg.zero 0) (.createConsumer Msg.zero 0)
        fun pid => .run pid noRand) = some s ∧ s.shared.queue.msgAmount.toNat = 1 :=
    ⟨_, rfl, rfl⟩
  have hrun₅ : ∃ s, exec Lab5.step (Lab5.start zeroMemory noNames)
      (underWay (.createProducer Msg.zero 0) (.createConsumer Msg.zero 0)
        fun tid => .run tid noRand) = some s ∧ s.shared.queue.msgAmount.toNat = 1 :=
    ⟨_, rfl, rfl⟩
  obtain ⟨s₄, hexec₄, hone₄⟩ := hrun₄
  obtain ⟨s₅, hexec₅, hone₅⟩ := hrun₅
  have hreach₄ := reaches_anything_of_exec hexec₄
  have hreach₅ := reaches_anything_of_exec hexec₅
  have hleft : Left Lab4.EndsClean Lab5.EndsClean
      ((Lab4.semNames.take 3).foldl semUnlink (Lab4.held s₄)) :=
    .single (.inl (.run zeroMemory s₄ 3 hreach₄ (.inl (Nat.le_refl 3))))
  obtain ⟨-, hhistory, -, -⟩ := restart_consistent_iff _ zeroMemory
  obtain ⟨-, -, hlab4, hlab5⟩ := restart_consistent_iff noNames zeroMemory
  refine ⟨s₄, s₅, hexec₄, hexec₅, (hhistory hleft).1, fun hconsistent => ?_, fun hconsistent => ?_⟩
  · have hquiet := (hlab4 s₄ startsConsistent_noNames.1 hreach₄).mp hconsistent
    exact absurd hquiet.1 (by rw [hone₄]; decide)
  · have hquiet := (hlab5 s₅ startsConsistent_noNames.2 hreach₅).mp hconsistent
    exact absurd hquiet.1 (by rw [hone₅]; decide)

/-- A producer of LAB_4 puts one message and posts `items`. -/
def putOne : List Lab4.Action :=
  .createProducer Msg.zero 0 :: List.replicate 6 (.run 0 noRand)

/-- LAB_4 is killed with one message in the queue; its next run starts with an empty queue
and one item. -/
theorem restart_inconsistent :
    ¬ ∀ names, Left (fun _ _ => True) (fun _ _ => True) names →
      Lab4.StartsConsistent names ∧ Lab5.StartsConsistent names := by
  intro hall
  have hrun : ∃ s, exec Lab4.step (Lab4.init zeroMemory) putOne = some s ∧
      s.shared.items = 1 := ⟨_, rfl, rfl⟩
  obtain ⟨s, hexec, hone⟩ := hrun
  have hleft : Left (fun _ _ => True) (fun _ _ => True) (Lab4.held s) :=
    .single (.inl (.run zeroMemory s 0 (reaches_anything_of_exec hexec) trivial))
  have hitems := ((hall _ hleft).1 zeroMemory).2.1
  have hopened : (Lab4.start zeroMemory (Lab4.held s)).shared.items = 1 := hone
  have hempty : (Lab4.start zeroMemory (Lab4.held s)).shared.queue.msgAmount.toNat = 0 := rfl
  omega

end Ipc

end OsaspLabs
