import OsaspLabs.Ipc.Checksum
import OsaspLabs.Lab7.Minus
import OsaspLabs.Lab7.Ring
import OsaspLabs.Library.Traces

/-! # What the queue of LAB_7 p1 delivers over a run

The messages added and taken are read off the steps of a run, whichever thread does them. -/

namespace OsaspLabs.Lab7

open Ipc (Fault)
open Runs

/-- A call of the queue that a thread has done, with the number that it returned. -/
inductive Event where
  | added (tid : ℕ) (msg : Msg) (count : ℕ)
  | taken (tid : ℕ) (msg : Msg) (count : ℕ)

def Event.sent : Event → Option Msg
  | .added _ msg _ => some msg
  | .taken .. => none

def Event.received : Event → Option Msg
  | .added .. => none
  | .taken _ msg _ => some msg

def Event.addCount : Event → Option ℕ
  | .added _ _ count => some count
  | .taken .. => none

def Event.takeCount : Event → Option ℕ
  | .added .. => none
  | .taken _ _ count => some count

def sent (es : List Event) : List Msg := es.filterMap Event.sent

def received (es : List Event) : List Msg := es.filterMap Event.received

/-- What the next step of a thread does to the queue. -/
def threadEvents (self : ℕ) (q : MsgStruct) (th : Thread) : List Event :=
  match th.pc with
  | .access =>
      match th.role with
      | .producer =>
          match addMsg q th.msg with
          | .ok (n, _) => [.added self th.msg n]
          | .error _ => []
      | .consumer =>
          match getMsg q with
          | .ok (msg, n, _) => [.taken self msg n]
          | .error _ => []
  | _ => []

def shows (s : State) : Action → List Event
  | .run tid _ =>
      match s.threads[tid]? with
      | some th => threadEvents tid s.queue th
      | none => []
  | _ => []

/-! ## The queue -/

/-- Every message that was added has been taken, in order and once, or is still in the queue. -/
structure Delivered (es : List Event) (q : MsgStruct) (f : Fifo Msg (msgMax - 1)) : Prop where
  represents : Represents q f
  conserves : sent es = received es ++ f.items
  produced : q.produceCount = (sent es).length
  consumed : q.consumeCount = (received es).length
  addCounts : es.filterMap Event.addCount = List.range' 1 (sent es).length
  takeCounts : es.filterMap Event.takeCount = List.range' 1 (received es).length

theorem Delivered.init (memory : MsgStruct) : Delivered [] (initQueue memory) Fifo.empty where
  represents := represents_initQueue memory
  conserves := rfl
  produced := rfl
  consumed := rfl
  addCounts := rfl
  takeCounts := rfl

theorem addMsg_counts {q q' : MsgStruct} {m : Msg} {n : ℕ} (h : addMsg q m = .ok (n, q')) :
    n = q.produceCount + 1 ∧ q'.produceCount = q.produceCount + 1 ∧
      q'.consumeCount = q.consumeCount := by
  unfold addMsg at h
  split at h
  · cases h
  · split at h
    · obtain ⟨rfl, rfl⟩ := Prod.mk.inj (Except.ok.inj h)
      exact ⟨rfl, rfl, rfl⟩
    · cases h

theorem getMsg_counts {q q' : MsgStruct} {m : Msg} {n : ℕ} (h : getMsg q = .ok (m, n, q')) :
    n = q.consumeCount + 1 ∧ q'.consumeCount = q.consumeCount + 1 ∧
      q'.produceCount = q.produceCount := by
  unfold getMsg at h
  split at h
  · cases h
  · split at h
    · obtain ⟨_, hrest⟩ := Prod.mk.inj (Except.ok.inj h)
      obtain ⟨rfl, rfl⟩ := Prod.mk.inj hrest
      exact ⟨rfl, rfl, rfl⟩
    · cases h

/-- A call that works is one of the bounded queue. -/
theorem Represents.add {q q' : MsgStruct} {f : Fifo Msg (msgMax - 1)} {m : Msg} {n : ℕ}
    (h : Represents q f) (hadd : addMsg q m = .ok (n, q')) :
    ∃ g, Represents q' g ∧ g.items = f.items ++ [m] := by
  by_cases hroom : f.items.length < msgMax - 1
  · by_cases hhead : q.head < msgMax
    · obtain ⟨n₁, q₁, g, hok, hpush, hrep, -⟩ := addMsg_room h hroom hhead m
      obtain ⟨rfl, rfl⟩ := Prod.mk.inj (Except.ok.inj (hok.symm.trans hadd))
      exact ⟨g, hrep, Fifo.push?_items hpush⟩
    · rw [addMsg_outside h hroom hhead m] at hadd
      cases hadd
  · have hfits := f.fits
    rw [addMsg_full h (by omega) m] at hadd
    cases hadd

theorem Represents.get {q q' : MsgStruct} {f : Fifo Msg (msgMax - 1)} {m : Msg} {n : ℕ}
    (h : Represents q f) (hget : getMsg q = .ok (m, n, q')) :
    ∃ g, Represents q' g ∧ f.items = m :: g.items := by
  cases hitems : f.items with
  | nil =>
      rw [getMsg_empty h hitems] at hget
      cases hget
  | cons x rest =>
      obtain ⟨-, n₁, q₁, g, hok, hpop, hrep, -⟩ := getMsg_item h hitems
      obtain ⟨rfl, hrest⟩ := Prod.mk.inj (Except.ok.inj (hok.symm.trans hget))
      obtain ⟨-, rfl⟩ := Prod.mk.inj hrest
      exact ⟨g, hrep, hitems ▸ Fifo.pop?_items hpop⟩

theorem Delivered.add {es : List Event} {q q' : MsgStruct} {f : Fifo Msg (msgMax - 1)} {m : Msg}
    {n : ℕ} (h : Delivered es q f) (tid : ℕ) (hadd : addMsg q m = .ok (n, q')) :
    ∃ g, Delivered (es ++ [.added tid m n]) q' g := by
  obtain ⟨g, hrep, hitems⟩ := h.represents.add hadd
  obtain ⟨hn, hproduced, hconsumed⟩ := addMsg_counts hadd
  have hsent : sent (es ++ [.added tid m n]) = sent es ++ [m] := by
    simp [sent, Event.sent]
  have hreceived : received (es ++ [.added tid m n]) = received es := by
    simp [received, Event.received]
  refine ⟨g, hrep, ?_, ?_, ?_, ?_, ?_⟩
  · rw [hsent, hreceived, h.conserves, hitems, List.append_assoc]
  · rw [hproduced, hsent, h.produced, List.length_append, List.length_singleton]
  · rw [hconsumed, hreceived, h.consumed]
  · rw [hsent, List.length_append, List.length_singleton, List.range'_concat, ← h.addCounts, hn,
      h.produced]
    simp [Event.addCount, Nat.add_comm]
  · rw [hreceived, ← h.takeCounts]
    simp [Event.takeCount]

theorem Delivered.get {es : List Event} {q q' : MsgStruct} {f : Fifo Msg (msgMax - 1)} {m : Msg}
    {n : ℕ} (h : Delivered es q f) (tid : ℕ) (hget : getMsg q = .ok (m, n, q')) :
    ∃ g, Delivered (es ++ [.taken tid m n]) q' g := by
  obtain ⟨g, hrep, hitems⟩ := h.represents.get hget
  obtain ⟨hn, hconsumed, hproduced⟩ := getMsg_counts hget
  have hsent : sent (es ++ [.taken tid m n]) = sent es := by
    simp [sent, Event.sent]
  have hreceived : received (es ++ [.taken tid m n]) = received es ++ [m] := by
    simp [received, Event.received]
  refine ⟨g, hrep, ?_, ?_, ?_, ?_, ?_⟩
  · rw [hsent, hreceived, h.conserves, hitems, List.append_assoc]
    rfl
  · rw [hproduced, hsent, h.produced]
  · rw [hconsumed, hreceived, h.consumed, List.length_append, List.length_singleton]
  · rw [hsent, ← h.addCounts]
    simp [Event.addCount]
  · rw [hreceived, List.length_append, List.length_singleton, List.range'_concat, ← h.takeCounts,
      hn, h.consumed]
    simp [Event.takeCount, Nat.add_comm]

/-! ## One thread -/

theorem threadEvents_of_ne {self : ℕ} {q : MsgStruct} {th : Thread} (h : th.pc ≠ .access) :
    threadEvents self q th = [] := by
  unfold threadEvents
  split
  · rename_i hat
    exact absurd hat h
  · rfl

/-- A call that ends the program does nothing to the queue. -/
theorem threadEvents_of_exit {self : ℕ} {rnd : Rand} {q : MsgStruct} {m : Option ℕ} {th : Thread}
    {e : Fault} (h : threadStep self rnd q m th = .exit e) : threadEvents self q th = [] := by
  obtain ⟨hpc, hexit⟩ := threadStep_exit h
  unfold threadEvents
  rcases access_exit hexit with ⟨hrole, hadd⟩ | ⟨hrole, hget⟩
  · simp only [hpc, hrole, hadd]
  · simp only [hpc, hrole, hget]

theorem Delivered.step {self : ℕ} {rnd : Rand} {q q' : MsgStruct} {m m' : Option ℕ}
    {th th' : Thread} {es : List Event} {f : Fifo Msg (msgMax - 1)} (h : Delivered es q f)
    (hstep : threadStep self rnd q m th = .next q' m' th') :
    ∃ g, Delivered (es ++ threadEvents self q th) q' g := by
  by_cases hpc : th.pc = .access
  · simp only [threadStep, hpc, access] at hstep
    cases hrole : th.role with
    | producer =>
        simp only [hrole] at hstep
        split at hstep
        · cases hstep
        · rename_i n q₁ hadd
          cases hstep
          simp only [threadEvents, hpc, hrole, hadd]
          exact h.add self hadd
    | consumer =>
        simp only [hrole] at hstep
        split at hstep
        · cases hstep
        · rename_i msg n q₁ hget
          cases hstep
          simp only [threadEvents, hpc, hrole, hget]
          exact h.get self hget
  · rw [threadEvents_of_ne hpc, List.append_nil, threadStep_queue_of_ne hstep hpc]
    exact ⟨f, h⟩

/-! ## The checksums -/

/-- The message carries its own checksum. -/
def Hashed (m : Msg) : Prop := m.hash = hash m

theorem Hashed.consume {m : Msg} (h : Hashed m) : consume m = false := by
  rw [Lab7.consume, show m.hash = hash m from h]
  exact bne_self_eq_false _

/-- The message is hashed from `produce` to `add_msg` and from `get_msg` to `consume`, so nothing
is reported. -/
def Thread.Sound (th : Thread) : Prop :=
  match th.role, th.pc with
  | _, .fprintf | .producer, .checkEmpty | .producer, .consume => False
  | .producer, .lock | .producer, .test | .producer, .wait | .producer, .waiting
  | .producer, .reacquire | .producer, .access => Hashed th.msg
  | .consumer, .signal | .consumer, .unlock | .consumer, .consume => Hashed th.msg
  | _, _ => True

/-- At these places nothing is asked of the message. -/
theorem sound_of_mem {th : Thread} (h : th.pc ∈ [.getchar, .produce, .printf, .sleep, .infoLock,
    .infoPrintf, .infoUnlock, .cancelWait] ∨ ∃ tid, th.pc = .join tid) : th.Sound := by
  rcases h with hmem | ⟨tid, hpc⟩
  · simp only [List.mem_cons, List.not_mem_nil, or_false] at hmem
    rcases hmem with hpc | hpc | hpc | hpc | hpc | hpc | hpc | hpc <;>
      cases hrole : th.role <;> simp [Thread.Sound, hrole, hpc]
  · cases hrole : th.role <;> simp [Thread.Sound, hrole, hpc]

/-- A producer keeps its message while it tries to enter, and again while it waits. -/
theorem Thread.Sound.enter {th th' : Thread} (h : th.Sound)
    (hpc : th.pc ∈ [.lock, .test, .wait, .waiting, .reacquire])
    (hpc' : th'.pc ∈ [.test, .wait, .waiting, .reacquire, .access]) (hrole : th'.role = th.role)
    (hmsg : th'.msg = th.msg) : th'.Sound := by
  simp only [List.mem_cons, List.not_mem_nil, or_false] at hpc hpc'
  cases hat : th.role with
  | producer =>
      have hhashed : Hashed th.msg := by
        rcases hpc with hpc | hpc | hpc | hpc | hpc <;>
          simpa only [Thread.Sound, hat, hpc] using h
      rw [← hmsg] at hhashed
      rcases hpc' with hpc' | hpc' | hpc' | hpc' | hpc' <;>
        simpa only [Thread.Sound, hrole, hat, hpc'] using hhashed
  | consumer =>
      rcases hpc' with hpc' | hpc' | hpc' | hpc' | hpc' <;>
        simp [Thread.Sound, hrole, hat, hpc']

theorem Delivered.received_sent {es : List Event} {q : MsgStruct} {f : Fifo Msg (msgMax - 1)}
    (h : Delivered es q f) {m : Msg} (hm : m ∈ received es) : m ∈ sent es := by
  rw [h.conserves]
  exact List.mem_append_left _ hm

theorem Thread.Sound.step {self : ℕ} {rnd : Rand} {q q' : MsgStruct} {m m' : Option ℕ}
    {th th' : Thread} {es : List Event} {f : Fifo Msg (msgMax - 1)} (h : th.Sound)
    (hd : Delivered es q f) (hsent : ∀ msg ∈ sent es, Hashed msg)
    (hstep : threadStep self rnd q m th = .next q' m' th') :
    th'.Sound ∧ ∀ msg ∈ sent (es ++ threadEvents self q th), Hashed msg := by
  have hsame : th.pc ≠ .access → ∀ msg ∈ sent (es ++ threadEvents self q th), Hashed msg := by
    intro hpc
    rw [threadEvents_of_ne hpc, List.append_nil]
    exact hsent
  cases hpc : th.pc <;> simp only [threadStep, hpc] at hstep
  case getchar | waiting | signal | join => cases hstep
  case checkEmpty =>
    cases hstep
    refine ⟨?_, hsame (by simp [hpc])⟩
    have hrole : th.role = .consumer := by
      cases hrole : th.role with
      | producer => simp [Thread.Sound, hrole, hpc] at h
      | consumer => rfl
    by_cases hempty : q.messageAmount = 0
    · exact sound_of_mem (.inl (by simp [hempty]))
    · simp [Thread.Sound, hrole, hempty]
  case produce =>
    cases hstep
    refine ⟨?_, hsame (by simp [hpc])⟩
    cases hrole : th.role with
    | producer =>
        simp only [Thread.Sound]
        exact produce_hash rnd th.msg
    | consumer => simp [Thread.Sound]
  case lock | reacquire =>
    obtain ⟨-, -, rfl⟩ := lockMutex_next hstep
    exact ⟨h.enter (by simp [hpc]) (by simp) rfl rfl, hsame (by simp [hpc])⟩
  case test =>
    cases hstep
    refine ⟨h.enter (by simp [hpc]) ?_ rfl rfl, hsame (by simp [hpc])⟩
    cases mustWait q th.role <;> simp
  case wait =>
    cases hstep
    exact ⟨h.enter (by simp [hpc]) (by simp) rfl rfl, hsame (by simp [hpc])⟩
  case access =>
    unfold access at hstep
    cases hrole : th.role with
    | producer =>
        have hmsg : Hashed th.msg := by simpa only [Thread.Sound, hrole, hpc] using h
        simp only [hrole] at hstep
        split at hstep
        · cases hstep
        · rename_i n q₁ hadd
          cases hstep
          refine ⟨by simp [Thread.Sound], fun msg hm => ?_⟩
          simp only [threadEvents, hpc, hrole, hadd, sent, List.filterMap_append,
            List.mem_append] at hm
          rcases hm with hm | hm
          · exact hsent msg hm
          · obtain rfl : msg = th.msg := by simpa [Event.sent] using hm
            exact hmsg
    | consumer =>
        simp only [hrole] at hstep
        split at hstep
        · cases hstep
        · rename_i msg n q₁ hget
          cases hstep
          have hevents : threadEvents self q th = [.taken self msg n] := by
            simp only [threadEvents, hpc, hrole, hget]
          have hkept : sent (es ++ [.taken self msg n]) = sent es := by simp [sent, Event.sent]
          obtain ⟨g, hd'⟩ := hd.get self hget
          rw [hevents, hkept]
          refine ⟨?_, hsent⟩
          show Hashed msg
          apply hsent msg
          rw [← hkept]
          exact hd'.received_sent (by simp [received, Event.received])
  case unlock =>
    cases hstep
    refine ⟨?_, hsame (by simp [hpc])⟩
    cases hrole : th.role with
    | producer => simp [Thread.Sound]
    | consumer =>
        have hmsg : Hashed th.msg := by simpa only [Thread.Sound, hrole, hpc] using h
        simpa only [Thread.Sound, hrole] using hmsg
  case consume =>
    cases hstep
    have hmsg : Hashed th.msg := by
      cases hrole : th.role with
      | producer => simp [Thread.Sound, hrole, hpc] at h
      | consumer => simpa only [Thread.Sound, hrole, hpc] using h
    exact ⟨sound_of_mem (.inl (by simp [hmsg.consume])), hsame (by simp [hpc])⟩
  case fprintf => cases hrole : th.role <;> simp [Thread.Sound, hrole, hpc] at h
  case sleep =>
    cases hstep
    refine ⟨?_, hsame (by simp [hpc])⟩
    cases th.role <;> simp [Thread.Sound]
  case printf =>
    cases hstep
    refine ⟨sound_of_mem ?_, hsame (by simp [hpc])⟩
    by_cases hself : self = 0
    · exact .inl (by simp [hself])
    · exact .inl (by simp [hself])
  case infoLock =>
    obtain ⟨-, -, rfl⟩ := lockMutex_next hstep
    exact ⟨sound_of_mem (.inl (by simp)), hsame (by simp [hpc])⟩
  case cancelWait =>
    obtain ⟨-, -, rfl⟩ := lockMutex_next hstep
    exact ⟨sound_of_mem (.inl (by simp)), hsame (by simp [hpc])⟩
  case infoPrintf | infoUnlock =>
    cases hstep
    exact ⟨sound_of_mem (.inl (by simp)), hsame (by simp [hpc])⟩

/-! ## Every run -/

/-- What holds of the messages and the threads at every time. -/
structure SoundRun (es : List Event) (s : State) : Prop where
  delivered : ∃ f, Delivered es s.queue f
  sent : ∀ msg ∈ sent es, Hashed msg
  threads : ∀ th ∈ s.threads, th.Sound

theorem SoundRun.init (memory : MsgStruct) : SoundRun [] (init memory) where
  delivered := ⟨_, .init memory⟩
  sent msg hmsg := by cases hmsg
  threads th hth := by
    rw [List.mem_singleton.mp hth]
    trivial

/-- A step that leaves the queue alone and shows nothing. -/
theorem SoundRun.quiet {es : List Event} {s s' : State} (h : SoundRun es s)
    (hqueue : s'.queue = s.queue) (hthreads : ∀ th ∈ s'.threads, th.Sound) :
    SoundRun (es ++ []) s' := by
  obtain ⟨f, hd⟩ := h.delivered
  rw [List.append_nil]
  exact ⟨⟨f, hqueue ▸ hd⟩, h.sent, hthreads⟩

theorem SoundRun.run {es : List Event} {s s' : State} {tid : ℕ} {rnd : Rand} (h : SoundRun es s)
    (hstep : runThread s tid rnd = some s') : SoundRun (es ++ shows s (.run tid rnd)) s' := by
  obtain ⟨f, hd⟩ := h.delivered
  unfold runThread at hstep
  split at hstep
  · cases hstep
  · rename_i th hth
    simp only [shows, hth]
    split at hstep
    · cases hstep
    · split at hstep
      · cases hstep
      · rename_i q m th' hnext
        obtain rfl := Option.some.inj hstep
        obtain ⟨hsound, hsent⟩ :=
          (h.threads th (List.mem_of_getElem? hth)).step hd h.sent hnext
        exact ⟨hd.step hnext, hsent, forall_mem_set h.threads hsound⟩
      · rename_i e hexit
        obtain rfl := Option.some.inj hstep
        rw [threadEvents_of_exit hexit]
        exact h.quiet rfl h.threads

theorem sound_signal {s s' : State} {tid : ℕ} {woken : Option ℕ}
    (h : ∀ th ∈ s.threads, th.Sound) (hstep : signal s tid woken = some s') :
    s'.queue = s.queue ∧ ∀ th ∈ s'.threads, th.Sound := by
  obtain ⟨th, hth, -, hpc, hwoken⟩ := signal_cases hstep
  have hself : { th with pc := .unlock }.Sound := by
    have hsound := h th (List.mem_of_getElem? hth)
    cases hrole : th.role with
    | producer => simp [Thread.Sound]
    | consumer => simpa only [Thread.Sound, hrole, hpc] using hsound
  have hset := forall_mem_set h (i := tid) hself
  rcases hwoken with ⟨-, rfl⟩ | ⟨w, v, hv, hwaits, rfl⟩
  · exact ⟨rfl, hset⟩
  · refine ⟨rfl, forall_mem_set hset ?_⟩
    simp only [Thread.waitsOn, Bool.and_eq_true, decide_eq_true_eq] at hwaits
    exact (h v (List.mem_of_getElem? hv)).enter (by simp [hwaits.1.2]) (by simp) rfl rfl

theorem sound_command {s : State} {main : Thread} (h : ∀ th ∈ s.threads, th.Sound) (c : Command) :
    (command s main c).queue = s.queue ∧ ∀ th ∈ (command s main c).threads, th.Sound := by
  have hset : ∀ th' : Thread, th'.Sound → ∀ th ∈ s.threads.set 0 th', th.Sound :=
    fun th' hth' => forall_mem_set h hth'
  have hcancel : ∀ tid : ℕ,
      ∀ th ∈ pthreadCancel (s.threads.set 0 { main with pc := .join tid }) tid, th.Sound := by
    intro tid
    exact forall_mem_modify (hset _ (sound_of_mem (.inr ⟨tid, rfl⟩))) fun _ _ hv => hv
  cases c with
  | createProducer msg counter =>
      simp only [command, createProducer]
      split
      · exact ⟨rfl, h⟩
      · refine ⟨rfl, List.forall_mem_append.mpr ⟨h, ?_⟩⟩
        simp [Thread.Sound]
  | createConsumer msg counter =>
      simp only [command, createConsumer]
      split
      · exact ⟨rfl, h⟩
      · refine ⟨rfl, List.forall_mem_append.mpr ⟨h, ?_⟩⟩
        simp [Thread.Sound]
  | removeProducer =>
      simp only [command, removeProducer]
      split
      · exact ⟨rfl, h⟩
      · exact ⟨rfl, hcancel _⟩
  | removeConsumer =>
      simp only [command, removeConsumer]
      split
      · exact ⟨rfl, h⟩
      · exact ⟨rfl, hcancel _⟩
  | info => exact ⟨rfl, hset _ (sound_of_mem (.inl (by simp)))⟩
  | plus => exact ⟨rfl, hset _ (sound_of_mem (.inl (by simp)))⟩
  | minus => exact ⟨rfl, hset _ (by simp [Thread.Sound])⟩

theorem SoundRun.step {es : List Event} {s s' : State} {a : Action} (h : SoundRun es s)
    (hstep : Lab7.step s a = some s') : SoundRun (es ++ shows s a) s' := by
  unfold Lab7.step at hstep
  split at hstep
  · cases hstep
  · cases a with
    | run tid rnd => exact h.run hstep
    | signal tid woken =>
        obtain ⟨hqueue, hthreads⟩ := sound_signal h.threads hstep
        exact h.quiet hqueue hthreads
    | wake tid =>
        obtain ⟨th, hth, -, hpc, rfl⟩ := wake_cases hstep
        refine h.quiet rfl (forall_mem_set h.threads ?_)
        have hsound := h.threads th (List.mem_of_getElem? hth)
        exact hsound.enter (by simp [hpc]) (by simp) rfl rfl
    | cancelled tid =>
        obtain ⟨th, hth, -, -, rfl⟩ := actOnCancel_cases hstep
        refine h.quiet rfl (forall_mem_set h.threads ?_)
        by_cases hpc : th.pc = .waiting
        · rw [if_pos hpc]
          exact sound_of_mem (.inl (by simp))
        · rw [if_neg hpc]
          exact h.threads th (List.mem_of_getElem? hth)
    | joined =>
        obtain ⟨main, tid, -, -, rfl⟩ := pthreadJoined_cases hstep
        exact h.quiet rfl (forall_mem_set h.threads (sound_of_mem (.inl (by simp))))
    | command c =>
        simp only [runCommand] at hstep
        split at hstep
        · cases hstep
        · split at hstep
          · obtain rfl := Option.some.inj hstep
            obtain ⟨hqueue, hthreads⟩ := sound_command h.threads c
            exact h.quiet hqueue hthreads
          · cases hstep

/-- What has been taken is what has been added, from the first message on; at most `MSG_MAX - 1`
messages are on their way, and both ends number theirs from 1 on. -/
structure InOrder (es : List Event) : Prop where
  received : received es <+: sent es
  under_way : (sent es).length ≤ (Lab7.received es).length + (msgMax - 1)
  addCounts : es.filterMap Event.addCount = List.range' 1 (sent es).length
  takeCounts : es.filterMap Event.takeCount = List.range' 1 (Lab7.received es).length

theorem Delivered.inOrder {es : List Event} {q : MsgStruct} {f : Fifo Msg (msgMax - 1)}
    (h : Delivered es q f) : InOrder es where
  received := ⟨f.items, h.conserves.symm⟩
  under_way := by
    have hfits := f.fits
    rw [h.conserves, List.length_append]
    omega
  addCounts := h.addCounts
  takeCounts := h.takeCounts

/-- However the threads, the commands of the user, the removals and the wake-ups interleave, up to
an `add_msg` that finds no room: the messages come out in the order in which they went in, none
twice and none left out, every message taken carries its own checksum, and nobody reports a wrong
one. -/
theorem ring_messages_in_order {memory : MsgStruct} {es : List Event} {s : State}
    (h : Traced Lab7.step shows (init memory) es s) :
    InOrder es ∧ (∀ msg ∈ received es, Hashed msg) ∧ ∀ th ∈ s.threads, th.pc ≠ .fprintf := by
  have hsound : SoundRun es s := h.invariant (I := SoundRun) (.init memory)
    fun _ _ _ _ hu hstep => hu.step hstep
  obtain ⟨f, hd⟩ := hsound.delivered
  refine ⟨hd.inOrder, fun msg hmsg => hsound.sent msg (hd.received_sent hmsg), fun th hth hpc => ?_⟩
  have hfalse := hsound.threads th hth
  cases hrole : th.role <;> simp [Thread.Sound, hrole, hpc] at hfalse

/-- The user's '+' wakes a consumer, and a second one is cancelled where it waits. -/
def plusTaken : List Action :=
  [.command (.createConsumer Msg.zero 0), .command (.createConsumer Msg.zero 0)] ++
    List.replicate 3 (.run 1 noRand) ++ List.replicate 3 (.run 2 noRand) ++
    .command .plus :: List.replicate 4 (.run 0 noRand) ++
    [.signal 0 (some 1), .run 0 noRand, .run 0 noRand, .command .removeConsumer, .cancelled 2] ++
    List.replicate 3 (.run 1 noRand)

theorem ring_messages_in_order_plus :
    ∃ es s, Traced Lab7.step shows (init zeroMemory) es s ∧ (received es).length = 1 ∧
      InOrder es := by
  have hrun : ∃ es s, trace Lab7.step shows (init zeroMemory) plusTaken = some (es, s) ∧
      (received es).length = 1 := ⟨_, _, rfl, rfl⟩
  obtain ⟨es, s, htrace, hlen⟩ := hrun
  exact ⟨es, s, .of_trace htrace, hlen, (ring_messages_in_order (.of_trace htrace)).1⟩

end OsaspLabs.Lab7
