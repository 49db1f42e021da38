import OsaspLabs.Ipc.Checksum
import OsaspLabs.Ipc.FineWorkers

/-! # What the queue delivers over a run

The messages sent and received are read off the events of a run. -/

namespace OsaspLabs.Ipc

variable {L : Type}

def Event.sent : Event → Option Msg
  | .put _ msg _ => some msg
  | .got .. => none

def Event.received : Event → Option Msg
  | .put .. => none
  | .got _ msg _ => some msg

/-- The number that `put_msg` returned. -/
def Event.addCount : Event → Option UInt64
  | .put _ _ count => some count
  | .got .. => none

def Event.extractCount : Event → Option UInt64
  | .put .. => none
  | .got _ _ count => some count

def sent (es : List Event) : List Msg := es.filterMap Event.sent

def received (es : List Event) : List Msg := es.filterMap Event.received

/-- Every message that was put has been got, in order and once, or is still in the queue. -/
structure Delivered (es : List Event) (q : MsgQueue) (f : Fifo Msg (msgMax - 1)) : Prop where
  represents : Represents q f
  conserves : sent es = received es ++ f.items
  added : q.addCount = UInt64.ofNat (sent es).length
  extracted : q.extractCount = UInt64.ofNat (received es).length
  addCounts : es.filterMap Event.addCount = countsFrom 0 (sent es).length
  extractCounts : es.filterMap Event.extractCount = countsFrom 0 (received es).length

theorem countsFrom_append (n : ℕ) :
    countsFrom 0 n ++ [UInt64.ofNat n + 1] = countsFrom 0 (n + 1) := by
  simp [countsFrom, List.range_succ]

theorem Delivered.init {q : MsgQueue} (h : Represents q Fifo.empty) (hadd : q.addCount = 0)
    (hextract : q.extractCount = 0) : Delivered [] q Fifo.empty where
  represents := h
  conserves := rfl
  added := hadd
  extracted := hextract
  addCounts := rfl
  extractCounts := rfl

theorem Delivered.put {es : List Event} {q q' : MsgQueue} {f : Fifo Msg (msgMax - 1)} {m : Msg}
    {n : UInt64} (h : Delivered es q f) (self : ℕ) (hput : putMsg q m = .ok (n, q')) :
    ∃ f', Delivered (es ++ [.put self m n]) q' f' := by
  by_cases hroom : f.items.length < msgMax - 1
  · obtain ⟨-, q₁, g, hok, hpush, hrep, hadd, hext⟩ := putMsg_room h.represents hroom m
    obtain ⟨rfl, rfl⟩ := Prod.mk.inj (Except.ok.inj (hok.symm.trans hput))
    have hsent : sent (es ++ [.put self m (q.addCount + 1)]) = sent es ++ [m] := by
      simp [sent, Event.sent]
    have hreceived : received (es ++ [.put self m (q.addCount + 1)]) = received es := by
      simp [received, Event.received]
    refine ⟨g, hrep, ?_, ?_, ?_, ?_, ?_⟩
    · rw [hsent, hreceived, h.conserves, Fifo.push?_items hpush, List.append_assoc]
    · rw [hadd, hsent, h.added, List.length_append, List.length_singleton]
      exact (UInt64.ofNat_add _ 1).symm
    · rw [hext, h.extracted, hreceived]
    · rw [hsent, List.length_append, List.length_singleton, ← countsFrom_append, ← h.addCounts,
        ← h.added]
      simp [Event.addCount]
    · rw [hreceived, ← h.extractCounts]
      simp [Event.extractCount]
  · have hfull : f.items.length = msgMax - 1 := by
      have := f.fits
      omega
    rw [putMsg_full h.represents hfull m] at hput
    cases hput

theorem Delivered.get {es : List Event} {q q' : MsgQueue} {f : Fifo Msg (msgMax - 1)} {m : Msg}
    {n : UInt64} (h : Delivered es q f) (self : ℕ) (hget : getMsg q = .ok (m, n, q')) :
    ∃ f', Delivered (es ++ [.got self m n]) q' f' := by
  cases hitems : f.items with
  | nil =>
      rw [getMsg_empty h.represents hitems] at hget
      cases hget
  | cons x rest =>
      obtain ⟨-, q₁, g, hok, hpop, hrep, hadd, hext⟩ := getMsg_item h.represents hitems
      obtain ⟨rfl, hrest⟩ := Prod.mk.inj (Except.ok.inj (hok.symm.trans hget))
      obtain ⟨rfl, rfl⟩ := Prod.mk.inj hrest
      have hsent : sent (es ++ [.got self x (q.extractCount + 1)]) = sent es := by
        simp [sent, Event.sent]
      have hreceived : received (es ++ [.got self x (q.extractCount + 1)]) =
          received es ++ [x] := by
        simp [received, Event.received]
      refine ⟨g, hrep, ?_, ?_, ?_, ?_, ?_⟩
      · rw [hsent, hreceived, h.conserves, Fifo.pop?_items hpop, List.append_assoc]
        rfl
      · rw [hadd, h.added, hsent]
      · rw [hext, hreceived, h.extracted, List.length_append, List.length_singleton]
        exact (UInt64.ofNat_add _ 1).symm
      · rw [hsent, ← h.addCounts]
        simp [Event.addCount]
      · rw [hreceived, List.length_append, List.length_singleton, ← countsFrom_append,
          ← h.extractCounts, ← h.extracted]
        simp [Event.extractCount]

/-- A step of a worker outside the queue calls leaves the queue alone. -/
theorem Delivered.step {prog : Program L} {self : ℕ} {rnd : Rand} {sh sh' : Shared L}
    {w w' : Worker} {es : List Event} {f : Fifo Msg (msgMax - 1)} (h : Delivered es sh.queue f)
    (hstep : workerStep prog self rnd sh w = .next sh' w') :
    ∃ f', Delivered (es ++ workerEvents self sh w) sh'.queue f' := by
  by_cases hput : w.pc = .producer .putMsg
  · simp only [workerStep, hput, producerStep] at hstep
    split at hstep
    · cases hstep
    · rename_i n q hcall
      obtain ⟨rfl, rfl⟩ := Outcome.next.inj hstep
      simp only [workerEvents, hput, hcall]
      exact h.put self hcall
  · by_cases hget : w.pc = .consumer .getMsg
    · simp only [workerStep, hget, consumerStep] at hstep
      split at hstep
      · cases hstep
      · rename_i m n q hcall
        obtain ⟨rfl, rfl⟩ := Outcome.next.inj hstep
        simp only [workerEvents, hget, hcall]
        exact h.get self hcall
    · obtain ⟨hqueue, -⟩ := workerStep_withQueue hput hget hstep sh.queue
      rw [workerEvents_outside hput hget, List.append_nil, hqueue]
      exact ⟨f, h⟩

/-- What consumers have received is what producers have sent, from the first message on; at
most `MSG_MAX - 1` messages are on their way, and both ends number theirs from 1 on. -/
structure InOrder (es : List Event) : Prop where
  received : received es <+: sent es
  under_way : (sent es).length ≤ (Ipc.received es).length + (msgMax - 1)
  addCounts : es.filterMap Event.addCount = countsFrom 0 (sent es).length
  extractCounts : es.filterMap Event.extractCount = countsFrom 0 (Ipc.received es).length

theorem Delivered.inOrder {es : List Event} {q : MsgQueue} {f : Fifo Msg (msgMax - 1)}
    (h : Delivered es q f) : InOrder es where
  received := ⟨f.items, h.conserves.symm⟩
  under_way := by
    have hfits := f.fits
    rw [h.conserves, List.length_append]
    omega
  addCounts := h.addCounts
  extractCounts := h.extractCounts

/-! ## The checksums -/

/-- The message carries its own checksum. -/
def Hashed (m : Msg) : Prop := m.hash = hash m

/-- The message is hashed from `produce_msg` to `put_msg` and from `get_msg` to `consume_msg`, so
nothing is reported. -/
def Worker.Sound (w : Worker) : Prop :=
  match w.pc with
  | .producer .waitFreeSpace | .producer .lock | .producer .putMsg => Hashed w.msg
  | .consumer .unlock | .consumer .postFreeSpace | .consumer .consumeMsg => Hashed w.msg
  | .consumer .fprintf => False
  | _ => True

theorem Hashed.consumeMsg {m : Msg} (h : Hashed m) : (consumeMsg m).2 = false :=
  consumeMsg_of_size h rfl rfl

/-- A message that has been received is one that was sent. -/
theorem Delivered.received_sent {es : List Event} {q : MsgQueue} {f : Fifo Msg (msgMax - 1)}
    (h : Delivered es q f) {m : Msg} (hm : m ∈ received es) : m ∈ sent es := by
  rw [h.conserves]
  exact List.mem_append_left _ hm

theorem Worker.Sound.step {prog : Program L} {self : ℕ} {rnd : Rand} {sh sh' : Shared L}
    {w w' : Worker} {es : List Event} {f : Fifo Msg (msgMax - 1)}
    (hproduce : ∀ rnd m, Hashed (prog.produceMsg rnd m)) (h : w.Sound)
    (hd : Delivered es sh.queue f) (hsent : ∀ m ∈ sent es, Hashed m)
    (hstep : workerStep prog self rnd sh w = .next sh' w') :
    w'.Sound ∧ ∀ m ∈ sent (es ++ workerEvents self sh w), Hashed m := by
  obtain ⟨f', hd'⟩ := hd.step hstep
  obtain ⟨pc, msg, counter⟩ := w
  rcases pc with pc | pc
  · cases pc with
    | produceMsg =>
        obtain ⟨rfl, rfl⟩ := Outcome.next.inj hstep
        exact ⟨hproduce rnd msg, by simpa [workerEvents] using hsent⟩
    | waitFreeSpace =>
        simp only [workerStep, producerStep] at hstep
        split at hstep
        · cases hstep
        · obtain ⟨rfl, rfl⟩ := Outcome.next.inj hstep
          exact ⟨h, by simpa [workerEvents] using hsent⟩
    | lock =>
        simp only [workerStep, producerStep] at hstep
        split at hstep
        · cases hstep
        · obtain ⟨rfl, rfl⟩ := Outcome.next.inj hstep
          exact ⟨h, by simpa [workerEvents] using hsent⟩
    | putMsg =>
        simp only [workerStep, producerStep] at hstep
        split at hstep
        · cases hstep
        · rename_i n q hcall
          obtain ⟨rfl, rfl⟩ := Outcome.next.inj hstep
          have hmsg : Hashed msg := h
          refine ⟨trivial, fun m hm => ?_⟩
          simp only [workerEvents, hcall, sent, List.filterMap_append, List.mem_append] at hm
          rcases hm with hm | hm
          · exact hsent m hm
          · obtain rfl : m = msg := by simpa [Event.sent] using hm
            exact hmsg
    | unlock | postItems | printf | sleep =>
        obtain ⟨rfl, rfl⟩ := Outcome.next.inj hstep
        exact ⟨trivial, by simpa [workerEvents] using hsent⟩
  · cases pc with
    | waitItems =>
        simp only [workerStep, consumerStep] at hstep
        split at hstep
        · cases hstep
        · obtain ⟨rfl, rfl⟩ := Outcome.next.inj hstep
          exact ⟨trivial, by simpa [workerEvents] using hsent⟩
    | lock =>
        simp only [workerStep, consumerStep] at hstep
        split at hstep
        · cases hstep
        · obtain ⟨rfl, rfl⟩ := Outcome.next.inj hstep
          exact ⟨trivial, by simpa [workerEvents] using hsent⟩
    | getMsg =>
        simp only [workerStep, consumerStep] at hstep
        split at hstep
        · cases hstep
        · rename_i m n q hcall
          obtain ⟨rfl, rfl⟩ := Outcome.next.inj hstep
          have hevents : workerEvents self sh ⟨.consumer .getMsg, msg, counter⟩ =
              [.got self m n] := by simp only [workerEvents, hcall]
          have hsame : sent (es ++ [.got self m n]) = sent es := by simp [sent, Event.sent]
          rw [hevents] at hd' ⊢
          rw [hsame]
          refine ⟨hsent m ?_, hsent⟩
          rw [← hsame]
          exact hd'.received_sent (by simp [received, Event.received])
    | unlock | postFreeSpace =>
        obtain ⟨rfl, rfl⟩ := Outcome.next.inj hstep
        exact ⟨h, by simpa [workerEvents] using hsent⟩
    | consumeMsg =>
        obtain ⟨rfl, rfl⟩ := Outcome.next.inj hstep
        have hmsg : Hashed msg := h
        refine ⟨?_, by simpa [workerEvents] using hsent⟩
        simp only [hmsg.consumeMsg]
        trivial
    | fprintf => exact h.elim
    | printf | sleep =>
        obtain ⟨rfl, rfl⟩ := Outcome.next.inj hstep
        exact ⟨trivial, by simpa [workerEvents] using hsent⟩

/-- What holds of a system whose producers hash what they send. -/
structure SoundRun (es : List Event) (sh : Shared L) (ws : List Worker) : Prop where
  delivered : ∃ f, Delivered es sh.queue f
  sent : ∀ m ∈ sent es, Hashed m
  workers : ∀ w ∈ ws, w.Sound

theorem SoundRun.step {prog : Program L} {self : ℕ} {rnd : Rand} {sh sh' : Shared L}
    {w w' : Worker} {es : List Event} {ws : List Worker}
    (hproduce : ∀ rnd m, Hashed (prog.produceMsg rnd m)) (h : SoundRun es sh ws)
    (hself : ws[self]? = some w) (hstep : workerStep prog self rnd sh w = .next sh' w') :
    SoundRun (es ++ workerEvents self sh w) sh' (ws.set self w') := by
  obtain ⟨f, hd⟩ := h.delivered
  have hw := h.workers w (List.mem_of_getElem? hself)
  obtain ⟨hsound, hsent⟩ := hw.step hproduce hd h.sent hstep
  exact ⟨hd.step hstep, hsent, forall_mem_set h.workers hsound⟩

/-- A worker at the start of its loop. -/
def Worker.Starts (w : Worker) : Prop :=
  w.pc = .producer .produceMsg ∨ w.pc = .consumer .waitItems

theorem Worker.Starts.sound {w : Worker} (h : w.Starts) : w.Sound := by
  rcases h with h | h <;> (rw [Worker.Sound, h]; trivial)

theorem SoundRun.more {es : List Event} {sh : Shared L} {ws vs : List Worker}
    (h : SoundRun es sh ws) (hvs : ∀ v ∈ vs, v.Starts) : SoundRun es sh (ws ++ vs) where
  delivered := h.delivered
  sent := h.sent
  workers := List.forall_mem_append.mpr ⟨h.workers, fun v hv => (hvs v hv).sound⟩

end OsaspLabs.Ipc
