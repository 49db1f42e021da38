import OsaspLabs.Ipc.Queue

/-! # The message queue of LAB_7 p1

The counters of `msg_struct` are kept as natural numbers: `add_msg` faults before any of
them can exceed `MSG_MAX`, and `get_msg` decrements `message_amount` only above 0. -/

namespace OsaspLabs.Lab7

open Ipc (Fault)

def msgMax : ℕ := 4096

def childMax : ℕ := 1024

def dataMax : ℕ := 256 * 3 + 1

structure Msg where
  type : Int32
  hash : Int32
  size : Int32
  data : Vector Int8 dataMax

structure MsgStruct where
  produceCount : ℕ
  consumeCount : ℕ
  messageAmount : ℕ
  head : ℕ
  tail : ℕ
  buffer : Vector Msg msgMax

/-- `RED` of `color_print.h`. -/
def red (x : String) : String := "\x1b[0;31m" ++ x ++ "\x1b[0m"

def overflow : Fault := .exit (red "Queue buffer overflow\n")

def underflow : Fault := .exit (red "Queue buffer underflow\n")

/-- The message that `memset` with 0 leaves. -/
def Msg.zero : Msg := ⟨0, 0, 0, Vector.replicate dataMax 0⟩

/-- `init_queue` assigns the fields of the shared memory one by one. -/
def initQueue (queue : MsgStruct) : MsgStruct :=
  { queue with
    produceCount := 0
    consumeCount := 0
    messageAmount := 0
    head := 0
    tail := 0
    buffer := Vector.replicate msgMax Msg.zero }

/-- djb2 over the loop counter, cut to an `int`. -/
def hash (msg : Msg) : Int32 :=
  ((List.range (msg.size + 4).toInt.toNat).foldl
    (fun (hash : UInt64) i => ((hash <<< 5) + hash) + UInt64.ofNat i) 5381).toUInt32.toInt32

/-- `head` is never wrapped: the write number `MSG_MAX` falls outside `buffer`. -/
def addMsg (q : MsgStruct) (msg : Msg) : Except Fault (ℕ × MsgStruct) :=
  if q.messageAmount = msgMax - 1 then .error overflow
  else if h : q.head < msgMax then
    .ok (q.produceCount + 1,
      { q with
        buffer := q.buffer.set q.head msg h
        head := q.head + 1
        messageAmount := q.messageAmount + 1
        produceCount := q.produceCount + 1 })
  else .error .outOfBounds

def getMsg (q : MsgStruct) : Except Fault (Msg × ℕ × MsgStruct) :=
  if q.messageAmount = 0 then .error underflow
  else if h : q.tail < msgMax then
    .ok (q.buffer[q.tail], q.consumeCount + 1,
      { q with
        tail := q.tail + 1
        messageAmount := q.messageAmount - 1
        consumeCount := q.consumeCount + 1 })
  else .error .outOfBounds

/-- What `rand` delivers to one call of `produce`. -/
structure Rand where
  value : Fin 257
  bytes : Fin dataMax → Int8

def noRand : Rand := ⟨0, fun _ => 0⟩

def produce (rnd : Rand) (msg : Msg) : Msg :=
  let filled : Msg :=
    { msg with
      data := Vector.ofFn fun i => if i.val < rnd.value.val then rnd.bytes i else msg.data[i] }
  let typed : Msg :=
    if rnd.value.val = 256 then { filled with type := -1 }
    else { filled with type := 0, size := Int32.ofNat rnd.value.val }
  { typed with hash := hash typed }

/-- Whether `consume` reports a mismatch on `stderr`. -/
def consume (msg : Msg) : Bool := msg.hash != hash msg

/-- The counters of a queue that only `add_msg` and `get_msg` have used. -/
structure Counted (q : MsgStruct) : Prop where
  produced : q.produceCount = q.head
  consumed : q.consumeCount = q.tail
  amount : q.head = q.tail + q.messageAmount
  head_le : q.head ≤ msgMax
  amount_lt : q.messageAmount < msgMax

theorem counted_initQueue (q : MsgStruct) : Counted (initQueue q) :=
  ⟨rfl, rfl, rfl, Nat.zero_le _, Nat.zero_lt_succ _⟩

theorem addMsg_counted {q q' : MsgStruct} {m : Msg} {n : ℕ} (hq : Counted q)
    (h : addMsg q m = .ok (n, q')) : Counted q' := by
  unfold addMsg at h
  split at h
  · cases h
  · rename_i hfull
    split at h
    · rename_i hhead
      obtain ⟨_, rfl⟩ := Prod.mk.inj (Except.ok.inj h)
      have hamount := hq.amount
      have hlt := hq.amount_lt
      refine ⟨?_, hq.consumed, ?_, hhead, ?_⟩
      · exact congrArg (· + 1) hq.produced
      · dsimp only
        omega
      · dsimp only
        omega
    · cases h

theorem getMsg_counted {q q' : MsgStruct} {m : Msg} {n : ℕ} (hq : Counted q)
    (h : getMsg q = .ok (m, n, q')) : Counted q' := by
  unfold getMsg at h
  split at h
  · cases h
  · rename_i hempty
    split at h
    · obtain ⟨_, hrest⟩ := Prod.mk.inj (Except.ok.inj h)
      obtain ⟨_, rfl⟩ := Prod.mk.inj hrest
      have hamount := hq.amount
      have hlt := hq.amount_lt
      refine ⟨hq.produced, ?_, ?_, hq.head_le, ?_⟩
      · exact congrArg (· + 1) hq.consumed
      · dsimp only
        omega
      · dsimp only
        omega
    · cases h

theorem addMsg_error {q : MsgStruct} {m : Msg} {e : Fault} (hq : Counted q)
    (h : addMsg q m = .error e) : q.messageAmount = msgMax - 1 ∨ q.head = msgMax := by
  have hle := hq.head_le
  unfold addMsg at h
  split at h
  · exact .inl ‹_›
  · split at h
    · cases h
    · exact .inr (by omega)

theorem getMsg_ok {q : MsgStruct} (hq : Counted q) (hsome : q.messageAmount ≠ 0) :
    ∃ r, getMsg q = .ok r := by
  have htail : q.tail < msgMax := by
    have hamount := hq.amount
    have hle := hq.head_le
    omega
  exact ⟨_, by rw [getMsg, if_neg hsome, dif_pos htail]⟩

end OsaspLabs.Lab7
