import OsaspLabs.Library.Fifo

/-! # The message queue of LAB_4 and LAB_5

`ipc.c` of the two programs differs only in `msg_queue_init`. A call that ends the
program, or that would touch memory outside `buffer`, has a fault as its result. -/

namespace OsaspLabs.Ipc

def dataMax : ℕ := ((256 + 3) / 4) * 4

def msgMax : ℕ := 4096

def childMax : ℕ := 1024

structure Msg where
  type : Int8
  hash : UInt16
  size : UInt8
  data : Vector UInt8 dataMax
  deriving DecidableEq

structure MsgQueue where
  addCount : UInt64
  extractCount : UInt64
  msgAmount : UInt64
  head : UInt64
  tail : UInt64
  buffer : Vector Msg msgMax

/-- How a call ends instead of returning. -/
inductive Fault where
  /-- `fputs(text, stderr); exit(EXIT_FAILURE)` -/
  | exit (text : String)
  /-- An index outside `buffer`. -/
  | outOfBounds
  deriving DecidableEq, Repr

def overflow : Fault := .exit "Queue buffer overflow\n"

def underflow : Fault := .exit "Queue buffer underflow\n"

/-- The message that `memset` with 0 leaves. -/
def Msg.zero : Msg := ⟨0, 0, 0, Vector.replicate dataMax 0⟩

/-- The zeroed memory of a fresh shared object and of a global variable. -/
def zeroMemory : MsgQueue := ⟨0, 0, 0, 0, 0, Vector.replicate msgMax Msg.zero⟩

/-- djb2 over the loop counter: the payload is not read. -/
def hash (msg : Msg) : UInt16 :=
  ((List.range (msg.size.toNat + 4)).foldl
    (fun (hash : UInt64) i => ((hash <<< 5) + hash) + UInt64.ofNat i) 5381).toUInt16

/-- The index that `put_msg` writes. -/
def putIndex (q : MsgQueue) : UInt64 :=
  if q.head = UInt64.ofNat msgMax then 0 else q.head

/-- The index that `get_msg` reads. -/
def getIndex (q : MsgQueue) : UInt64 :=
  if q.tail = UInt64.ofNat msgMax then 0 else q.tail

def putMsg (q : MsgQueue) (msg : Msg) : Except Fault (UInt64 × MsgQueue) :=
  if q.msgAmount = UInt64.ofNat msgMax - 1 then .error overflow
  else if h : (putIndex q).toNat < msgMax then
    .ok (q.addCount + 1,
      { q with
        buffer := q.buffer.set (putIndex q).toNat msg h
        head := putIndex q + 1
        msgAmount := q.msgAmount + 1
        addCount := q.addCount + 1 })
  else .error .outOfBounds

def getMsg (q : MsgQueue) : Except Fault (Msg × UInt64 × MsgQueue) :=
  if q.msgAmount = 0 then .error underflow
  else if h : (getIndex q).toNat < msgMax then
    .ok (q.buffer[(getIndex q).toNat], q.extractCount + 1,
      { q with
        tail := getIndex q + 1
        msgAmount := q.msgAmount - 1
        extractCount := q.extractCount + 1 })
  else .error .outOfBounds

end OsaspLabs.Ipc

namespace OsaspLabs.Lab4

open Ipc

/-- LAB_4 assigns the fields of the shared memory one by one. -/
def msgQueueInit (queue : MsgQueue) : MsgQueue :=
  { queue with
    addCount := 0
    extractCount := 0
    msgAmount := 0
    head := 0
    tail := 0
    buffer := Vector.replicate msgMax Msg.zero }

end OsaspLabs.Lab4

namespace OsaspLabs.Lab5

open Ipc

/-- LAB_5 clears the whole global variable. -/
def msgQueueInit (_ : MsgQueue) : MsgQueue :=
  ⟨0, 0, 0, 0, 0, Vector.replicate msgMax Msg.zero⟩

theorem msgQueueInit_eq (p q : MsgQueue) : Lab4.msgQueueInit p = msgQueueInit q := rfl

end OsaspLabs.Lab5
