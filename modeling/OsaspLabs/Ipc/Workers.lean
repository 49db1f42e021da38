import OsaspLabs.Ipc.Refinement
import OsaspLabs.Library.Lock
import OsaspLabs.Library.Tally

/-! # The producer and consumer loops of LAB_4 and LAB_5

The loops of the two programs take the same steps. They differ in the lock around the
queue, a named semaphore in LAB_4 and a mutex in LAB_5, and in `produce_msg`. -/

namespace OsaspLabs.Ipc

/-- What `rand` delivers to one call of `produce_msg`. -/
structure Rand where
  value : Fin 257
  bytes : Fin dataMax → UInt8

def noRand : Rand := ⟨⟨0, by decide⟩, fun _ => 0⟩

/-- The part of `produce_msg` before the hash is set. -/
def fillMsg (rnd : Rand) (msg : Msg) : Msg :=
  let filled : Msg :=
    { msg with
      data := Vector.ofFn fun i => if i.val < rnd.value.val then rnd.bytes i else msg.data[i] }
  if rnd.value.val = 256 then { filled with type := -1 }
  else { filled with type := 0, size := UInt8.ofNat rnd.value.val }

/-- `consume_msg`. The flag tells whether it reports a mismatch on `stderr`. -/
def consumeMsg (msg : Msg) : Msg × Bool :=
  let msgHash := msg.hash
  let checkSum := hash { msg with hash := 0 }
  ({ msg with hash := msgHash }, msgHash != checkSum)

inductive ProducerPc where
  | produceMsg
  | waitFreeSpace
  | lock
  | putMsg
  | unlock
  | postItems
  | printf
  | sleep
  deriving DecidableEq, Repr

inductive ConsumerPc where
  | waitItems
  | lock
  | getMsg
  | unlock
  | postFreeSpace
  | consumeMsg
  /-- The report of a mismatch inside `consume_msg`. -/
  | fprintf
  | printf
  | sleep
  deriving DecidableEq, Repr

inductive Pc where
  | producer (pc : ProducerPc)
  | consumer (pc : ConsumerPc)
  deriving DecidableEq, Repr

/-- One producer or consumer with its local variables. -/
structure Worker where
  pc : Pc
  msg : Msg
  counter : UInt64

/-- A worker before its first step. Its locals hold what the stack held. -/
def Worker.producer (msg : Msg) (counter : UInt64) : Worker :=
  ⟨.producer .produceMsg, msg, counter⟩

def Worker.consumer (msg : Msg) (counter : UInt64) : Worker :=
  ⟨.consumer .waitItems, msg, counter⟩

structure Shared (L : Type) where
  queue : MsgQueue
  mutex : L
  freeSpace : ℕ
  items : ℕ

/-- What the two programs do differently in their loops. -/
structure Program (L : Type) where
  lock : Lock L
  produceMsg : Rand → Msg → Msg

inductive Outcome (L : Type) where
  | blocked
  | next (sh : Shared L) (w : Worker)
  | exit (fault : Fault)

variable {L : Type}

def producerStep (prog : Program L) (self : ℕ) (rnd : Rand) (sh : Shared L) (w : Worker) :
    ProducerPc → Outcome L
  | .produceMsg =>
      .next sh { w with pc := .producer .waitFreeSpace, msg := prog.produceMsg rnd w.msg }
  | .waitFreeSpace =>
      if sh.freeSpace = 0 then .blocked
      else .next { sh with freeSpace := sh.freeSpace - 1 } { w with pc := .producer .lock }
  | .lock =>
      match prog.lock.acquire sh.mutex self with
      | none => .blocked
      | some m => .next { sh with mutex := m } { w with pc := .producer .putMsg }
  | .putMsg =>
      match putMsg sh.queue w.msg with
      | .error e => .exit e
      | .ok (n, q) => .next { sh with queue := q } { w with pc := .producer .unlock, counter := n }
  | .unlock =>
      .next { sh with mutex := prog.lock.release sh.mutex self }
        { w with pc := .producer .postItems }
  | .postItems => .next { sh with items := sh.items + 1 } { w with pc := .producer .printf }
  | .printf => .next sh { w with pc := .producer .sleep }
  | .sleep => .next sh { w with pc := .producer .produceMsg }

def consumerStep (prog : Program L) (self : ℕ) (sh : Shared L) (w : Worker) :
    ConsumerPc → Outcome L
  | .waitItems =>
      if sh.items = 0 then .blocked
      else .next { sh with items := sh.items - 1 } { w with pc := .consumer .lock }
  | .lock =>
      match prog.lock.acquire sh.mutex self with
      | none => .blocked
      | some m => .next { sh with mutex := m } { w with pc := .consumer .getMsg }
  | .getMsg =>
      match getMsg sh.queue with
      | .error e => .exit e
      | .ok (m, n, q) =>
          .next { sh with queue := q } ⟨.consumer .unlock, m, n⟩
  | .unlock =>
      .next { sh with mutex := prog.lock.release sh.mutex self }
        { w with pc := .consumer .postFreeSpace }
  | .postFreeSpace =>
      .next { sh with freeSpace := sh.freeSpace + 1 } { w with pc := .consumer .consumeMsg }
  | .consumeMsg =>
      .next sh
        { w with
          pc := .consumer (if (consumeMsg w.msg).2 then .fprintf else .printf)
          msg := (consumeMsg w.msg).1 }
  | .fprintf => .next sh { w with pc := .consumer .printf }
  | .printf => .next sh { w with pc := .consumer .sleep }
  | .sleep => .next sh { w with pc := .consumer .waitItems }

/-- One step of the loop of worker number `self`. -/
def workerStep (prog : Program L) (self : ℕ) (rnd : Rand) (sh : Shared L) (w : Worker) :
    Outcome L :=
  match w.pc with
  | .producer pc => producerStep prog self rnd sh w pc
  | .consumer pc => consumerStep prog self sh w pc

/-! ## Where a worker holds what -/

/-- Between taking and dropping the lock. -/
def Pc.inCriticalSection : Pc → Bool
  | .producer .putMsg | .producer .unlock => true
  | .consumer .getMsg | .consumer .unlock => true
  | _ => false

/-- A producer past `sem_wait(free_space)` that has not yet put. -/
def Pc.aboutToPut : Pc → Bool
  | .producer .lock | .producer .putMsg => true
  | _ => false

/-- A producer that has put but not yet posted `items`. -/
def Pc.aboutToPostItems : Pc → Bool
  | .producer .unlock | .producer .postItems => true
  | _ => false

/-- A consumer past `sem_wait(items)` that has not yet got. -/
def Pc.aboutToGet : Pc → Bool
  | .consumer .lock | .consumer .getMsg => true
  | _ => false

/-- A consumer that has got but not yet posted `free_space`. -/
def Pc.aboutToPostFreeSpace : Pc → Bool
  | .consumer .unlock | .consumer .postFreeSpace => true
  | _ => false

/-- Between the two semaphore operations of one turn of the loop. -/
def Pc.holdsSlot (pc : Pc) : Bool :=
  pc.aboutToPut || pc.aboutToPostItems || pc.aboutToGet || pc.aboutToPostFreeSpace

/-- The number of workers at places that satisfy `at?`. -/
def count (at? : Pc → Bool) (ws : List Worker) : ℕ :=
  tally (fun w => (at? w.pc).toNat) ws

end OsaspLabs.Ipc
