import OsaspLabs.Ipc.Accounting

/-! # The queue calls of LAB_4 and LAB_5, statement by statement

In the loops of the workers a call of `put_msg` or `get_msg` is one step. Here each of its
statements is one, so that others can run in between and the queue can be seen half changed. -/

namespace OsaspLabs.Ipc

/-- The next statement of `put_msg`. -/
inductive PutPc where
  /-- `if (queue->msg_amount == MSG_MAX - 1)` -/
  | testAmount
  /-- `if (queue->head == MSG_MAX)` -/
  | testHead
  /-- `queue->head = 0` -/
  | resetHead
  /-- `queue->buffer[queue->head] = *msg` -/
  | store
  | incHead
  | incAmount
  /-- `return ++queue->add_count` -/
  | incCount
  deriving DecidableEq, Repr

/-- The next statement of `get_msg`; `msg` is what the caller's `*msg` holds by then. -/
inductive GetPc where
  | testAmount
  | testTail
  | resetTail
  /-- `*msg = queue->buffer[queue->tail]` -/
  | load
  | incTail (msg : Msg)
  | decAmount (msg : Msg)
  | incCount (msg : Msg)
  deriving DecidableEq

inductive CallOutcome (κ : Type) where
  | next (q : MsgQueue) (pc : κ)
  | returned (q : MsgQueue) (msg : Msg) (count : UInt64)
  | exit (fault : Fault)

def putStep (q : MsgQueue) (msg : Msg) : PutPc → CallOutcome PutPc
  | .testAmount =>
      if q.msgAmount = UInt64.ofNat msgMax - 1 then .exit overflow else .next q .testHead
  | .testHead => .next q (if q.head = UInt64.ofNat msgMax then .resetHead else .store)
  | .resetHead => .next { q with head := 0 } .store
  | .store =>
      if h : q.head.toNat < msgMax then
        .next { q with buffer := q.buffer.set q.head.toNat msg h } .incHead
      else .exit .outOfBounds
  | .incHead => .next { q with head := q.head + 1 } .incAmount
  | .incAmount => .next { q with msgAmount := q.msgAmount + 1 } .incCount
  | .incCount => .returned { q with addCount := q.addCount + 1 } msg (q.addCount + 1)

def getStep (q : MsgQueue) : GetPc → CallOutcome GetPc
  | .testAmount => if q.msgAmount = 0 then .exit underflow else .next q .testTail
  | .testTail => .next q (if q.tail = UInt64.ofNat msgMax then .resetTail else .load)
  | .resetTail => .next { q with tail := 0 } .load
  | .load =>
      if h : q.tail.toNat < msgMax then .next q (.incTail q.buffer[q.tail.toNat])
      else .exit .outOfBounds
  | .incTail msg => .next { q with tail := q.tail + 1 } (.decAmount msg)
  | .decAmount msg => .next { q with msgAmount := q.msgAmount - 1 } (.incCount msg)
  | .incCount msg =>
      .returned { q with extractCount := q.extractCount + 1 } msg (q.extractCount + 1)

/-- A call that a worker is in the middle of. -/
inductive Call where
  | put (pc : PutPc)
  | get (pc : GetPc)
  deriving DecidableEq

/-- The statement that a worker at `put_msg` executes next. -/
def Call.putPc : Option Call → PutPc
  | some (.put pc) => pc
  | _ => .testAmount

def Call.getPc : Option Call → GetPc
  | some (.get pc) => pc
  | _ => .testAmount

/-! ## How far a call has come -/

/-- The queue was `q₀` when the call of `put_msg` came and is `q` now. -/
def PutOk (q₀ : MsgQueue) (msg : Msg) (q : MsgQueue) : PutPc → Prop
  | .testAmount => q = q₀
  | .testHead => q = q₀ ∧ q₀.msgAmount ≠ UInt64.ofNat msgMax - 1
  | .resetHead =>
      q = q₀ ∧ q₀.msgAmount ≠ UInt64.ofNat msgMax - 1 ∧ q₀.head = UInt64.ofNat msgMax
  | .store => q = { q₀ with head := putIndex q₀ } ∧ q₀.msgAmount ≠ UInt64.ofNat msgMax - 1
  | .incHead => q₀.msgAmount ≠ UInt64.ofNat msgMax - 1 ∧ ∃ h : (putIndex q₀).toNat < msgMax,
      q = { q₀ with head := putIndex q₀, buffer := q₀.buffer.set (putIndex q₀).toNat msg h }
  | .incAmount => q₀.msgAmount ≠ UInt64.ofNat msgMax - 1 ∧ ∃ h : (putIndex q₀).toNat < msgMax,
      q = { q₀ with
        head := putIndex q₀ + 1
        buffer := q₀.buffer.set (putIndex q₀).toNat msg h }
  | .incCount => q₀.msgAmount ≠ UInt64.ofNat msgMax - 1 ∧ ∃ h : (putIndex q₀).toNat < msgMax,
      q = { q₀ with
        head := putIndex q₀ + 1
        buffer := q₀.buffer.set (putIndex q₀).toNat msg h
        msgAmount := q₀.msgAmount + 1 }

def GetOk (q₀ q : MsgQueue) : GetPc → Prop
  | .testAmount => q = q₀
  | .testTail => q = q₀ ∧ q₀.msgAmount ≠ 0
  | .resetTail => q = q₀ ∧ q₀.msgAmount ≠ 0 ∧ q₀.tail = UInt64.ofNat msgMax
  | .load => q = { q₀ with tail := getIndex q₀ } ∧ q₀.msgAmount ≠ 0
  | .incTail msg => q₀.msgAmount ≠ 0 ∧ ∃ h : (getIndex q₀).toNat < msgMax,
      msg = q₀.buffer[(getIndex q₀).toNat] ∧ q = { q₀ with tail := getIndex q₀ }
  | .decAmount msg => q₀.msgAmount ≠ 0 ∧ ∃ h : (getIndex q₀).toNat < msgMax,
      msg = q₀.buffer[(getIndex q₀).toNat] ∧ q = { q₀ with tail := getIndex q₀ + 1 }
  | .incCount msg => q₀.msgAmount ≠ 0 ∧ ∃ h : (getIndex q₀).toNat < msgMax,
      msg = q₀.buffer[(getIndex q₀).toNat] ∧
        q = { q₀ with tail := getIndex q₀ + 1, msgAmount := q₀.msgAmount - 1 }

/-- What one statement of `put_msg` tells about the whole call. -/
theorem putStep_ok {q₀ q : MsgQueue} {msg : Msg} {pc : PutPc} (h : PutOk q₀ msg q pc) :
    match putStep q msg pc with
    | .next q' pc' => PutOk q₀ msg q' pc'
    | .returned q' msg' n => msg' = msg ∧ putMsg q₀ msg = .ok (n, q')
    | .exit e => putMsg q₀ msg = .error e := by
  cases pc with
  | testAmount =>
      obtain rfl : q = q₀ := h
      simp only [putStep]
      by_cases hfull : q.msgAmount = UInt64.ofNat msgMax - 1
      · rw [if_pos hfull]
        exact if_pos hfull
      · rw [if_neg hfull]
        exact ⟨rfl, hfull⟩
  | testHead =>
      obtain ⟨rfl, hroom⟩ := h
      simp only [putStep]
      by_cases hmax : q.head = UInt64.ofNat msgMax
      · rw [if_pos hmax]
        exact ⟨rfl, hroom, hmax⟩
      · rw [if_neg hmax]
        have hindex : putIndex q = q.head := if_neg hmax
        exact ⟨by rw [hindex], hroom⟩
  | resetHead =>
      obtain ⟨rfl, hroom, hmax⟩ := h
      have hindex : putIndex q = 0 := if_pos hmax
      exact ⟨by rw [hindex], hroom⟩
  | store =>
      obtain ⟨rfl, hroom⟩ := h
      simp only [putStep]
      by_cases hlt : (putIndex q₀).toNat < msgMax
      · rw [dif_pos hlt]
        exact ⟨hroom, hlt, rfl⟩
      · rw [dif_neg hlt]
        show putMsg q₀ msg = .error .outOfBounds
        rw [putMsg, if_neg hroom, dif_neg hlt]
  | incHead =>
      obtain ⟨hroom, hlt, rfl⟩ := h
      exact ⟨hroom, hlt, rfl⟩
  | incAmount =>
      obtain ⟨hroom, hlt, rfl⟩ := h
      exact ⟨hroom, hlt, rfl⟩
  | incCount =>
      obtain ⟨hroom, hlt, rfl⟩ := h
      refine ⟨rfl, ?_⟩
      rw [putMsg, if_neg hroom, dif_pos hlt]

theorem getStep_ok {q₀ q : MsgQueue} {pc : GetPc} (h : GetOk q₀ q pc) :
    match getStep q pc with
    | .next q' pc' => GetOk q₀ q' pc'
    | .returned q' msg n => getMsg q₀ = .ok (msg, n, q')
    | .exit e => getMsg q₀ = .error e := by
  cases pc with
  | testAmount =>
      obtain rfl : q = q₀ := h
      simp only [getStep]
      by_cases hempty : q.msgAmount = 0
      · rw [if_pos hempty]
        exact if_pos hempty
      · rw [if_neg hempty]
        exact ⟨rfl, hempty⟩
  | testTail =>
      obtain ⟨rfl, hsome⟩ := h
      simp only [getStep]
      by_cases hmax : q.tail = UInt64.ofNat msgMax
      · rw [if_pos hmax]
        exact ⟨rfl, hsome, hmax⟩
      · rw [if_neg hmax]
        have hindex : getIndex q = q.tail := if_neg hmax
        exact ⟨by rw [hindex], hsome⟩
  | resetTail =>
      obtain ⟨rfl, hsome, hmax⟩ := h
      have hindex : getIndex q = 0 := if_pos hmax
      exact ⟨by rw [hindex], hsome⟩
  | load =>
      obtain ⟨rfl, hsome⟩ := h
      simp only [getStep]
      by_cases hlt : (getIndex q₀).toNat < msgMax
      · rw [dif_pos hlt]
        exact ⟨hsome, hlt, rfl, rfl⟩
      · rw [dif_neg hlt]
        show getMsg q₀ = .error .outOfBounds
        rw [getMsg, if_neg hsome, dif_neg hlt]
  | incTail msg =>
      obtain ⟨hsome, hlt, hmsg, rfl⟩ := h
      exact ⟨hsome, hlt, hmsg, rfl⟩
  | decAmount msg =>
      obtain ⟨hsome, hlt, hmsg, rfl⟩ := h
      exact ⟨hsome, hlt, hmsg, rfl⟩
  | incCount msg =>
      obtain ⟨hsome, hlt, rfl, rfl⟩ := h
      show getMsg q₀ = _
      rw [getMsg, if_neg hsome, dif_pos hlt]

end OsaspLabs.Ipc
