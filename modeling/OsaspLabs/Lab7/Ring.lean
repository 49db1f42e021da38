import OsaspLabs.Lab7.Message
import OsaspLabs.Library.Fifo

/-! # How far the queue of LAB_7 p1 is a ring

`head` and `tail` only grow, so the queue is a bounded FIFO for as many `add_msg` as
`buffer` has slots. -/

namespace OsaspLabs.Lab7

open Ipc (Fault)

/-- The queue stores the entries of `f`, oldest at `tail`. -/
structure Represents (q : MsgStruct) (f : Fifo Msg (msgMax - 1)) : Prop where
  counted : Counted q
  amount : q.messageAmount = f.items.length
  holds : Fifo.Holds (fun i => q.buffer[i]?) msgMax q.tail f.items

theorem represents_initQueue (memory : MsgStruct) :
    Represents (initQueue memory) Fifo.empty :=
  ⟨counted_initQueue memory, rfl, Fifo.holds_nil _ _ _⟩

/-! ## One call -/

theorem addMsg_full {q : MsgStruct} {f : Fifo Msg (msgMax - 1)} (h : Represents q f)
    (hfull : f.items.length = msgMax - 1) (m : Msg) : addMsg q m = .error overflow := by
  unfold addMsg
  rw [if_pos (h.amount.trans hfull)]

/-- With all slots of `buffer` used once, the next write falls outside. -/
theorem addMsg_outside {q : MsgStruct} {f : Fifo Msg (msgMax - 1)} (h : Represents q f)
    (hroom : f.items.length < msgMax - 1) (hhead : ¬ q.head < msgMax) (m : Msg) :
    addMsg q m = .error .outOfBounds := by
  have hamount := h.amount
  unfold addMsg
  rw [if_neg (by omega), dif_neg hhead]

theorem addMsg_room {q : MsgStruct} {f : Fifo Msg (msgMax - 1)} (h : Represents q f)
    (hroom : f.items.length < msgMax - 1) (hhead : q.head < msgMax) (m : Msg) :
    ∃ n q' g, addMsg q m = .ok (n, q') ∧ f.push? m = some g ∧ Represents q' g ∧
      q'.head = q.head + 1 := by
  have hamount := h.amount
  have hadd : addMsg q m = .ok (q.produceCount + 1,
      { q with
        buffer := q.buffer.set q.head m hhead
        head := q.head + 1
        messageAmount := q.messageAmount + 1
        produceCount := q.produceCount + 1 }) := by
    unfold addMsg
    rw [if_neg (by omega), dif_pos hhead]
  refine ⟨_, _, ⟨f.items ++ [m], by simp; omega⟩, hadd, by simp [Fifo.push?, hroom], ?_, rfl⟩
  have hindex : (q.tail + f.items.length) % msgMax = q.head := by
    rw [← hamount, ← h.counted.amount, Nat.mod_eq_of_lt hhead]
  refine ⟨addMsg_counted h.counted hadd, by simp [hamount], ?_⟩
  refine h.holds.push (by omega) m ?_ ?_
  · simp [hindex, hhead]
  · intro k hk
    rw [hindex] at hk
    simp [Ne.symm hk]

theorem getMsg_empty {q : MsgStruct} {f : Fifo Msg (msgMax - 1)} (h : Represents q f)
    (hempty : f.items = []) : getMsg q = .error underflow := by
  have hzero : q.messageAmount = 0 := by simp [h.amount, hempty]
  unfold getMsg
  rw [if_pos hzero]

/-- A stored message lies below `head`, so it is read inside `buffer`. -/
theorem getMsg_item {q : MsgStruct} {f : Fifo Msg (msgMax - 1)} (h : Represents q f)
    {m : Msg} {rest : List Msg} (hitems : f.items = m :: rest) :
    q.tail < msgMax ∧ ∃ n q' g, getMsg q = .ok (m, n, q') ∧ f.pop? = some (m, g) ∧
      Represents q' g ∧ q'.head = q.head := by
  obtain ⟨items, fits⟩ := f
  subst hitems
  have hamount : q.messageAmount = rest.length + 1 := by simpa using h.amount
  have hsum := h.counted.amount
  have hle := h.counted.head_le
  have htail : q.tail < msgMax := by omega
  have hread : q.buffer[q.tail] = m := by
    have hfront := h.holds.front
    rw [Nat.mod_eq_of_lt htail] at hfront
    exact Option.some.inj ((Vector.getElem?_eq_getElem htail).symm.trans hfront)
  have hget : getMsg q = .ok (m, q.consumeCount + 1,
      { q with
        tail := q.tail + 1
        messageAmount := q.messageAmount - 1
        consumeCount := q.consumeCount + 1 }) := by
    unfold getMsg
    rw [if_neg (by omega), dif_pos htail, hread]
  refine ⟨htail, _, _, ⟨rest, by simp at fits; omega⟩, hget, rfl, ?_, rfl⟩
  exact ⟨getMsg_counted h.counted hget, by simp [hamount], h.holds.pop⟩

/-! ## Runs of calls -/

/-- What a call reports: its return value, the index it used on `buffer`, and the
message that `get_msg` stored. -/
inductive Reply where
  | add (count index : ℕ)
  | get (count index : ℕ) (msg : Msg)

def Reply.index : Reply → ℕ
  | .add _ i => i
  | .get _ i _ => i

def delivered : List Reply → List Msg
  | [] => []
  | .add .. :: rs => delivered rs
  | .get _ _ m :: rs => m :: delivered rs

def call (q : MsgStruct) : Fifo.Op Msg → Except Fault (Reply × MsgStruct)
  | .push m => (addMsg q m).map fun (n, q') => (.add n q.head, q')
  | .pop => (getMsg q).map fun (m, n, q') => (.get n q.tail m, q')

/-- A sequence of calls. A push stands for `add_msg`, a pop for `get_msg`. -/
def runCalls : MsgStruct → List (Fifo.Op Msg) → Except Fault (List Reply × MsgStruct)
  | q, [] => .ok ([], q)
  | q, c :: cs =>
      match call q c with
      | .error e => .error e
      | .ok (r, q') =>
          match runCalls q' cs with
          | .error e => .error e
          | .ok (rs, q'') => .ok (r :: rs, q'')

/-- The ways in which a sequence of calls ends. -/
inductive Ending (q : MsgStruct) (f : Fifo Msg (msgMax - 1)) (calls : List (Fifo.Op Msg)) :
    Prop where
  /-- Every call works as the bounded queue does. -/
  | done (replies : List Reply) (q' : MsgStruct) (f' : Fifo Msg (msgMax - 1))
      (run : runCalls q calls = .ok (replies, q'))
      (fifo : f.run calls = some (delivered replies, f')) (represents : Represents q' f')
      (head : q'.head = q.head + (Fifo.pushed calls).length)
      (bounds : ∀ r ∈ replies, r.index < msgMax)
  /-- A call leaves through an exit where the bounded queue refuses. -/
  | exit (fifo : f.run calls = none)
      (run : runCalls q calls = .error overflow ∨ runCalls q calls = .error underflow)
  /-- A call writes behind `buffer`. -/
  | outside (run : runCalls q calls = .error .outOfBounds)
      (pushed : msgMax < q.head + (Fifo.pushed calls).length)

theorem runCalls_error {q : MsgStruct} {c : Fifo.Op Msg} {cs : List (Fifo.Op Msg)} {e : Fault}
    (h : call q c = .error e) : runCalls q (c :: cs) = .error e := by
  simp [runCalls, h]

theorem runCalls_ok {q q' : MsgStruct} {c : Fifo.Op Msg} {r : Reply}
    (h : call q c = .ok (r, q')) (cs : List (Fifo.Op Msg)) :
    runCalls q (c :: cs) = (runCalls q' cs).map fun (rs, q'') => (r :: rs, q'') := by
  simp only [runCalls, h]
  cases runCalls q' cs <;> rfl

theorem runCalls_ending {q : MsgStruct} {f : Fifo Msg (msgMax - 1)} (h : Represents q f)
    (calls : List (Fifo.Op Msg)) : Ending q f calls := by
  induction calls generalizing q f with
  | nil => exact .done [] q f rfl rfl h rfl (by simp)
  | cons c cs ih =>
      cases c with
      | push m =>
          by_cases hroom : f.items.length < msgMax - 1
          · by_cases hhead : q.head < msgMax
            · obtain ⟨n, q₁, g, hadd, hpush, hrep, hhead₁⟩ := addMsg_room h hroom hhead m
              have hcall : call q (.push m) = .ok (.add n q.head, q₁) := by
                simp [call, hadd, Except.map]
              have hrun := runCalls_ok hcall cs
              cases ih hrep with
              | done rs q' f' run fifo represents head bounds =>
                  refine .done (.add n q.head :: rs) q' f' (by simp [hrun, run, Except.map]) ?_
                    represents ?_ ?_
                  · simpa [Fifo.run, hpush, delivered] using fifo
                  · simp only [Fifo.pushed, List.length_cons]
                    omega
                  · simpa [Reply.index, hhead] using bounds
              | exit fifo run =>
                  refine .exit (by simp [Fifo.run, hpush, fifo]) ?_
                  exact run.imp (fun he => by simp [hrun, he, Except.map])
                    (fun he => by simp [hrun, he, Except.map])
              | outside run pushed =>
                  refine .outside (by simp [hrun, run, Except.map]) ?_
                  simp only [Fifo.pushed, List.length_cons]
                  omega
            · refine .outside (runCalls_error ?_) ?_
              · simp [call, addMsg_outside h hroom hhead m, Except.map]
              · simp only [Fifo.pushed, List.length_cons]
                omega
          · have hfull : f.items.length = msgMax - 1 := by
              have := f.fits
              omega
            refine .exit (by simp [Fifo.run, Fifo.push?, hroom]) (.inl (runCalls_error ?_))
            simp [call, addMsg_full h hfull m, Except.map]
      | pop =>
          cases hitems : f.items with
          | nil =>
              refine .exit ?_ (.inr (runCalls_error ?_))
              · obtain ⟨items, fits⟩ := f
                simp only at hitems
                subst hitems
                rfl
              · simp [call, getMsg_empty h hitems, Except.map]
          | cons m rest =>
              obtain ⟨htail, n, q₁, g, hget, hpop, hrep, hhead₁⟩ := getMsg_item h hitems
              have hcall : call q .pop = .ok (.get n q.tail m, q₁) := by
                simp [call, hget, Except.map]
              have hrun := runCalls_ok hcall cs
              cases ih hrep with
              | done rs q' f' run fifo represents head bounds =>
                  refine .done (.get n q.tail m :: rs) q' f' (by simp [hrun, run, Except.map]) ?_
                    represents ?_ ?_
                  · simp [Fifo.run, hpop, delivered, fifo]
                  · simp only [Fifo.pushed]
                    omega
                  · simpa [Reply.index, htail] using bounds
              | exit fifo run =>
                  refine .exit (by simp [Fifo.run, hpop, fifo]) ?_
                  exact run.imp (fun he => by simp [hrun, he, Except.map])
                    (fun he => by simp [hrun, he, Except.map])
              | outside run pushed =>
                  refine .outside (by simp [hrun, run, Except.map]) ?_
                  simp only [Fifo.pushed]
                  omega

/-- The calls use `buffer` within its bounds, and the i-th `get_msg` delivers the message of
the i-th `add_msg`. -/
def IsRing (q : MsgStruct) (calls : List (Fifo.Op Msg)) : Prop :=
  ∃ replies q', runCalls q calls = .ok (replies, q') ∧ (∀ r ∈ replies, r.index < msgMax) ∧
    (delivered replies).length = Fifo.pops calls ∧
    ∀ i < Fifo.pops calls, (delivered replies)[i]? = (Fifo.pushed calls)[i]?

/-- The queue is a ring buffer for the first `MSG_MAX` calls of `add_msg` and no longer. -/
theorem isRing_iff (memory : MsgStruct) (calls : List (Fifo.Op Msg))
    (hover : runCalls (initQueue memory) calls ≠ .error overflow)
    (hunder : runCalls (initQueue memory) calls ≠ .error underflow) :
    IsRing (initQueue memory) calls ↔ (Fifo.pushed calls).length ≤ msgMax := by
  have hhead : (initQueue memory).head = 0 := rfl
  cases runCalls_ending (represents_initQueue memory) calls with
  | done replies q' f' run fifo represents head bounds =>
      have hlen := Fifo.run_length fifo
      have hconserve : Fifo.pushed calls = delivered replies ++ f'.items := by
        simpa [Fifo.empty] using Fifo.run_conserves fifo
      have hle := represents.counted.head_le
      refine ⟨fun _ => by omega, fun _ => ⟨replies, q', run, bounds, hlen, fun i hi => ?_⟩⟩
      rw [hconserve, List.getElem?_append_left (by omega)]
  | exit fifo run => exact (run.elim hover hunder).elim
  | outside run pushed =>
      refine ⟨?_, fun hle => by omega⟩
      rintro ⟨replies, q', hok, _⟩
      exact absurd (run.symm.trans hok) (by simp)

theorem isRing_iff_add_get :
    IsRing (initQueue ⟨1, 2, 3, 4, 5, Vector.replicate msgMax Msg.zero⟩) [.push Msg.zero, .pop] ↔
      (Fifo.pushed [.push Msg.zero, .pop]).length ≤ msgMax := by
  have hrun : ∃ result, runCalls (initQueue ⟨1, 2, 3, 4, 5, Vector.replicate msgMax Msg.zero⟩)
      [.push Msg.zero, .pop] = .ok result := ⟨_, rfl⟩
  obtain ⟨result, hok⟩ := hrun
  exact isRing_iff _ _ (by simp [hok]) (by simp [hok])

/-- `n` messages, each added and taken at once. -/
def addGet (n : ℕ) : List (Fifo.Op Msg) :=
  (List.replicate n [Fifo.Op.push Msg.zero, .pop]).flatten

theorem run_addGet (n : ℕ) (ops : List (Fifo.Op Msg)) :
    (Fifo.empty : Fifo Msg (msgMax - 1)).run (addGet n ++ ops) =
      (Fifo.empty.run ops).map fun (out, f) => (List.replicate n Msg.zero ++ out, f) := by
  induction n with
  | zero =>
      cases h : (Fifo.empty : Fifo Msg (msgMax - 1)).run ops <;> simp [addGet, h]
  | succ n ih =>
      have hops : addGet (n + 1) ++ ops = .push Msg.zero :: .pop :: (addGet n ++ ops) := by
        simp [addGet, List.replicate_succ]
      have hturn : (Fifo.empty : Fifo Msg (msgMax - 1)).run (addGet (n + 1) ++ ops) =
          (Fifo.empty.run (addGet n ++ ops)).map fun (out, f) => (Msg.zero :: out, f) := by
        rw [hops]
        rfl
      rw [hturn, ih, Option.map_map]
      rfl

/-- The bounded queue accepts all these calls and one more message. -/
theorem run_addGet_push (n : ℕ) :
    ((Fifo.empty : Fifo Msg (msgMax - 1)).run (addGet n ++ [.push Msg.zero])).isSome := by
  have hroom : (Fifo.empty : Fifo Msg (msgMax - 1)).run [.push Msg.zero] =
      some ([], ⟨[Msg.zero], Nat.succ_le_of_lt (Nat.zero_lt_succ _)⟩) := rfl
  rw [run_addGet, hroom]
  rfl

theorem length_pushed_addGet (n : ℕ) (ops : List (Fifo.Op Msg)) :
    (Fifo.pushed (addGet n ++ ops)).length = n + (Fifo.pushed ops).length := by
  induction n with
  | zero => simp [addGet]
  | succ n ih =>
      have hops : addGet (n + 1) ++ ops = .push Msg.zero :: .pop :: (addGet n ++ ops) := by
        simp [addGet, List.replicate_succ]
      rw [hops, Fifo.pushed, Fifo.pushed, List.length_cons, ih]
      omega

/-- The queue is never more than one message long, and the write number `MSG_MAX` falls
behind `buffer`. -/
theorem write_outside_after_msgMax :
    ¬ ∀ (memory : MsgStruct) (calls : List (Fifo.Op Msg)),
      runCalls (initQueue memory) calls ≠ .error overflow →
      runCalls (initQueue memory) calls ≠ .error underflow → IsRing (initQueue memory) calls := by
  intro hall
  have memory : MsgStruct := ⟨0, 0, 0, 0, 0, Vector.replicate msgMax Msg.zero⟩
  have hhead : (initQueue memory).head = 0 := rfl
  have hfifo := run_addGet_push msgMax
  have hpushed := length_pushed_addGet msgMax [.push Msg.zero]
  have hone : (Fifo.pushed [Fifo.Op.push Msg.zero]).length = 1 := rfl
  cases runCalls_ending (represents_initQueue memory) (addGet msgMax ++ [.push Msg.zero]) with
  | done replies q' f' run fifo represents head bounds =>
      have hle := represents.counted.head_le
      omega
  | exit fifo run =>
      rw [fifo] at hfifo
      cases hfifo
  | outside run pushed =>
      obtain ⟨replies, q', hok, _⟩ := hall memory (addGet msgMax ++ [.push Msg.zero])
        (by rw [run]; simp [overflow]) (by rw [run]; simp [underflow])
      rw [run] at hok
      cases hok

end OsaspLabs.Lab7
