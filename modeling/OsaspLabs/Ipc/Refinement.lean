import OsaspLabs.Ipc.Queue

/-! # The ring of LAB_4 and LAB_5 is a bounded FIFO

`head` and `tail` wrap lazily, so each may rest at `MSG_MAX`. Positions are therefore
compared modulo `MSG_MAX`, and one slot always stays free. -/

namespace OsaspLabs.Ipc

/-- The queue stores the entries of `f`, oldest at `tail`. -/
structure Represents (q : MsgQueue) (f : Fifo Msg (msgMax - 1)) : Prop where
  amount : q.msgAmount.toNat = f.items.length
  head_le : q.head.toNat ≤ msgMax
  tail_le : q.tail.toNat ≤ msgMax
  head_eq : q.head.toNat % msgMax = (q.tail.toNat + f.items.length) % msgMax
  holds : Fifo.Holds (fun i => q.buffer[i]?) msgMax q.tail.toNat f.items

theorem toNat_msgMax : (UInt64.ofNat msgMax).toNat = msgMax := rfl

theorem toNat_msgMax_sub_one : (UInt64.ofNat msgMax - 1).toNat = msgMax - 1 := rfl

theorem putIndex_toNat {q : MsgQueue} (h : q.head.toNat ≤ msgMax) :
    (putIndex q).toNat = q.head.toNat % msgMax := by
  unfold putIndex
  split
  · rename_i hmax
    rw [hmax, toNat_msgMax, Nat.mod_self]
    rfl
  · rename_i hmax
    have hne : q.head.toNat ≠ msgMax := fun he => hmax (UInt64.toNat_inj.mp he)
    rw [Nat.mod_eq_of_lt (by omega)]

theorem getIndex_toNat {q : MsgQueue} (h : q.tail.toNat ≤ msgMax) :
    (getIndex q).toNat = q.tail.toNat % msgMax := by
  unfold getIndex
  split
  · rename_i hmax
    rw [hmax, toNat_msgMax, Nat.mod_self]
    rfl
  · rename_i hmax
    have hne : q.tail.toNat ≠ msgMax := fun he => hmax (UInt64.toNat_inj.mp he)
    rw [Nat.mod_eq_of_lt (by omega)]

/-- An index below `MSG_MAX` is stepped without wrapping `size_t`. -/
theorem toNat_succ_of_lt {x : UInt64} (h : x.toNat < msgMax) :
    (x + 1).toNat = x.toNat + 1 := by
  have hmax : msgMax = 4096 := rfl
  rw [UInt64.toNat_add, Nat.mod_eq_of_lt]
  · rfl
  · have hone : (1 : UInt64).toNat = 1 := rfl
    omega

theorem msgMax_pos : 0 < msgMax := by decide

/-! ## One call -/

theorem putMsg_full {q : MsgQueue} {f : Fifo Msg (msgMax - 1)} (h : Represents q f)
    (hfull : f.items.length = msgMax - 1) (m : Msg) : putMsg q m = .error overflow := by
  have heq : q.msgAmount = UInt64.ofNat msgMax - 1 := by
    apply UInt64.toNat_inj.mp
    rw [h.amount, hfull, toNat_msgMax_sub_one]
  unfold putMsg
  rw [if_pos heq]

theorem putMsg_room {q : MsgQueue} {f : Fifo Msg (msgMax - 1)} (h : Represents q f)
    (hroom : f.items.length < msgMax - 1) (m : Msg) :
    (putIndex q).toNat < msgMax ∧ ∃ q' g, putMsg q m = .ok (q.addCount + 1, q') ∧
      f.push? m = some g ∧ Represents q' g ∧
      q'.addCount = q.addCount + 1 ∧ q'.extractCount = q.extractCount := by
  have hpos := msgMax_pos
  have hindex : (putIndex q).toNat = (q.tail.toNat + f.items.length) % msgMax := by
    rw [putIndex_toNat h.head_le, h.head_eq]
  have hlt : (putIndex q).toNat < msgMax := by
    rw [hindex]
    exact Nat.mod_lt _ hpos
  have hne : ¬ q.msgAmount = UInt64.ofNat msgMax - 1 := by
    intro heq
    have ha := h.amount
    rw [heq, toNat_msgMax_sub_one] at ha
    omega
  have hput : putMsg q m = .ok (q.addCount + 1,
      { q with
        buffer := q.buffer.set (putIndex q).toNat m hlt
        head := putIndex q + 1
        msgAmount := q.msgAmount + 1
        addCount := q.addCount + 1 }) := by
    unfold putMsg
    rw [if_neg hne, dif_pos hlt]
  refine ⟨hlt, _, ⟨f.items ++ [m], by simp; omega⟩, hput, by simp [Fifo.push?, hroom], ?_, rfl, rfl⟩
  have hhead : (putIndex q + 1).toNat = (putIndex q).toNat + 1 := toNat_succ_of_lt hlt
  refine ⟨?_, ?_, h.tail_le, ?_, ?_⟩
  · have ha : q.msgAmount.toNat < msgMax := by
      have := h.amount
      omega
    simp [toNat_succ_of_lt ha, h.amount]
  · simp only [hhead]
    omega
  · simp only [hhead, hindex, List.length_append, List.length_cons, List.length_nil]
    rw [Nat.mod_add_mod, Nat.add_assoc]
  · refine h.holds.push (by omega) m ?_ ?_
    · simp [hindex, Nat.mod_lt _ hpos]
    · intro k hk
      rw [← hindex] at hk
      simp [Ne.symm hk]

theorem getMsg_empty {q : MsgQueue} {f : Fifo Msg (msgMax - 1)} (h : Represents q f)
    (hempty : f.items = []) : getMsg q = .error underflow := by
  have heq : q.msgAmount = 0 := by
    apply UInt64.toNat_inj.mp
    rw [h.amount, hempty]
    rfl
  unfold getMsg
  rw [if_pos heq]

theorem getMsg_item {q : MsgQueue} {f : Fifo Msg (msgMax - 1)} (h : Represents q f)
    {m : Msg} {rest : List Msg} (hitems : f.items = m :: rest) :
    (getIndex q).toNat < msgMax ∧ ∃ q' g, getMsg q = .ok (m, q.extractCount + 1, q') ∧
      f.pop? = some (m, g) ∧ Represents q' g ∧
      q'.addCount = q.addCount ∧ q'.extractCount = q.extractCount + 1 := by
  have hpos := msgMax_pos
  obtain ⟨items, fits⟩ := f
  subst hitems
  have hindex := getIndex_toNat h.tail_le
  have hlt : (getIndex q).toNat < msgMax := by
    rw [hindex]
    exact Nat.mod_lt _ hpos
  have hamount : q.msgAmount.toNat = rest.length + 1 := by simpa using h.amount
  have hne : ¬ q.msgAmount = 0 := by
    intro heq
    rw [heq] at hamount
    simp at hamount
  have hread : q.buffer[(getIndex q).toNat] = m := by
    have hfront := h.holds.front
    simp only [← hindex] at hfront
    exact Option.some.inj ((Vector.getElem?_eq_getElem hlt).symm.trans hfront)
  have hget : getMsg q = .ok (m, q.extractCount + 1,
      { q with
        tail := getIndex q + 1
        msgAmount := q.msgAmount - 1
        extractCount := q.extractCount + 1 }) := by
    unfold getMsg
    rw [if_neg hne, dif_pos hlt, hread]
  refine ⟨hlt, _, ⟨rest, by simp at fits; omega⟩, hget, rfl, ?_, rfl, rfl⟩
  have htail : (getIndex q + 1).toNat = (getIndex q).toNat + 1 := toNat_succ_of_lt hlt
  have hmod : (q.tail.toNat + 1) % msgMax = (getIndex q + 1).toNat % msgMax := by
    rw [htail, hindex, Nat.mod_add_mod]
  refine ⟨?_, h.head_le, ?_, ?_, ?_⟩
  · have hle : (1 : UInt64) ≤ q.msgAmount := by
      rw [UInt64.le_iff_toNat_le, hamount]
      exact Nat.le_add_left 1 _
    simp [UInt64.toNat_sub_of_le _ _ hle, hamount]
  · simp only [htail]
    omega
  · have hhead := h.head_eq
    simp only [List.length_cons] at hhead
    simp only [hhead]
    calc (q.tail.toNat + (rest.length + 1)) % msgMax
        = (q.tail.toNat + 1 + rest.length) % msgMax := by rw [Nat.add_assoc, Nat.add_comm 1]
      _ = ((q.tail.toNat + 1) % msgMax + rest.length) % msgMax := (Nat.mod_add_mod _ _ _).symm
      _ = ((getIndex q + 1).toNat + rest.length) % msgMax := by rw [hmod, Nat.mod_add_mod]
  · exact h.holds.pop.of_mod_eq hmod

/-! ## Runs of calls -/

/-- What a call reports: its return value, the index it used on `buffer`, and the
message that `get_msg` stored. -/
inductive Reply where
  | put (count : UInt64) (index : ℕ)
  | get (count : UInt64) (index : ℕ) (msg : Msg)

def Reply.index : Reply → ℕ
  | .put _ i => i
  | .get _ i _ => i

def putCounts : List Reply → List UInt64
  | [] => []
  | .put n _ :: rs => n :: putCounts rs
  | .get .. :: rs => putCounts rs

def getCounts : List Reply → List UInt64
  | [] => []
  | .put .. :: rs => getCounts rs
  | .get n _ _ :: rs => n :: getCounts rs

def delivered : List Reply → List Msg
  | [] => []
  | .put .. :: rs => delivered rs
  | .get _ _ m :: rs => m :: delivered rs

def call (q : MsgQueue) : Fifo.Op Msg → Except Fault (Reply × MsgQueue)
  | .push m => (putMsg q m).map fun (n, q') => (.put n (putIndex q).toNat, q')
  | .pop => (getMsg q).map fun (m, n, q') => (.get n (getIndex q).toNat m, q')

/-- A sequence of calls. A push stands for `put_msg`, a pop for `get_msg`. -/
def runCalls : MsgQueue → List (Fifo.Op Msg) → Except Fault (List Reply × MsgQueue)
  | q, [] => .ok ([], q)
  | q, c :: cs =>
      match call q c with
      | .error e => .error e
      | .ok (r, q') =>
          match runCalls q' cs with
          | .error e => .error e
          | .ok (rs, q'') => .ok (r :: rs, q'')

/-- `n` successive values of a counter that starts from `base`. -/
def countsFrom (base : UInt64) (n : ℕ) : List UInt64 :=
  (List.range n).map fun k => base + UInt64.ofNat (k + 1)

theorem countsFrom_succ (base : UInt64) (n : ℕ) :
    countsFrom base (n + 1) = (base + 1) :: countsFrom (base + 1) n := by
  simp only [countsFrom, List.range_succ_eq_map, List.map_cons, List.map_map, List.cons.injEq]
  refine ⟨rfl, List.map_congr_left fun k _ => ?_⟩
  have hsucc : UInt64.ofNat (k + 1 + 1) = 1 + UInt64.ofNat (k + 1) := by
    rw [UInt64.ofNat_add, UInt64.add_comm]
    rfl
  simp only [Function.comp_apply, Nat.succ_eq_add_one, hsucc, UInt64.add_assoc]

/-- The contract of a run that takes no exit. -/
structure RunSpec (q : MsgQueue) (f : Fifo Msg (msgMax - 1)) (calls : List (Fifo.Op Msg))
    (replies : List Reply) (q' : MsgQueue) (f' : Fifo Msg (msgMax - 1)) : Prop where
  fifo : f.run calls = some (delivered replies, f')
  represents : Represents q' f'
  puts : putCounts replies = countsFrom q.addCount (Fifo.pushed calls).length
  gets : getCounts replies = countsFrom q.extractCount (Fifo.pops calls)
  bounds : ∀ r ∈ replies, r.index < msgMax

theorem runCalls_spec {q : MsgQueue} {f : Fifo Msg (msgMax - 1)} (h : Represents q f)
    (calls : List (Fifo.Op Msg)) :
    (∃ replies q' f', runCalls q calls = .ok (replies, q') ∧ RunSpec q f calls replies q' f') ∨
      (f.run calls = none ∧
        (runCalls q calls = .error overflow ∨ runCalls q calls = .error underflow)) := by
  induction calls generalizing q f with
  | nil => exact .inl ⟨[], q, f, rfl, rfl, h, rfl, rfl, by simp⟩
  | cons c cs ih =>
      cases c with
      | push m =>
          by_cases hroom : f.items.length < msgMax - 1
          · obtain ⟨hlt, q₁, g, hput, hpush, hrep, hadd, hext⟩ := putMsg_room h hroom m
            have hcall : call q (.push m) = .ok (.put (q.addCount + 1) (putIndex q).toNat, q₁) := by
              simp [call, hput, Except.map]
            rcases ih hrep with ⟨rs, q', f', hrun, hs⟩ | ⟨hnone, herr⟩
            · refine .inl ⟨.put (q.addCount + 1) (putIndex q).toNat :: rs, q', f',
                by simp [runCalls, hcall, hrun], ?_⟩
              refine ⟨?_, hs.represents, ?_, ?_, ?_⟩
              · simpa [Fifo.run, hpush, delivered] using hs.fifo
              · simp [putCounts, Fifo.pushed, countsFrom_succ, hs.puts, hadd]
              · simp [getCounts, Fifo.pops, hs.gets, hext]
              · simpa [Reply.index, hlt] using hs.bounds
            · refine .inr ⟨by simp [Fifo.run, hpush, hnone], ?_⟩
              exact herr.imp (fun he => by simp [runCalls, hcall, he])
                (fun he => by simp [runCalls, hcall, he])
          · have hfull : f.items.length = msgMax - 1 := by
              have := f.fits
              omega
            refine .inr ⟨by simp [Fifo.run, Fifo.push?, hroom], .inl ?_⟩
            simp [runCalls, call, putMsg_full h hfull m, Except.map]
      | pop =>
          cases hitems : f.items with
          | nil =>
              refine .inr ⟨?_, .inr ?_⟩
              · obtain ⟨items, fits⟩ := f
                simp only at hitems
                subst hitems
                rfl
              · simp [runCalls, call, getMsg_empty h hitems, Except.map]
          | cons m rest =>
              obtain ⟨hlt, q₁, g, hget, hpop, hrep, hadd, hext⟩ := getMsg_item h hitems
              have hcall : call q .pop =
                  .ok (.get (q.extractCount + 1) (getIndex q).toNat m, q₁) := by
                simp [call, hget, Except.map]
              rcases ih hrep with ⟨rs, q', f', hrun, hs⟩ | ⟨hnone, herr⟩
              · refine .inl ⟨.get (q.extractCount + 1) (getIndex q).toNat m :: rs, q', f',
                  by simp [runCalls, hcall, hrun], ?_⟩
                refine ⟨?_, hs.represents, ?_, ?_, ?_⟩
                · simp [Fifo.run, hpop, delivered, hs.fifo]
                · simp [putCounts, Fifo.pushed, hs.puts, hadd]
                · simp [getCounts, Fifo.pops, countsFrom_succ, hs.gets, hext]
                · simpa [Reply.index, hlt] using hs.bounds
              · refine .inr ⟨by simp [Fifo.run, hpop, hnone], ?_⟩
                exact herr.imp (fun he => by simp [runCalls, hcall, he])
                  (fun he => by simp [runCalls, hcall, he])

/-- Both initialisations leave the empty queue, whatever the memory held before. -/
theorem represents_init (memory : MsgQueue) :
    Represents (Lab4.msgQueueInit memory) Fifo.empty ∧
      Represents (Lab5.msgQueueInit memory) Fifo.empty :=
  have h : Represents (Lab5.msgQueueInit memory) Fifo.empty :=
    ⟨rfl, Nat.zero_le _, Nat.zero_le _, rfl, Fifo.holds_nil _ _ _⟩
  ⟨Lab5.msgQueueInit_eq memory memory ▸ h, h⟩

/-- The program leaves a run through an exit exactly where the bounded queue refuses. -/
theorem runCalls_exit_iff {q : MsgQueue} {f : Fifo Msg (msgMax - 1)} (h : Represents q f)
    (calls : List (Fifo.Op Msg)) :
    (runCalls q calls = .error overflow ∨ runCalls q calls = .error underflow) ↔
      f.run calls = none := by
  rcases runCalls_spec h calls with ⟨rs, q', f', hrun, hs⟩ | ⟨hnone, herr⟩
  · simp [hrun, hs.fifo]
  · exact ⟨fun _ => hnone, fun _ => herr⟩

/-- From either initialisation, the program leaves a run through an exit exactly where the bounded
queue refuses, and a run without an exit is a run of the bounded queue. -/
theorem ring_buffer_fifo (memory q₀ : MsgQueue)
    (hinit : q₀ = Lab4.msgQueueInit memory ∨ q₀ = Lab5.msgQueueInit memory)
    (calls : List (Fifo.Op Msg)) :
    ((runCalls q₀ calls = .error overflow ∨ runCalls q₀ calls = .error underflow) ↔
      (Fifo.empty : Fifo Msg (msgMax - 1)).run calls = none) ∧
    (runCalls q₀ calls ≠ .error overflow → runCalls q₀ calls ≠ .error underflow →
      ∃ replies q, runCalls q₀ calls = .ok (replies, q) ∧
        (∃ f : Fifo Msg (msgMax - 1),
          Fifo.empty.run calls = some (delivered replies, f) ∧ Represents q f) ∧
        (delivered replies).length = Fifo.pops calls ∧
        (∀ i < Fifo.pops calls, (delivered replies)[i]? = (Fifo.pushed calls)[i]?) ∧
        putCounts replies =
          (List.range (Fifo.pushed calls).length).map (fun k => UInt64.ofNat (k + 1)) ∧
        getCounts replies =
          (List.range (Fifo.pops calls)).map (fun k => UInt64.ofNat (k + 1)) ∧
        q.msgAmount.toNat + Fifo.pops calls = (Fifo.pushed calls).length ∧
        q.msgAmount.toNat ≤ msgMax - 1 ∧
        ∀ r ∈ replies, r.index < msgMax) := by
  have hrep : Represents q₀ Fifo.empty := by
    rcases hinit with rfl | rfl
    · exact (represents_init memory).1
    · exact (represents_init memory).2
  refine ⟨runCalls_exit_iff hrep calls, fun hover hunder => ?_⟩
  have hzero : q₀.addCount = 0 ∧ q₀.extractCount = 0 := by
    rcases hinit with rfl | rfl <;> exact ⟨rfl, rfl⟩
  rcases runCalls_spec hrep calls with ⟨rs, q, f, hrun, hs⟩ | ⟨_, herr⟩
  · have hlen := Fifo.run_length hs.fifo
    have hconserve : Fifo.pushed calls = delivered rs ++ f.items := by
      simpa [Fifo.empty] using Fifo.run_conserves hs.fifo
    refine ⟨rs, q, hrun, ⟨f, hs.fifo, hs.represents⟩, hlen, ?_, ?_, ?_, ?_, ?_, hs.bounds⟩
    · intro i hi
      rw [hconserve, List.getElem?_append_left (by omega)]
    · simpa [countsFrom, hzero.1] using hs.puts
    · simpa [countsFrom, hzero.2] using hs.gets
    · rw [hconserve, List.length_append, hlen, hs.represents.amount, Nat.add_comm]
    · rw [hs.represents.amount]
      exact f.fits
  · exact (herr.elim hover hunder).elim

/-- Every put is followed by a get. -/
def alternating (n : ℕ) : List (Fifo.Op Msg) := (List.replicate n [.push Msg.zero, .pop]).flatten

theorem run_alternating (n : ℕ) :
    (Fifo.empty : Fifo Msg (msgMax - 1)).run (alternating n) =
      some (List.replicate n Msg.zero, Fifo.empty) := by
  induction n with
  | zero => rfl
  | succ n ih =>
      have hcons : alternating (n + 1) = .push Msg.zero :: .pop :: alternating n := rfl
      have hpush : (Fifo.empty : Fifo Msg (msgMax - 1)).push? Msg.zero =
          some ⟨[Msg.zero], by decide⟩ := rfl
      have hrest : ((Fifo.empty : Fifo Msg (msgMax - 1)).run (alternating n)).map
          (fun x => (Msg.zero :: x.1, x.2)) =
            some (List.replicate (n + 1) Msg.zero, Fifo.empty) := by
        rw [ih]
        rfl
      rw [hcons, Fifo.run, hpush, Option.bind_some, Fifo.run, Fifo.pop?, Option.bind_some]
      exact hrest

/-- Five thousand puts and gets take both ends of the buffer past its last cell. -/
theorem ring_buffer_fifo_alternating :
    ∃ replies q, runCalls (Lab5.msgQueueInit ⟨1, 2, 3, 4, 5, Vector.replicate msgMax Msg.zero⟩)
      (alternating 5000) = .ok (replies, q) ∧
      delivered replies = List.replicate 5000 Msg.zero ∧ ∀ r ∈ replies, r.index < msgMax := by
  have hfifo := ring_buffer_fifo ⟨1, 2, 3, 4, 5, Vector.replicate msgMax Msg.zero⟩ _ (.inr rfl)
    (alternating 5000)
  have hrun := run_alternating 5000
  have hnone := hfifo.1.not.mpr (by rw [hrun]; exact Option.some_ne_none _)
  obtain ⟨hover, hunder⟩ := not_or.mp hnone
  obtain ⟨replies, q, hok, ⟨f, hf, -⟩, -, -, -, -, -, -, hindex⟩ := hfifo.2 hover hunder
  rw [hrun] at hf
  exact ⟨replies, q, hok, (Prod.mk.inj (Option.some.inj hf)).1.symm, hindex⟩

end OsaspLabs.Ipc
