import OsaspLabs.Ipc.Accounting
import OsaspLabs.Library.Runs

/-! # Whatever has happened, the workers can go on

As long as there is a producer and a consumer that nothing holds back, and whoever holds a slot
can go on, another message can be delivered. -/

namespace OsaspLabs.Ipc

open Runs

variable {L : Type}

/-- A lock that still admits a holder can be taken. -/
def Admits (lock : Lock L) : Prop :=
  ∀ l t, lock.free l ≠ 0 → ∃ l', lock.acquire l t = some l'

theorem admits_semaphore : Admits Lock.semaphore := fun n _ h => ⟨n - 1, if_neg h⟩

theorem admits_mutex : Admits Lock.mutex := by
  intro m t h
  cases m with
  | none => exact ⟨some t, rfl⟩
  | some u => exact absurd rfl h

/-! ## One worker -/

/-- Where the next step leads. -/
def Pc.successors : Pc → List Pc
  | .producer .produceMsg => [.producer .waitFreeSpace]
  | .producer .waitFreeSpace => [.producer .lock]
  | .producer .lock => [.producer .putMsg]
  | .producer .putMsg => [.producer .unlock]
  | .producer .unlock => [.producer .postItems]
  | .producer .postItems => [.producer .printf]
  | .producer .printf => [.producer .sleep]
  | .producer .sleep => [.producer .produceMsg]
  | .consumer .waitItems => [.consumer .lock]
  | .consumer .lock => [.consumer .getMsg]
  | .consumer .getMsg => [.consumer .unlock]
  | .consumer .unlock => [.consumer .postFreeSpace]
  | .consumer .postFreeSpace => [.consumer .consumeMsg]
  | .consumer .consumeMsg => [.consumer .fprintf, .consumer .printf]
  | .consumer .fprintf => [.consumer .printf]
  | .consumer .printf => [.consumer .sleep]
  | .consumer .sleep => [.consumer .waitItems]

def Pc.isProducer : Pc → Bool
  | .producer _ => true
  | .consumer _ => false

/-- The worker cannot take its step now. -/
def Waits (prog : Program L) (sh : Shared L) : Pc → Prop
  | .producer .waitFreeSpace => sh.freeSpace = 0
  | .consumer .waitItems => sh.items = 0
  | .producer .lock | .consumer .lock => prog.lock.free sh.mutex = 0
  | _ => False

/-- The next step of the worker is the exit of `put_msg`. -/
def Overflows (sh : Shared L) (w : Worker) : Prop :=
  w.pc = .producer .putMsg ∧ putMsg sh.queue w.msg = .error overflow

/-- What a step of a worker that does not wait does to its place and to `items`. -/
structure Moves (sh sh' : Shared L) (w w' : Worker) : Prop where
  pc : w'.pc ∈ w.pc.successors
  items : w.pc ≠ .consumer .waitItems → sh.items ≤ sh'.items
  posted : w.pc = .producer .postItems → 0 < sh'.items

theorem producerStep_moves {prog : Program L} {sh : Shared L} {ws : List Worker} {t : ℕ}
    {rnd : Rand} {w : Worker} {pc : ProducerPc} (hadmits : Admits prog.lock)
    (hb : Balanced prog sh ws) (hpc : w.pc = .producer pc) (hwaits : ¬ Waits prog sh w.pc)
    (hover : ¬ Overflows sh w) :
    ∃ sh' w', producerStep prog t rnd sh w pc = .next sh' w' ∧ Moves sh sh' w w' := by
  rw [hpc] at hwaits
  cases pc with
  | produceMsg | unlock | printf | sleep =>
      exact ⟨_, _, rfl, by simp [hpc, Pc.successors], fun _ => Nat.le_refl _, by simp [hpc]⟩
  | waitFreeSpace =>
      exact ⟨_, _, if_neg hwaits, by simp [hpc, Pc.successors], fun _ => Nat.le_refl _,
        by simp [hpc]⟩
  | lock =>
      obtain ⟨m, hm⟩ := hadmits sh.mutex t hwaits
      refine ⟨{ sh with mutex := m }, { w with pc := .producer .putMsg }, ?_,
        by simp [hpc, Pc.successors], fun _ => Nat.le_refl _, by simp [hpc]⟩
      simp only [producerStep, hm]
  | putMsg =>
      rcases hb.putMsg_cases w.msg with ⟨-, herr⟩ | ⟨-, n, q, hput⟩
      · exact absurd ⟨hpc, herr⟩ hover
      · refine ⟨{ sh with queue := q }, { w with pc := .producer .unlock, counter := n }, ?_,
          by simp [hpc, Pc.successors], fun _ => Nat.le_refl _, by simp [hpc]⟩
        simp only [producerStep, hput]
  | postItems =>
      exact ⟨_, _, rfl, by simp [hpc, Pc.successors], fun _ => Nat.le_succ _,
        fun _ => Nat.succ_pos _⟩

theorem consumerStep_moves {prog : Program L} {sh : Shared L} {ws : List Worker} {t : ℕ}
    {w : Worker} {pc : ConsumerPc} (hadmits : Admits prog.lock) (hb : Balanced prog sh ws)
    (ht : ws[t]? = some w) (hpc : w.pc = .consumer pc) (hwaits : ¬ Waits prog sh w.pc) :
    ∃ sh' w', consumerStep prog t sh w pc = .next sh' w' ∧ Moves sh sh' w w' := by
  rw [hpc] at hwaits
  cases pc with
  | unlock | postFreeSpace | fprintf | printf | sleep =>
      exact ⟨_, _, rfl, by simp [hpc, Pc.successors], fun _ => Nat.le_refl _, by simp [hpc]⟩
  | waitItems =>
      exact ⟨_, _, if_neg hwaits, by simp [hpc, Pc.successors], fun h => absurd hpc h,
        by simp [hpc]⟩
  | lock =>
      obtain ⟨m, hm⟩ := hadmits sh.mutex t hwaits
      refine ⟨{ sh with mutex := m }, { w with pc := .consumer .getMsg }, ?_,
        by simp [hpc, Pc.successors], fun _ => Nat.le_refl _, by simp [hpc]⟩
      simp only [consumerStep, hm]
  | getMsg =>
      obtain ⟨m, n, q, hget⟩ := hb.getMsg_ok ht hpc
      refine ⟨{ sh with queue := q }, ⟨.consumer .unlock, m, n⟩, ?_,
        by simp [hpc, Pc.successors], fun _ => Nat.le_refl _, by simp [hpc]⟩
      simp only [consumerStep, hget]
  | consumeMsg =>
      refine ⟨_, _, rfl, ?_, fun _ => Nat.le_refl _, by simp [hpc]⟩
      cases (consumeMsg w.msg).2 <;> simp [hpc, Pc.successors]

/-- A worker that neither waits nor overflows takes its step. -/
theorem workerStep_moves {prog : Program L} {sh : Shared L} {ws : List Worker} {t : ℕ}
    {rnd : Rand} {w : Worker} (hadmits : Admits prog.lock) (hb : Balanced prog sh ws)
    (ht : ws[t]? = some w) (hwaits : ¬ Waits prog sh w.pc) (hover : ¬ Overflows sh w) :
    ∃ sh' w', workerStep prog t rnd sh w = .next sh' w' ∧ Moves sh sh' w w' := by
  unfold workerStep
  cases hpc : w.pc with
  | producer pc => exact producerStep_moves hadmits hb hpc hwaits hover
  | consumer pc => exact consumerStep_moves hadmits hb ht hpc hwaits

/-! ## All workers -/

/-- The workers alone, without those who create and remove them. -/
structure Crew (L : Type) where
  shared : Shared L
  workers : List Worker

def crewStep (prog : Program L) (s : Crew L) (t : ℕ) : Option (Crew L) :=
  match s.workers[t]? with
  | none => none
  | some w =>
      match workerStep prog t noRand s.shared w with
      | .next sh w' => some ⟨sh, s.workers.set t w'⟩
      | .blocked | .exit _ => none

/-- `may` tells where a worker can go on. -/
def Crew.Allowed (may : ℕ → Pc → Prop) (s : Crew L) (t : ℕ) : Prop :=
  ∃ w, s.workers[t]? = some w ∧ may t w.pc

/-- The accounts are in order, and who holds a slot can go on. -/
structure Crew.Ok (prog : Program L) (may : ℕ → Pc → Prop) (s : Crew L) : Prop where
  balanced : Balanced prog s.shared s.workers
  holders : ∀ t w, s.workers[t]? = some w → w.pc.holdsSlot = true → may t w.pc

/-- The potential of all workers for a way to go. -/
def Crew.potential (d : Pc → ℕ) (s : Crew L) : ℕ := tally (fun w => d w.pc) s.workers

/-- Worker `t`, at `w`, steps on along the way that `d` measures. -/
structure Crew.Advance (d : Pc → ℕ) (s : Crew L) (t : ℕ) (w w' : Worker) (s' : Crew L) :
    Prop where
  moves : Moves s.shared s'.shared w w'
  workers : s'.workers = s.workers.set t w'
  potential : s'.potential d < s.potential d

/-- Somebody is about to take a message out, or to end the program. -/
def Crew.Ready (s : Crew L) : Prop :=
  ∃ (t : ℕ) (w : Worker), s.workers[t]? = some w ∧
    (w.pc = .consumer .getMsg ∨ Overflows s.shared w)

section Way

variable {prog : Program L} {may : ℕ → Pc → Prop} {s : Crew L} {t : ℕ} {w : Worker}

theorem exists_of_count {at? : Pc → Bool} {ws : List Worker} (h : count at? ws ≠ 0) :
    ∃ (t : ℕ) (w : Worker), ws[t]? = some w ∧ at? w.pc = true := by
  obtain ⟨w, hw, hpos⟩ := exists_pos_of_tally_pos (Nat.pos_of_ne_zero h)
  obtain ⟨t, ht⟩ := List.mem_iff_getElem?.mp hw
  refine ⟨t, w, ht, ?_⟩
  cases hat : at? w.pc with
  | true => rfl
  | false => simp [hat] at hpos

theorem Crew.Ok.advance (hadmits : Admits prog.lock)
    (hslot : ∀ t pc pc', may t pc → pc'.holdsSlot = true → may t pc') (hok : s.Ok prog may)
    (ht : s.workers[t]? = some w) (hmay : may t w.pc) (hwaits : ¬ Waits prog s.shared w.pc)
    (hover : ¬ Overflows s.shared w) {d : Pc → ℕ}
    (hd : ∀ pc' ∈ w.pc.successors, d pc' < d w.pc) :
    ∃ w' s', crewStep prog s t = some s' ∧ s'.Ok prog may ∧ s.Advance d t w w' s' := by
  have hnext : ∃ sh' w', workerStep prog t noRand s.shared w = .next sh' w' ∧
      Moves s.shared sh' w w' := workerStep_moves hadmits hok.balanced ht hwaits hover
  obtain ⟨sh', w', hstep, hmoves⟩ := hnext
  refine ⟨w', ⟨sh', s.workers.set t w'⟩, by simp only [crewStep, ht, hstep], ?_, hmoves, rfl,
    tally_set_lt ht (hd w'.pc hmoves.pc)⟩
  constructor
  · exact hok.balanced.work ht hstep
  · apply forall_getElem?_set
    · exact fun hholds => hslot t w.pc w'.pc hmay hholds
    · exact fun u v hu hv hholds => hok.holders u v hv hholds

/-- A taken lock has a holder. -/
theorem Crew.Ok.exists_holder (hok : s.Ok prog may)
    (hlocked : prog.lock.free s.shared.mutex = 0) :
    ∃ (t : ℕ) (w : Worker), s.workers[t]? = some w ∧ may t w.pc ∧
      w.pc.inCriticalSection = true := by
  have hone := hok.balanced.mutex
  have hsome : count Pc.inCriticalSection s.workers ≠ 0 := by omega
  obtain ⟨t, w, ht, hcs⟩ := exists_of_count hsome
  exact ⟨t, w, ht, hok.holders t w ht (holdsSlot_of_inCriticalSection hcs), hcs⟩

/-- It can go on to the end of the critical section. -/
theorem Crew.Ok.exists_unlocking (hok : s.Ok prog may)
    (hlocked : prog.lock.free s.shared.mutex = 0) (hready : ¬ s.Ready) :
    ∃ (t : ℕ) (w : Worker), s.workers[t]? = some w ∧ may t w.pc ∧
      (w.pc = .producer .putMsg ∨ w.pc = .producer .unlock ∨ w.pc = .consumer .unlock) := by
  obtain ⟨t, w, ht, hmay, hcs⟩ := hok.exists_holder hlocked
  refine ⟨t, w, ht, hmay, ?_⟩
  have hget : w.pc ≠ .consumer .getMsg := fun hpc => hready ⟨t, w, ht, .inl hpc⟩
  rcases hpc : w.pc with pc | pc <;> rw [hpc] at hcs hget <;> cases pc <;>
    simp [Pc.inCriticalSection] at hcs hget ⊢

theorem isProducer_of_mem_successors {pc pc' : Pc} (h : pc' ∈ pc.successors) :
    pc'.isProducer = pc.isProducer := by
  cases pc with
  | producer pc => cases pc <;> simp [Pc.successors] at h <;> subst h <;> rfl
  | consumer pc => cases pc <;> simp [Pc.successors] at h <;> rcases h with rfl | rfl <;> rfl

/-- Worker `p` is a producer and worker `c` a consumer. -/
structure Crew.Manned (p c : ℕ) (s : Crew L) : Prop where
  producer : ∃ w, s.workers[p]? = some w ∧ w.pc.isProducer = true
  consumer : ∃ w, s.workers[c]? = some w ∧ w.pc.isProducer = false

theorem Crew.Advance.kind {d : Pc → ℕ} {w' : Worker} {s' : Crew L} {p : ℕ} {b : Bool}
    (h : s.Advance d t w w' s') (ht : s.workers[t]? = some w)
    (hp : ∃ v, s.workers[p]? = some v ∧ v.pc.isProducer = b) :
    ∃ v, s'.workers[p]? = some v ∧ v.pc.isProducer = b := by
  obtain ⟨v, hv, hkind⟩ := hp
  have hlt := (List.getElem?_eq_some_iff.mp ht).1
  rw [h.workers]
  by_cases hpt : p = t
  · subst hpt
    obtain rfl := Option.some.inj (hv.symm.trans ht)
    exact ⟨w', List.getElem?_set_self hlt, by rw [isProducer_of_mem_successors h.moves.pc, hkind]⟩
  · exact ⟨v, by rw [List.getElem?_set_ne (Ne.symm hpt), hv], hkind⟩

theorem Crew.Advance.manned {d : Pc → ℕ} {w' : Worker} {s' : Crew L} {p c : ℕ}
    (h : s.Advance d t w w' s') (ht : s.workers[t]? = some w) (hm : s.Manned p c) :
    s'.Manned p c :=
  ⟨h.kind ht hm.producer, h.kind ht hm.consumer⟩

/-! ## The way to an item -/

/-- An item is there or is about to be, or a consumer has one and goes for the lock. -/
def Crew.Stocked (s : Crew L) : Prop :=
  0 < s.shared.items ∨ ∃ (t : ℕ) (w : Worker), s.workers[t]? = some w ∧
    (w.pc = .consumer .lock ∨ w.pc = .producer .postItems)

/-- The steps to `sem_post(items)`, or until a slot is given back. -/
def Pc.toItem : Pc → ℕ
  | .producer .printf => 7
  | .producer .sleep => 6
  | .producer .produceMsg => 5
  | .producer .waitFreeSpace => 4
  | .producer .lock => 3
  | .producer .putMsg => 2
  | .producer .unlock => 1
  | .consumer .unlock => 2
  | .consumer .postFreeSpace => 1
  | _ => 0

/-- Somebody can step on towards an item: the holder of the lock, the holder of a slot, or else
there is room for the producer. -/
theorem Crew.Ok.exists_toItem {p c : ℕ} (hp : ∀ pc, may p pc) (hok : s.Ok prog may)
    (hm : s.Manned p c) (hready : ¬ s.Ready) (hstocked : ¬ s.Stocked) :
    ∃ (t : ℕ) (w : Worker), s.workers[t]? = some w ∧ may t w.pc ∧
      ¬ Waits prog s.shared w.pc ∧ ∀ pc' ∈ w.pc.successors, pc'.toItem < w.pc.toItem := by
  by_cases hlocked : prog.lock.free s.shared.mutex = 0
  · obtain ⟨t, w, ht, hmay, hpc⟩ := hok.exists_unlocking hlocked hready
    refine ⟨t, w, ht, hmay, ?_, ?_⟩ <;> rcases hpc with hpc | hpc | hpc <;>
      simp [hpc, Waits, Pc.successors, Pc.toItem]
  · by_cases hheld : count Pc.holdsSlot s.workers = 0
    · obtain ⟨w, hw, hkind⟩ := hm.producer
      have hnone : w.pc.holdsSlot = false := by
        cases hholds : w.pc.holdsSlot with
        | false => rfl
        | true =>
            have hle := le_count Pc.holdsSlot hw hholds
            omega
      have hroom : s.shared.freeSpace ≠ 0 := by
        have hslots := hok.balanced.slots_held
        have hitems : s.shared.items = 0 := by
          by_contra hitems
          exact hstocked (.inl (Nat.pos_of_ne_zero hitems))
        have hmax : msgMax = 4096 := rfl
        omega
      refine ⟨p, w, hw, hp w.pc, ?_⟩
      cases hpc : w.pc with
      | producer pc =>
          rw [hpc] at hnone
          cases pc <;> simp [Pc.holdsSlot, Pc.aboutToPut, Pc.aboutToPostItems, Waits, hroom,
            Pc.successors, Pc.toItem] at hnone ⊢
      | consumer pc =>
          rw [hpc] at hkind
          cases hkind
    · obtain ⟨t, w, ht, hholds⟩ := exists_of_count hheld
      have hout : w.pc.inCriticalSection = false := by
        cases hcs : w.pc.inCriticalSection with
        | false => rfl
        | true => exact absurd (hok.balanced.held ht hcs) hlocked
      have hnot : w.pc ≠ .consumer .lock ∧ w.pc ≠ .producer .postItems :=
        ⟨fun hpc => hstocked (.inr ⟨t, w, ht, .inl hpc⟩),
          fun hpc => hstocked (.inr ⟨t, w, ht, .inr hpc⟩)⟩
      have hplace : w.pc = .producer .lock ∨ w.pc = .consumer .postFreeSpace := by
        rcases hpc : w.pc with pc | pc <;> rw [hpc] at hholds hout hnot <;> cases pc <;>
          simp [Pc.holdsSlot, Pc.aboutToPut, Pc.aboutToPostItems, Pc.aboutToGet,
            Pc.aboutToPostFreeSpace, Pc.inCriticalSection] at hholds hout hnot ⊢
      refine ⟨t, w, ht, hok.holders t w ht hholds, ?_, ?_⟩ <;>
        rcases hplace with hpc | hpc <;> simp [hpc, Waits, Pc.successors, Pc.toItem, hlocked]

theorem Crew.Ok.reaches_stocked {p c : ℕ} (hadmits : Admits prog.lock)
    (hslot : ∀ t pc pc', may t pc → pc'.holdsSlot = true → may t pc') (hp : ∀ pc, may p pc)
    (hok : s.Ok prog may) (hm : s.Manned p c) :
    ∃ u, Reaches (crewStep prog) (Crew.Allowed may) s u ∧ (u.Ok prog may ∧ u.Manned p c) ∧
      (u.Ready ∨ u.Stocked) := by
  apply Reaches.exists_final (Crew.potential Pc.toItem) ?_ ⟨hok, hm⟩
  rintro u ⟨hok, hm⟩ hfinal
  have hready : ¬ u.Ready := fun h => hfinal (.inl h)
  obtain ⟨t, w, ht, hmay, hwaits, hd⟩ :=
    hok.exists_toItem hp hm hready fun h => hfinal (.inr h)
  have hover : ¬ Overflows u.shared w := fun hover => hready ⟨t, w, ht, .inr hover⟩
  obtain ⟨w', u', hstep, hok', hadv⟩ := hok.advance hadmits hslot ht hmay hwaits hover hd
  exact ⟨t, u', ⟨w, ht, hmay⟩, hstep, ⟨hok', hadv.manned ht hm⟩, hadv.potential⟩

/-! ## The way of an item to a consumer -/

/-- The steps to `get_msg`, or to `sem_post(items)`, or out of the critical section. -/
def Pc.toMsg : Pc → ℕ
  | .producer .putMsg => 3
  | .producer .unlock => 2
  | .producer .postItems => 1
  | .producer _ => 0
  | .consumer .unlock => 8
  | .consumer .postFreeSpace => 7
  | .consumer .consumeMsg => 6
  | .consumer .fprintf => 5
  | .consumer .printf => 4
  | .consumer .sleep => 3
  | .consumer .waitItems => 2
  | .consumer .lock => 1
  | .consumer .getMsg => 0

/-- The item does not get lost on the step of a worker. -/
theorem Crew.Advance.stocked {d : Pc → ℕ} {w' : Worker} {s' : Crew L}
    (h : s.Advance d t w w' s') (ht : s.workers[t]? = some w) (hs : s.Stocked) :
    s'.Ready ∨ s'.Stocked := by
  have hlt := (List.getElem?_eq_some_iff.mp ht).1
  have hself : s'.workers[t]? = some w' := by rw [h.workers, List.getElem?_set_self hlt]
  have hpc := h.moves.pc
  by_cases hwait : w.pc = .consumer .waitItems
  · rw [hwait] at hpc
    exact .inr (.inr ⟨t, w', hself, .inl (List.mem_singleton.mp hpc)⟩)
  · by_cases hlock : w.pc = .consumer .lock
    · rw [hlock] at hpc
      exact .inl ⟨t, w', hself, .inl (List.mem_singleton.mp hpc)⟩
    · by_cases hpost : w.pc = .producer .postItems
      · exact .inr (.inl (h.moves.posted hpost))
      · rcases hs with hitems | ⟨v, x, hv, hx⟩
        · exact .inr (.inl (Nat.lt_of_lt_of_le hitems (h.moves.items hwait)))
        · have hvt : t ≠ v := by
            intro htv
            subst htv
            obtain rfl := Option.some.inj (hv.symm.trans ht)
            exact hx.elim hlock hpost
          exact .inr (.inr ⟨v, x, by rw [h.workers, List.getElem?_set_ne hvt, hv], hx⟩)

theorem Crew.Ok.exists_toMsg {p c : ℕ} (hc : ∀ pc, may c pc) (hok : s.Ok prog may)
    (hm : s.Manned p c) (hready : ¬ s.Ready) (hstocked : s.Stocked) :
    ∃ (t : ℕ) (w : Worker), s.workers[t]? = some w ∧ may t w.pc ∧
      ¬ Waits prog s.shared w.pc ∧ ∀ pc' ∈ w.pc.successors, pc'.toMsg < w.pc.toMsg := by
  by_cases hlocked : prog.lock.free s.shared.mutex = 0
  · obtain ⟨t, w, ht, hmay, hpc⟩ := hok.exists_unlocking hlocked hready
    refine ⟨t, w, ht, hmay, ?_, ?_⟩ <;> rcases hpc with hpc | hpc | hpc <;>
      simp [hpc, Waits, Pc.successors, Pc.toMsg]
  · by_cases hheld : ∃ (t : ℕ) (w : Worker), s.workers[t]? = some w ∧
        (w.pc = .consumer .lock ∨ w.pc = .producer .postItems)
    · obtain ⟨t, w, ht, hpc⟩ := hheld
      refine ⟨t, w, ht, hok.holders t w ht ?_, ?_, ?_⟩ <;> rcases hpc with hpc | hpc <;>
        simp [hpc, Waits, hlocked, Pc.successors, Pc.toMsg, Pc.holdsSlot, Pc.aboutToPut,
          Pc.aboutToPostItems, Pc.aboutToGet]
    · have hitems : s.shared.items ≠ 0 := by
        rcases hstocked with hitems | hheld'
        · exact Nat.ne_of_gt hitems
        · exact absurd hheld' hheld
      obtain ⟨w, hw, hkind⟩ := hm.consumer
      have hget : w.pc ≠ .consumer .getMsg := fun hpc => hready ⟨c, w, hw, .inl hpc⟩
      refine ⟨c, w, hw, hc w.pc, ?_⟩
      cases hpc : w.pc with
      | producer pc =>
          rw [hpc] at hkind
          cases hkind
      | consumer pc =>
          rw [hpc] at hget
          cases pc <;> simp [Waits, Pc.successors, Pc.toMsg, hlocked, hitems] at hget ⊢

/-- Another message can be delivered, unless the program ends. -/
theorem Crew.Ok.reaches_ready {p c : ℕ} (hadmits : Admits prog.lock)
    (hslot : ∀ t pc pc', may t pc → pc'.holdsSlot = true → may t pc') (hp : ∀ pc, may p pc)
    (hc : ∀ pc, may c pc) (hok : s.Ok prog may) (hm : s.Manned p c) :
    ∃ u, Reaches (crewStep prog) (Crew.Allowed may) s u ∧ u.Ok prog may ∧ u.Ready := by
  obtain ⟨u, hu, ⟨hoku, hmu⟩, hcases⟩ := hok.reaches_stocked hadmits hslot hp hm
  have hway : ∃ v, Reaches (crewStep prog) (Crew.Allowed may) u v ∧
      (v.Ok prog may ∧ v.Manned p c ∧ (v.Ready ∨ v.Stocked)) ∧ v.Ready := by
    apply Reaches.exists_final (Crew.potential Pc.toMsg) ?_ ⟨hoku, hmu, hcases⟩
    rintro v ⟨hok, hm, hcases⟩ hready
    have hstocked : v.Stocked := hcases.resolve_left hready
    obtain ⟨t, w, ht, hmay, hwaits, hd⟩ := hok.exists_toMsg hc hm hready hstocked
    have hover : ¬ Overflows v.shared w := fun hover => hready ⟨t, w, ht, .inr hover⟩
    obtain ⟨w', v', hstep, hok', hadv⟩ := hok.advance hadmits hslot ht hmay hwaits hover hd
    exact ⟨t, v', ⟨w, ht, hmay⟩, hstep, ⟨hok', hadv.manned ht hm, hadv.stocked ht hstocked⟩,
      hadv.potential⟩
  obtain ⟨v, hv, ⟨hokv, -⟩, hready⟩ := hway
  exact ⟨v, hu.trans hv, hokv, hready⟩

end Way

end OsaspLabs.Ipc
