import Mathlib.Data.List.Basic
import Mathlib.Data.Nat.ModEq

/-! # Bounded first-in first-out queues and their ring layout

The abstract queue carries its capacity bound. A ring of `cap` cells holds a list
from a start position on, positions being taken modulo `cap`. -/

namespace OsaspLabs

/-- A queue of at most `capacity` entries, oldest first. -/
structure Fifo (α : Type*) (capacity : ℕ) where
  items : List α
  fits : items.length ≤ capacity

namespace Fifo

variable {α : Type*} {capacity : ℕ}

def empty : Fifo α capacity := ⟨[], Nat.zero_le _⟩

def push? (f : Fifo α capacity) (x : α) : Option (Fifo α capacity) :=
  if h : f.items.length < capacity then
    some ⟨f.items ++ [x], by simpa using Nat.succ_le_of_lt h⟩
  else none

def pop? : Fifo α capacity → Option (α × Fifo α capacity)
  | ⟨[], _⟩ => none
  | ⟨x :: xs, h⟩ => some (x, ⟨xs, Nat.le_trans (Nat.le_succ _) h⟩)

inductive Op (α : Type*) where
  | push (x : α)
  | pop
  deriving Repr, DecidableEq

/-- The entries pushed by a sequence of operations. -/
def pushed : List (Op α) → List α
  | [] => []
  | .push x :: ops => x :: pushed ops
  | .pop :: ops => pushed ops

/-- The number of pops in a sequence of operations. -/
def pops : List (Op α) → ℕ
  | [] => 0
  | .push _ :: ops => pops ops
  | .pop :: ops => pops ops + 1

/-- Runs the operations and collects what the pops deliver. -/
def run : Fifo α capacity → List (Op α) → Option (List α × Fifo α capacity)
  | f, [] => some ([], f)
  | f, .push x :: ops => (f.push? x).bind fun g => run g ops
  | f, .pop :: ops => f.pop?.bind fun (x, g) => (run g ops).map fun (out, k) => (x :: out, k)

theorem push?_items {f g : Fifo α capacity} {x : α} (h : f.push? x = some g) :
    g.items = f.items ++ [x] := by
  unfold push? at h
  split at h
  · obtain rfl := Option.some.inj h
    rfl
  · cases h

theorem pop?_items {f g : Fifo α capacity} {x : α} (h : f.pop? = some (x, g)) :
    f.items = x :: g.items := by
  obtain ⟨_ | ⟨y, ys⟩, hf⟩ := f
  · cases h
  · obtain ⟨rfl, rfl⟩ := Prod.mk.inj (Option.some.inj h)
    rfl

/-- Nothing is lost, duplicated or reordered between the two ends. -/
theorem run_conserves {f g : Fifo α capacity} {ops : List (Op α)} {out : List α}
    (h : run f ops = some (out, g)) : f.items ++ pushed ops = out ++ g.items := by
  induction ops generalizing f out with
  | nil =>
      obtain ⟨rfl, rfl⟩ := Prod.mk.inj (Option.some.inj h)
      simp [pushed]
  | cons op ops ih =>
      cases op with
      | push x =>
          obtain ⟨k, hk, hrun⟩ := Option.bind_eq_some_iff.mp h
          have hitems := push?_items hk
          have hrest := ih hrun
          rw [hitems] at hrest
          simpa [pushed] using hrest
      | pop =>
          obtain ⟨⟨x, k⟩, hk, hrun⟩ := Option.bind_eq_some_iff.mp h
          obtain ⟨⟨rest, l⟩, hrest, heq⟩ := Option.map_eq_some_iff.mp hrun
          obtain ⟨rfl, rfl⟩ := Prod.mk.inj heq
          have hitems := pop?_items hk
          have hc := ih hrest
          simp only [pushed, hitems, List.cons_append, hc]

theorem run_length {f g : Fifo α capacity} {ops : List (Op α)} {out : List α}
    (h : run f ops = some (out, g)) : out.length = pops ops := by
  induction ops generalizing f out with
  | nil =>
      obtain ⟨rfl, rfl⟩ := Prod.mk.inj (Option.some.inj h)
      rfl
  | cons op ops ih =>
      cases op with
      | push x =>
          obtain ⟨k, _, hrun⟩ := Option.bind_eq_some_iff.mp h
          exact ih hrun
      | pop =>
          obtain ⟨⟨x, k⟩, _, hrun⟩ := Option.bind_eq_some_iff.mp h
          obtain ⟨⟨rest, l⟩, hrest, heq⟩ := Option.map_eq_some_iff.mp hrun
          obtain ⟨rfl, rfl⟩ := Prod.mk.inj heq
          simp [pops, ih hrest]

/-! ## Ring layout -/

/-- The cells of a ring of `cap` positions hold `items` from `start` on. -/
def Holds (cells : ℕ → Option α) (cap start : ℕ) (items : List α) : Prop :=
  ∀ i < items.length, cells ((start + i) % cap) = items[i]?

theorem holds_nil (cells : ℕ → Option α) (cap start : ℕ) : Holds cells cap start [] := by
  intro i hi
  simp at hi

/-- Different offsets within one turn of the ring are different positions. -/
theorem ring_ne {cap start i j : ℕ} (hi : i < cap) (hj : j < cap) (hij : i ≠ j) :
    (start + i) % cap ≠ (start + j) % cap := by
  intro h
  have hmod : i ≡ j [MOD cap] := Nat.ModEq.add_left_cancel' start h
  exact hij (by rwa [Nat.ModEq, Nat.mod_eq_of_lt hi, Nat.mod_eq_of_lt hj] at hmod)

/-- Writing the first free position appends, as long as one position stays free. -/
theorem Holds.push {cells cells' : ℕ → Option α} {cap start : ℕ} {items : List α}
    (h : Holds cells cap start items) (hroom : items.length < cap) (x : α)
    (hwrite : cells' ((start + items.length) % cap) = some x)
    (hframe : ∀ k, k ≠ (start + items.length) % cap → cells' k = cells k) :
    Holds cells' cap start (items ++ [x]) := by
  intro i hi
  simp only [List.length_append, List.length_cons, List.length_nil] at hi
  by_cases hlast : i = items.length
  · subst hlast
    simpa using hwrite
  · have hlt : i < items.length := by omega
    rw [hframe _ (ring_ne (by omega) hroom hlast), h i hlt, List.getElem?_append_left hlt]

/-- Reading the start position delivers the oldest entry. -/
theorem Holds.front {cells : ℕ → Option α} {cap start : ℕ} {x : α} {items : List α}
    (h : Holds cells cap start (x :: items)) : cells (start % cap) = some x := by
  simpa using h 0 (by simp)

theorem Holds.pop {cells : ℕ → Option α} {cap start : ℕ} {x : α} {items : List α}
    (h : Holds cells cap start (x :: items)) : Holds cells cap (start + 1) items := by
  intro i hi
  have hnext := h (i + 1) (by simpa using hi)
  rw [← Nat.add_assoc, Nat.add_right_comm] at hnext
  simpa using hnext

theorem Holds.of_mod_eq {cells : ℕ → Option α} {cap start start' : ℕ} {items : List α}
    (h : Holds cells cap start items) (hmod : start % cap = start' % cap) :
    Holds cells cap start' items := by
  intro i hi
  rw [← h i hi, Nat.add_mod, ← hmod, ← Nat.add_mod]

end Fifo

end OsaspLabs
