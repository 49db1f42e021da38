import Mathlib.Data.Nat.Notation

/-! # Standard signals

A process has room for one pending instance of a standard signal; further instances are
discarded with their values. While the handler runs, the signal is blocked. -/

namespace OsaspLabs

/-- One signal of one process, with the values that its instances carry. -/
structure Signal (α : Type*) where
  pending : Option α
  /-- The value that the handler was called with, while it runs. -/
  handling : Option α
  deriving DecidableEq, Repr

namespace Signal

variable {α : Type*} {s s' : Signal α} {v w : α}

/-- Nothing has arrived. -/
def idle : Signal α := ⟨none, none⟩

/-- An instance is sent. -/
def post (s : Signal α) (v : α) : Signal α := { s with pending := some (s.pending.getD v) }

/-- The handler is called. -/
def deliver (s : Signal α) : Option (α × Signal α) :=
  match s.handling, s.pending with
  | none, some v => some (v, ⟨none, some v⟩)
  | _, _ => none

/-- The handler returns. -/
def finish (s : Signal α) : Signal α := { s with handling := none }

/-- The value is pending or handled. -/
def Holds (s : Signal α) (v : α) : Prop := s.pending = some v ∨ s.handling = some v

instance [DecidableEq α] (s : Signal α) (v : α) : Decidable (s.Holds v) :=
  inferInstanceAs (Decidable (s.pending = some v ∨ s.handling = some v))

@[simp] theorem handling_post : (s.post v).handling = s.handling := rfl

theorem deliver_eq_some_iff :
    s.deliver = some (v, s') ↔ s.handling = none ∧ s.pending = some v ∧ s' = ⟨none, some v⟩ := by
  unfold deliver
  cases s.handling with
  | some w => simp
  | none =>
      cases s.pending with
      | none => simp
      | some w =>
          simp only [Option.some.injEq, Prod.mk.injEq, true_and]
          constructor
          · rintro ⟨rfl, rfl⟩
            exact ⟨rfl, rfl⟩
          · rintro ⟨rfl, rfl⟩
            exact ⟨rfl, rfl⟩

/-- What has arrived is not overwritten. -/
theorem Holds.post (h : s.Holds v) (w : α) : (s.post w).Holds v := by
  rcases h with h | h
  · refine .inl ?_
    rw [Signal.post, h, Option.getD_some]
  · exact .inr h

/-- An instance arrives if and only if no other is pending, or one of its value is there. -/
theorem holds_post_iff : (s.post v).Holds v ↔ s.pending = none ∨ s.Holds v := by
  constructor
  · rintro (h | h)
    · cases hp : s.pending with
      | none => exact .inl rfl
      | some w =>
          rw [Signal.post, hp, Option.getD_some] at h
          exact .inr (.inl (hp.trans h))
    · exact .inr (.inr h)
  · rintro (h | h)
    · refine .inl ?_
      rw [Signal.post, h, Option.getD_none]
    · exact h.post v

/-- A delivery keeps what is pending, as the value that is handled. -/
theorem Holds.deliver (h : s.Holds v) (hdel : s.deliver = some (w, s')) : s'.Holds v := by
  obtain ⟨hhandling, hpending, rfl⟩ := deliver_eq_some_iff.mp hdel
  rcases h with h | h
  · exact .inr (hpending.symm.trans h)
  · exact absurd (hhandling.symm.trans h) (by simp)

/-- A value comes only by an instance that carries it. -/
theorem Holds.of_post (h : (s.post w).Holds v) : s.Holds v ∨ v = w := by
  rcases h with h | h
  · cases hp : s.pending with
    | none =>
        rw [Signal.post, hp, Option.getD_none] at h
        exact .inr (Option.some.inj h).symm
    | some u =>
        rw [Signal.post, hp, Option.getD_some] at h
        exact .inl (.inl (hp.trans h))
  · exact .inl (.inr h)

theorem Holds.of_deliver (h : s'.Holds v) (hdel : s.deliver = some (w, s')) : s.Holds v := by
  obtain ⟨_, hpending, rfl⟩ := deliver_eq_some_iff.mp hdel
  rcases h with h | h
  · cases h
  · exact .inl (hpending.trans h)

end Signal

end OsaspLabs
