import Mathlib.Data.Nat.Init
import Mathlib.Logic.Basic

/-! # Locks by the number of holders they still admit

A semaphore used as a lock and a mutex with an owner have the same accounting. -/

namespace OsaspLabs

/-- A lock with states `L`, taken and dropped by threads numbered by `ℕ`. -/
structure Lock (L : Type*) where
  acquire : L → ℕ → Option L
  release : L → ℕ → L
  free : L → ℕ
  free_of_acquire : ∀ {l l' : L} {t : ℕ}, acquire l t = some l' → free l = free l' + 1
  free_release : ∀ {l : L} (t : ℕ), free l = 0 → free (release l t) = 1

namespace Lock

/-- A counting semaphore: `sem_wait` takes one, `sem_post` adds one. -/
def semaphore : Lock ℕ where
  acquire n _ := if n = 0 then none else some (n - 1)
  release n _ := n + 1
  free n := n
  free_of_acquire := by
    intro n n' t h
    split at h
    · cases h
    · obtain rfl := Option.some.inj h
      omega
  free_release := by
    intro n t h
    rw [h]

/-- A mutex that records its owner. -/
def mutex : Lock (Option ℕ) where
  acquire
    | none, t => some (some t)
    | some _, _ => none
  release _ _ := none
  free
    | none => 1
    | some _ => 0
  free_of_acquire := by
    intro l l' t h
    cases l with
    | none => obtain rfl := Option.some.inj h; rfl
    | some u => cases h
  free_release := by
    intro l t _
    rfl

theorem mutex_acquire {m m' : Option ℕ} {t : ℕ} (h : mutex.acquire m t = some m') :
    m = none ∧ m' = some t := by
  cases m with
  | none => exact ⟨rfl, (Option.some.inj h).symm⟩
  | some u => cases h

/-! ## Ownership of a mutex by one flag per thread -/

/-- The owner of the mutex is the one thread whose flag is set. -/
def OwnedBy (m : Option ℕ) (flags : List Bool) : Prop :=
  ∀ t, m = some t ↔ flags[t]? = some true

theorem OwnedBy.acquire {flags : List Bool} {t : ℕ} (h : OwnedBy none flags)
    (ht : t < flags.length) : OwnedBy (some t) (flags.set t true) := by
  intro u
  rw [List.getElem?_set]
  by_cases htu : t = u
  · simp [htu ▸ ht, htu]
  · have hu : flags[u]? ≠ some true := fun hset => nomatch (h u).mpr hset
    simp [htu, hu]

theorem OwnedBy.release {m : Option ℕ} {flags : List Bool} {t : ℕ} (h : OwnedBy m flags)
    (ht : flags[t]? = some true) : OwnedBy none (flags.set t false) := by
  intro u
  rw [List.getElem?_set]
  have hm := (h t).mpr ht
  by_cases htu : t = u
  · simp [htu]
  · have hu : flags[u]? ≠ some true := fun hset =>
      htu (Option.some.inj (hm.symm.trans ((h u).mpr hset)))
    simp [htu, hu]

theorem OwnedBy.append {m : Option ℕ} {flags : List Bool} (h : OwnedBy m flags) :
    OwnedBy m (flags ++ [false]) := by
  intro u
  rw [h u, List.getElem?_append]
  split
  · rfl
  · rename_i hu
    have hnone : flags[u]? = none := List.getElem?_eq_none (by omega)
    have hfalse : ∀ k : ℕ, [false][k]? ≠ some true := by
      intro k
      cases k <;> simp
    simp [hnone, hfalse]

/-- A step of thread `t` keeps, takes or drops the mutex together with its flag. -/
inductive Handover (t : ℕ) (m : Option ℕ) (flag : Bool) (m' : Option ℕ) (flag' : Bool) :
    Prop where
  | keep (mutex : m' = m) (same : flag' = flag)
  | take (free : m = none) (mutex : m' = some t) (owner : flag' = true)
  | drop (owner : flag = true) (mutex : m' = none) (other : flag' = false)

theorem OwnedBy.handover {m m' : Option ℕ} {flags : List Bool} {t : ℕ} {flag flag' : Bool}
    (h : OwnedBy m flags) (ht : flags[t]? = some flag) (hand : Handover t m flag m' flag') :
    OwnedBy m' (flags.set t flag') := by
  obtain ⟨hlt, hval⟩ := List.getElem?_eq_some_iff.mp ht
  cases hand with
  | keep mutex same =>
      rw [mutex, same, ← hval, List.set_getElem_self]
      exact h
  | take free mutex owner =>
      subst free
      rw [mutex, owner]
      exact h.acquire hlt
  | drop owner mutex other =>
      rw [mutex, other]
      exact h.release (owner ▸ ht)

/-- A mutex blocks nobody for good: its owner, or else any thread that has not finished, is
free to go on. -/
theorem OwnedBy.exists_able {β : Type*} {pcs : List β} {flag : β → Bool} {final : β → Prop}
    {m : Option ℕ} (h : OwnedBy m (pcs.map flag)) (hfinal : ∀ pc, final pc → flag pc = false)
    (hrest : ¬ ∀ pc ∈ pcs, final pc) :
    ∃ (t : ℕ) (pc : β), pcs[t]? = some pc ∧ ¬ final pc ∧ (m = none ∨ flag pc = true) := by
  cases hm : m with
  | none =>
      simp only [not_forall] at hrest
      obtain ⟨pc, hmem, hpc⟩ := hrest
      obtain ⟨t, ht⟩ := List.mem_iff_getElem?.mp hmem
      exact ⟨t, pc, ht, hpc, .inl rfl⟩
  | some t =>
      have hflag := (h t).mp hm
      rw [List.getElem?_map] at hflag
      obtain ⟨pc, ht, hin⟩ := Option.map_eq_some_iff.mp hflag
      have hpc : ¬ final pc := by
        intro hdone
        rw [hfinal pc hdone] at hin
        cases hin
      exact ⟨t, pc, ht, hpc, .inr hin⟩

end Lock

end OsaspLabs
