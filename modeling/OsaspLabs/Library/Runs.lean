import Mathlib.Data.Nat.Notation
import Mathlib.Logic.Relation

/-! # Runs of a machine driven by its environment

A machine is a partial step function: an action that is not enabled has no result.
Scheduling and every other choice the code does not control belong to the action. -/

namespace OsaspLabs.Runs

variable {σ α : Type*}

/-- One step from `s` to `t` by an action that `allowed` admits in `s`. -/
def Step (step : σ → α → Option σ) (allowed : σ → α → Prop) (s t : σ) : Prop :=
  ∃ a, allowed s a ∧ step s a = some t

/-- A finite run from `s` to `t` all of whose actions are admitted. -/
abbrev Reaches (step : σ → α → Option σ) (allowed : σ → α → Prop) : σ → σ → Prop :=
  Relation.ReflTransGen (Step step allowed)

/-- The environment that admits every action. -/
def anything (_ : σ) (_ : α) : Prop := True

/-- What holds first and is kept by every admitted step holds at the end of every run. -/
theorem Reaches.invariant {step : σ → α → Option σ} {allowed : σ → α → Prop}
    {I : σ → Prop} {s t : σ} (h : Reaches step allowed s t) (hs : I s)
    (hstep : ∀ u a v, I u → allowed u a → step u a = some v → I v) : I t := by
  induction h with
  | refl => exact hs
  | tail _ hst ih =>
      obtain ⟨a, ha, hv⟩ := hst
      exact hstep _ a _ ih ha hv

theorem Reaches.mono {step : σ → α → Option σ} {allowed allowed' : σ → α → Prop} {s t : σ}
    (h : Reaches step allowed s t) (hallowed : ∀ u a, allowed u a → allowed' u a) :
    Reaches step allowed' s t :=
  h.lift id fun u _ ⟨a, ha, hstep⟩ => ⟨a, hallowed u a ha, hstep⟩

theorem Reaches.anything {step : σ → α → Option σ} {allowed : σ → α → Prop} {s t : σ}
    (h : Reaches step allowed s t) : Reaches step Runs.anything s t :=
  h.mono fun _ _ _ => trivial

/-- If every admitted step of a machine is matched by a run of another, then so is every run. -/
theorem Reaches.simulate {σ' α' : Type*} {step : σ → α → Option σ} {allowed : σ → α → Prop}
    {step' : σ' → α' → Option σ'} {allowed' : σ' → α' → Prop} {R : σ → σ' → Prop} {s t : σ}
    {s' : σ'} (h : Reaches step allowed s t) (hs : R s s')
    (hstep : ∀ u a v u', R u u' → allowed u a → step u a = some v →
      ∃ v', Reaches step' allowed' u' v' ∧ R v v') :
    ∃ t', Reaches step' allowed' s' t' ∧ R t t' := by
  induction h with
  | refl => exact ⟨s', .refl, hs⟩
  | tail _ hst ih =>
      obtain ⟨u', hu', hR⟩ := ih
      obtain ⟨a, ha, hv⟩ := hst
      obtain ⟨v', hv', hR'⟩ := hstep _ a _ u' hR ha hv
      exact ⟨v', hu'.trans hv', hR'⟩

/-- Executing a list of actions, stopping at the first one that is not enabled. -/
def exec (step : σ → α → Option σ) : σ → List α → Option σ
  | s, [] => some s
  | s, a :: as => (step s a).bind fun t => exec step t as

theorem exec_append {step : σ → α → Option σ} {s t : σ} {as : List α}
    (h : exec step s as = some t) (bs : List α) :
    exec step s (as ++ bs) = exec step t bs := by
  induction as generalizing s with
  | nil => rw [← Option.some.inj h, List.nil_append]
  | cons a as ih =>
      obtain ⟨u, hu, ht⟩ := Option.bind_eq_some_iff.mp h
      rw [List.cons_append, exec, hu, Option.bind_some, ih ht]

/-- Executed actions that are admitted everywhere make a run. -/
theorem reaches_of_exec {step : σ → α → Option σ} {allowed : σ → α → Prop} {s t : σ}
    {as : List α} (hallowed : ∀ a ∈ as, ∀ u, allowed u a) (h : exec step s as = some t) :
    Reaches step allowed s t := by
  induction as generalizing s with
  | nil => exact Option.some.inj h ▸ .refl
  | cons a as ih =>
      obtain ⟨u, hu, ht⟩ := Option.bind_eq_some_iff.mp h
      have hrest := ih (fun b hb => hallowed b (List.mem_cons_of_mem a hb)) ht
      exact .head ⟨a, hallowed a List.mem_cons_self s, hu⟩ hrest

theorem reaches_anything_of_exec {step : σ → α → Option σ} {s t : σ} {as : List α}
    (h : exec step s as = some t) : Reaches step anything s t :=
  reaches_of_exec (fun _ _ _ => trivial) h

/-- Executed actions each of which is admitted where it is taken make a run. -/
theorem reaches_of_guarded {step : σ → α → Option σ} {allowed : σ → α → Prop}
    [∀ s a, Decidable (allowed s a)] {s t : σ} {as : List α}
    (h : exec (fun u a => if allowed u a then step u a else none) s as = some t) :
    Reaches step allowed s t := by
  induction as generalizing s with
  | nil => exact Option.some.inj h ▸ .refl
  | cons a as ih =>
      obtain ⟨u, hu, ht⟩ := Option.bind_eq_some_iff.mp h
      obtain ⟨hallowed, hu⟩ := Option.ite_none_right_eq_some.mp hu
      exact .head ⟨a, hallowed, hu⟩ (ih ht)

/-- If every state that is not final has a step that lowers a measure, then a final state is
reached. -/
theorem exists_final {step : σ → α → Option σ} {I final : σ → Prop} (μ : σ → ℕ)
    (hkeep : ∀ u a v, I u → step u a = some v → I v)
    (hprogress : ∀ u, I u → ¬ final u → ∃ a v, step u a = some v ∧ μ v < μ u) {s : σ}
    (hs : I s) : ∃ t, Reaches step anything s t ∧ final t := by
  induction hn : μ s using Nat.strongRecOn generalizing s with
  | ind n ih =>
      by_cases hfinal : final s
      · exact ⟨s, .refl, hfinal⟩
      · obtain ⟨a, v, hv, hlt⟩ := hprogress s hs hfinal
        obtain ⟨t, ht, htf⟩ := ih (μ v) (hn ▸ hlt) (hkeep s a v hs hv) rfl
        exact ⟨t, .head ⟨a, trivial, hv⟩ ht, htf⟩

/-- If in every state that is not final some admitted step keeps what holds there and lowers a
measure, then a final state is reached. -/
theorem Reaches.exists_final {step : σ → α → Option σ} {allowed : σ → α → Prop}
    {I final : σ → Prop} (μ : σ → ℕ)
    (hprogress : ∀ u, I u → ¬ final u →
      ∃ a v, allowed u a ∧ step u a = some v ∧ I v ∧ μ v < μ u) {s : σ} (hs : I s) :
    ∃ t, Reaches step allowed s t ∧ I t ∧ final t := by
  induction hn : μ s using Nat.strongRecOn generalizing s with
  | ind n ih =>
      by_cases hfinal : final s
      · exact ⟨s, .refl, hs, hfinal⟩
      · obtain ⟨a, v, ha, hv, hI, hlt⟩ := hprogress s hs hfinal
        obtain ⟨t, ht, htf⟩ := ih (μ v) (hn ▸ hlt) hI rfl
        exact ⟨t, .head ⟨a, ha, hv⟩ ht, htf⟩

end OsaspLabs.Runs
