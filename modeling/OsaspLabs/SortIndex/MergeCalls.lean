import OsaspLabs.SortIndex.Lockstep

/-! # A round with its merges taken apart

`roundStep` makes a call of `merge` one step. Here a thread copies its two blocks and writes
the merged records one at a time, and the threads take turns between any two records. -/

namespace OsaspLabs.SortIndex

open Runs

variable {τ : Type*} [LinearOrder τ]

/-- Where a thread is in `merge`, with its locals. -/
inductive MergePc (τ : Type*) where
  /-- The first `memcpy`; `idx1` is what it has copied. -/
  | copyFirst (idx1 : Window τ)
  | copySecond (idx1 idx2 : Window τ)
  /-- `while (i < n && j < n)` -/
  | loop (idx1 idx2 : Window τ) (i j k : ℕ)
  /-- `while (i < n)` -/
  | restFirst (idx1 idx2 : Window τ) (i j k : ℕ)
  /-- `while (j < n)` -/
  | restSecond (idx2 : Window τ) (j k : ℕ)
  | finished
  deriving DecidableEq

/-- One turn of the loop that a thread is in. -/
def mergeCallStep (n no : ℕ) (w : Window τ) : MergePc τ → Option (MergePc τ × Window τ)
  | .copyFirst idx1 =>
      if idx1.length < n then do
        let a ← w[n * no + idx1.length]?
        some (.copyFirst (idx1 ++ [a]), w)
      else some (.copySecond idx1 [], w)
  | .copySecond idx1 idx2 =>
      if idx2.length < n then do
        let a ← w[n * (no + 1) + idx2.length]?
        some (.copySecond idx1 (idx2 ++ [a]), w)
      else some (.loop idx1 idx2 0 0 (n * no), w)
  | .loop idx1 idx2 i j k =>
      if i < n ∧ j < n then do
        let a ← idx1[i]?
        let b ← idx2[j]?
        if a.timeMark < b.timeMark then
          some (.loop idx1 idx2 (i + 1) j (k + 1), ← store w k a)
        else some (.loop idx1 idx2 i (j + 1) (k + 1), ← store w k b)
      else some (.restFirst idx1 idx2 i j k, w)
  | .restFirst idx1 idx2 i j k =>
      if i < n then do
        let a ← idx1[i]?
        some (.restFirst idx1 idx2 (i + 1) j (k + 1), ← store w k a)
      else some (.restSecond idx2 j k, w)
  | .restSecond idx2 j k =>
      if j < n then do
        let b ← idx2[j]?
        some (.restSecond idx2 (j + 1) (k + 1), ← store w k b)
      else some (.finished, w)
  | .finished => none

/-- A round whose threads share the window. -/
structure FineState (τ : Type*) where
  round : RoundState
  /-- The locals of the threads that are inside `merge`. -/
  calls : ℕ → Option (MergePc τ)
  window : Window τ

def fineInit (threads : ℕ) (map : List BlocksMap) (w : Window τ) : FineState τ :=
  ⟨roundInit threads map, fun _ => none, w⟩

/-- A step of the loop around `merge`; a call ends with it. -/
def FineState.move (B : ℕ) (s : FineState τ) (t : ℕ) : Option (FineState τ) :=
  (roundStep B s.round t).map fun r =>
    { s with round := r, calls := Function.update s.calls t none }

/-- One step of thread `t`. At `merge` it enters the call, takes a turn inside or returns. -/
def fineStep (memsize B : ℕ) (s : FineState τ) (t : ℕ) : Option (FineState τ) :=
  match s.round.pcs[t]? with
  | some (.merge _ sav) =>
      match s.calls t with
      | none => some { s with calls := Function.update s.calls t (some (.copyFirst [])) }
      | some .finished => s.move B t
      | some pc =>
          (mergeCallStep (memsize / B) sav.toNat s.window pc).map fun (pc', w) =>
            { s with calls := Function.update s.calls t (some pc'), window := w }
  | _ => s.move B t

/-! ## What a step can do -/

inductive FineEffect (memsize B : ℕ) (s : FineState τ) (t : ℕ) (s' : FineState τ) : Prop where
  | enter (i : ℕ) (sav : ℤ) (at? : s.round.pcs[t]? = some (.merge i sav))
      (call : s.calls t = none) (round : s'.round = s.round)
      (calls : s'.calls = Function.update s.calls t (some (.copyFirst [])))
      (window : s'.window = s.window)
  | turn (i : ℕ) (sav : ℤ) (pc pc' : MergePc τ)
      (at? : s.round.pcs[t]? = some (.merge i sav)) (call : s.calls t = some pc)
      (next : mergeCallStep (memsize / B) sav.toNat s.window pc = some (pc', s'.window))
      (round : s'.round = s.round)
      (calls : s'.calls = Function.update s.calls t (some pc'))
  /-- A step of the loop around `merge`, the return from a call included. -/
  | move (step : roundStep B s.round t = some s'.round)
      (call : ∀ i sav, s.round.pcs[t]? = some (.merge i sav) → s.calls t = some .finished)
      (calls : s'.calls = Function.update s.calls t none) (window : s'.window = s.window)

theorem fineStep_effect {memsize B t : ℕ} {s s' : FineState τ}
    (h : fineStep memsize B s t = some s') : FineEffect memsize B s t s' := by
  have hmove : s.move B t = some s' →
      (∀ i sav, s.round.pcs[t]? = some (.merge i sav) → s.calls t = some .finished) →
      FineEffect memsize B s t s' := by
    intro hm hcall
    obtain ⟨r, hr, rfl⟩ := Option.map_eq_some_iff.mp hm
    exact .move hr hcall rfl rfl
  unfold fineStep at h
  split at h
  · rename_i i sav hpc
    split at h
    · rename_i hcall
      obtain rfl := Option.some.inj h
      exact .enter i sav hpc hcall rfl rfl rfl
    · rename_i hcall
      exact hmove h fun _ _ _ => hcall
    · rename_i pc _ hcall
      obtain ⟨⟨pc', w⟩, hnext, rfl⟩ := Option.map_eq_some_iff.mp h
      exact .turn i sav pc pc' hpc hcall hnext rfl rfl
  · rename_i hno
    exact hmove h fun i sav hpc => absurd hpc (hno i sav)

/-- The steps around the merges are those of the round with whole merges. -/
theorem round_reaches {memsize B : ℕ} {s s' : FineState τ}
    (h : Reaches (fineStep memsize B) anything s s') :
    Reaches (roundStep B) anything s.round s'.round := by
  induction h with
  | refl => exact .refl
  | @tail u v _ hstep ih =>
      obtain ⟨t, _, hv⟩ := hstep
      cases fineStep_effect hv with
      | enter i sav at? call round calls window => exact round ▸ ih
      | turn i sav pc pc' at? call next round calls => exact round ▸ ih
      | move step call calls window => exact ih.tail ⟨t, trivial, step⟩

/-! ## One call -/

/-- What a thread has done of the merge of the blocks `2 * p` and `2 * p + 1`: their records were
`v` when it came and are `u` now. What it has written, followed by the merge of what is left, is
the merge of the two blocks. -/
def MergePc.Ok (n p : ℕ) (v u : Window τ) : MergePc τ → Prop
  | .copyFirst idx1 => u = v ∧ idx1.length ≤ n ∧ idx1 = v.take idx1.length
  | .copySecond idx1 idx2 =>
      u = v ∧ idx1 = v.take n ∧ idx2.length ≤ n ∧ idx2 = (v.drop n).take idx2.length
  | .loop idx1 idx2 i j k =>
      idx1 = v.take n ∧ idx2 = v.drop n ∧ i ≤ n ∧ j ≤ n ∧ k = 2 * n * p + (i + j) ∧
        u.take (i + j) ++ List.merge (idx1.drop i) (idx2.drop j) takesFirst = mergeHalves n v
  | .restFirst idx1 idx2 i j k =>
      idx1 = v.take n ∧ idx2 = v.drop n ∧ i ≤ n ∧ j ≤ n ∧ k = 2 * n * p + (i + j) ∧
        (i = n ∨ j = n) ∧ u.take (i + j) ++ (idx1.drop i ++ idx2.drop j) = mergeHalves n v
  | .restSecond idx2 j k =>
      idx2 = v.drop n ∧ j ≤ n ∧ k = 2 * n * p + (n + j) ∧
        u.take (n + j) ++ idx2.drop j = mergeHalves n v
  | .finished => u = mergeHalves n v

/-- The turns that a thread has left in `merge`. -/
def MergePc.left (n : ℕ) : MergePc τ → ℕ
  | .copyFirst idx1 => 3 * n + 5 + (n - idx1.length)
  | .copySecond _ idx2 => 2 * n + 4 + (n - idx2.length)
  | .loop _ _ i j _ => 3 + (n - i) + (n - j)
  | .restFirst _ _ i j _ => 2 + (n - i) + (n - j)
  | .restSecond _ j _ => 1 + (n - j)
  | .finished => 0

/-- What one turn does to the slices of the window. -/
structure Turn (n p : ℕ) (v w : Window τ) (pc pc' : MergePc τ) (w' : Window τ) : Prop where
  length : w'.length = w.length
  frame : ∀ q, q ≠ p → slice (2 * n) q w' = slice (2 * n) q w
  ok : pc'.Ok n p v (slice (2 * n) p w')
  left : pc'.left n < pc.left n

omit [LinearOrder τ] in
theorem store_eq {w w' : Window τ} {k : ℕ} {a : IndexS τ} (h : store w k a = some w') :
    w' = w.set k a := by
  unfold store at h
  split at h
  · exact (Option.some.inj h).symm
  · cases h

omit [LinearOrder τ] in
/-- A record written behind what has been written moves from what is left to it. -/
theorem take_set_append {u rest m : Window τ} {r : ℕ} {a : IndexS τ} (hr : r < u.length)
    (h : u.take r ++ a :: rest = m) : (u.set r a).take (r + 1) ++ rest = m := by
  have htake : (u.set r a).take (r + 1) = u.take r ++ [a] := by
    rw [List.take_add_one, List.take_set_of_le le_rfl]
    simp [hr]
  rw [htake, ← h, List.append_assoc]
  rfl

/-- A turn that writes one record of the slice. -/
theorem Turn.write {n p r : ℕ} {v w w' : Window τ} {pc pc' : MergePc τ} {a : IndexS τ} {k : ℕ}
    (hk : k = 2 * n * p + r) (hr : r < 2 * n) (hs : store w k a = some w')
    (hok : pc'.Ok n p v ((slice (2 * n) p w).set r a)) (hleft : pc'.left n < pc.left n) :
    Turn n p v w pc pc' w' := by
  rw [hk] at hs
  obtain rfl := store_eq hs
  constructor
  · exact List.length_set
  · exact fun q hq => slice_set_of_ne w a (Ne.symm hq) hr
  · rw [slice_set_self w a hr]
    exact hok
  · exact hleft

/-- A turn that only reads. -/
theorem Turn.read {n p : ℕ} {v w : Window τ} {pc pc' : MergePc τ}
    (hok : pc'.Ok n p v (slice (2 * n) p w)) (hleft : pc'.left n < pc.left n) :
    Turn n p v w pc pc' w :=
  ⟨rfl, fun _ _ => rfl, hok, hleft⟩

section Turns

variable {n p : ℕ} {v w w' : Window τ} {pc' : MergePc τ}

theorem copyFirst_turn {idx1 : Window τ}
    (hok : (MergePc.copyFirst idx1).Ok n p v (slice (2 * n) p w))
    (h : mergeCallStep n (2 * p) w (.copyFirst idx1) = some (pc', w')) :
    Turn n p v w (.copyFirst idx1) pc' w' := by
  obtain ⟨huv, hle, htake⟩ := hok
  simp only [mergeCallStep] at h
  split at h
  · rename_i hlt
    obtain ⟨a, ha, h⟩ := Option.bind_eq_some_iff.mp h
    obtain ⟨rfl, rfl⟩ := Prod.mk.inj (Option.some.inj h)
    have hlen : (idx1 ++ [a]).length = idx1.length + 1 := List.length_append
    have hfirst : n * (2 * p) = 2 * n * p := by ring
    rw [hfirst, ← getElem?_slice_of_lt (by omega), huv] at ha
    refine .read ⟨huv, hlen ▸ hlt, ?_⟩ (by simp only [MergePc.left, hlen]; omega)
    rw [hlen, List.take_add_one, ha, ← htake]
    rfl
  · rename_i hge
    obtain ⟨rfl, rfl⟩ := Prod.mk.inj (Option.some.inj h)
    have hn : idx1.length = n := by omega
    apply Turn.read
    · exact ⟨huv, hn ▸ htake, Nat.zero_le _, by simp⟩
    · simp only [MergePc.left, List.length_nil]
      omega

theorem copySecond_turn {idx1 idx2 : Window τ} (hv : v.length = 2 * n)
    (hok : (MergePc.copySecond idx1 idx2).Ok n p v (slice (2 * n) p w))
    (h : mergeCallStep n (2 * p) w (.copySecond idx1 idx2) = some (pc', w')) :
    Turn n p v w (.copySecond idx1 idx2) pc' w' := by
  obtain ⟨huv, h1, hle, htake⟩ := hok
  simp only [mergeCallStep] at h
  split at h
  · rename_i hlt
    obtain ⟨a, ha, h⟩ := Option.bind_eq_some_iff.mp h
    obtain ⟨rfl, rfl⟩ := Prod.mk.inj (Option.some.inj h)
    have hlen : (idx2 ++ [a]).length = idx2.length + 1 := List.length_append
    have hsecond : n * (2 * p + 1) + idx2.length = 2 * n * p + (n + idx2.length) := by ring
    rw [hsecond, ← getElem?_slice_of_lt (by omega), huv, ← List.getElem?_drop] at ha
    refine .read ⟨huv, h1, hlen ▸ hlt, ?_⟩ (by simp only [MergePc.left, hlen]; omega)
    rw [hlen, List.take_add_one, ha, ← htake]
    rfl
  · rename_i hge
    obtain ⟨rfl, rfl⟩ := Prod.mk.inj (Option.some.inj h)
    have hn : idx2.length = n := by omega
    have h2 : idx2 = v.drop n := by
      rw [htake, hn, List.take_of_length_le (by rw [List.length_drop]; omega)]
    apply Turn.read
    · exact ⟨h1, h2, Nat.zero_le _, Nat.zero_le _, by ring, by simp [h1, h2, mergeHalves]⟩
    · simp only [MergePc.left]
      omega

theorem loop_turn {idx1 idx2 : Window τ} {i j k : ℕ} (hv : v.length = 2 * n)
    (hu : (slice (2 * n) p w).length = 2 * n)
    (hok : (MergePc.loop idx1 idx2 i j k).Ok n p v (slice (2 * n) p w))
    (h : mergeCallStep n (2 * p) w (.loop idx1 idx2 i j k) = some (pc', w')) :
    Turn n p v w (.loop idx1 idx2 i j k) pc' w' := by
  obtain ⟨h1, h2, hi, hj, hk, hmerge⟩ := hok
  have hlen1 : idx1.length = n := by
    rw [h1, List.length_take]
    omega
  have hlen2 : idx2.length = n := by
    rw [h2, List.length_drop]
    omega
  simp only [mergeCallStep] at h
  split at h
  · rename_i hboth
    have hlt1 : i < idx1.length := by omega
    have hlt2 : j < idx2.length := by omega
    rw [List.getElem?_eq_getElem hlt1, List.getElem?_eq_getElem hlt2] at h
    simp only [Option.bind_eq_bind, Option.bind_some] at h
    rw [List.drop_eq_getElem_cons hlt1, List.drop_eq_getElem_cons hlt2,
      List.cons_merge_cons] at hmerge
    by_cases hlt : idx1[i].timeMark < idx2[j].timeMark
    · rw [if_pos hlt] at h
      rw [if_pos (by simpa [takesFirst] using hlt)] at hmerge
      obtain ⟨w₁, hs, h⟩ := Option.bind_eq_some_iff.mp h
      obtain ⟨rfl, rfl⟩ := Prod.mk.inj (Option.some.inj h)
      refine .write hk (by omega) hs ⟨h1, h2, hboth.1, hj, by omega, ?_⟩
        (by simp only [MergePc.left]; omega)
      rw [Nat.add_right_comm, List.drop_eq_getElem_cons hlt2]
      exact take_set_append (by omega) hmerge
    · rw [if_neg hlt] at h
      rw [if_neg (by simpa [takesFirst] using hlt)] at hmerge
      obtain ⟨w₁, hs, h⟩ := Option.bind_eq_some_iff.mp h
      obtain ⟨rfl, rfl⟩ := Prod.mk.inj (Option.some.inj h)
      refine .write hk (by omega) hs ⟨h1, h2, hi, hboth.2, by omega, ?_⟩
        (by simp only [MergePc.left]; omega)
      rw [← Nat.add_assoc, List.drop_eq_getElem_cons hlt1]
      exact take_set_append (by omega) hmerge
  · rename_i hend
    obtain ⟨rfl, rfl⟩ := Prod.mk.inj (Option.some.inj h)
    refine .read ⟨h1, h2, hi, hj, hk, by omega, ?_⟩ (by simp only [MergePc.left]; omega)
    rw [← hmerge]
    congr 1
    rcases Nat.lt_or_ge i n with hlt | hge
    · rw [List.drop_of_length_le (by omega : idx2.length ≤ j)]
      simp
    · rw [List.drop_of_length_le (by omega : idx1.length ≤ i)]
      simp

theorem restFirst_turn {idx1 idx2 : Window τ} {i j k : ℕ} (hv : v.length = 2 * n)
    (hu : (slice (2 * n) p w).length = 2 * n)
    (hok : (MergePc.restFirst idx1 idx2 i j k).Ok n p v (slice (2 * n) p w))
    (h : mergeCallStep n (2 * p) w (.restFirst idx1 idx2 i j k) = some (pc', w')) :
    Turn n p v w (.restFirst idx1 idx2 i j k) pc' w' := by
  obtain ⟨h1, h2, hi, hj, hk, hend, hmerge⟩ := hok
  have hlen1 : idx1.length = n := by
    rw [h1, List.length_take]
    omega
  simp only [mergeCallStep] at h
  split at h
  · rename_i hlt
    have hlt1 : i < idx1.length := by omega
    rw [List.getElem?_eq_getElem hlt1] at h
    simp only [Option.bind_eq_bind, Option.bind_some] at h
    obtain ⟨w₁, hs, h⟩ := Option.bind_eq_some_iff.mp h
    obtain ⟨rfl, rfl⟩ := Prod.mk.inj (Option.some.inj h)
    rw [List.drop_eq_getElem_cons hlt1] at hmerge
    refine .write hk (by omega) hs ⟨h1, h2, hlt, hj, by omega, by omega, ?_⟩
      (by simp only [MergePc.left]; omega)
    rw [Nat.add_right_comm]
    exact take_set_append (by omega) hmerge
  · rename_i hge
    obtain ⟨rfl, rfl⟩ := Prod.mk.inj (Option.some.inj h)
    obtain rfl : i = n := by omega
    rw [List.drop_of_length_le (by omega : idx1.length ≤ i), List.nil_append] at hmerge
    exact .read ⟨h2, hj, hk, hmerge⟩ (by simp only [MergePc.left]; omega)

theorem restSecond_turn {idx2 : Window τ} {j k : ℕ} (hv : v.length = 2 * n)
    (hu : (slice (2 * n) p w).length = 2 * n)
    (hok : (MergePc.restSecond idx2 j k).Ok n p v (slice (2 * n) p w))
    (h : mergeCallStep n (2 * p) w (.restSecond idx2 j k) = some (pc', w')) :
    Turn n p v w (.restSecond idx2 j k) pc' w' := by
  obtain ⟨h2, hj, hk, hmerge⟩ := hok
  have hlen2 : idx2.length = n := by
    rw [h2, List.length_drop]
    omega
  simp only [mergeCallStep] at h
  split at h
  · rename_i hlt
    have hlt2 : j < idx2.length := by omega
    rw [List.getElem?_eq_getElem hlt2] at h
    simp only [Option.bind_eq_bind, Option.bind_some] at h
    obtain ⟨w₁, hs, h⟩ := Option.bind_eq_some_iff.mp h
    obtain ⟨rfl, rfl⟩ := Prod.mk.inj (Option.some.inj h)
    rw [List.drop_eq_getElem_cons hlt2] at hmerge
    refine .write hk (by omega) hs ⟨h2, hlt, by omega, ?_⟩ (by simp only [MergePc.left]; omega)
    rw [← Nat.add_assoc]
    exact take_set_append (by omega) hmerge
  · rename_i hge
    obtain ⟨rfl, rfl⟩ := Prod.mk.inj (Option.some.inj h)
    rw [List.drop_of_length_le (by omega : idx2.length ≤ j), List.append_nil,
      List.take_of_length_le (by omega)] at hmerge
    exact .read hmerge (by simp only [MergePc.left]; omega)

theorem mergeCallStep_turn {pc : MergePc τ} (hv : v.length = 2 * n)
    (hu : (slice (2 * n) p w).length = 2 * n) (hok : pc.Ok n p v (slice (2 * n) p w))
    (h : mergeCallStep n (2 * p) w pc = some (pc', w')) : Turn n p v w pc pc' w' := by
  cases pc with
  | copyFirst idx1 => exact copyFirst_turn hok h
  | copySecond idx1 idx2 => exact copySecond_turn hv hok h
  | loop idx1 idx2 i j k => exact loop_turn hv hu hok h
  | restFirst idx1 idx2 i j k => exact restFirst_turn hv hu hok h
  | restSecond idx2 j k => exact restSecond_turn hv hu hok h
  | finished => cases h

end Turns

/-- Inside the window every turn can be taken. -/
theorem mergeCallStep_enabled {n p : ℕ} {v w : Window τ} {pc : MergePc τ}
    (hv : v.length = 2 * n) (hfit : 2 * n * (p + 1) ≤ w.length)
    (hok : pc.Ok n p v (slice (2 * n) p w)) (hpc : pc ≠ .finished) :
    ∃ next, mergeCallStep n (2 * p) w pc = some next := by
  have hfirst : n * (2 * p) = 2 * n * p := by ring
  have hsecond : n * (2 * p + 1) = 2 * n * p + n := by ring
  have hend : 2 * n * (p + 1) = 2 * n * p + 2 * n := Nat.mul_succ _ _
  have hread : ∀ r < 2 * n * p + 2 * n, ∃ a, w[r]? = some a := fun r hr =>
    ⟨_, List.getElem?_eq_getElem (by omega)⟩
  have hstore : ∀ k < 2 * n * p + 2 * n, ∀ a, store w k a = some (w.set k a) := fun k hk a =>
    if_pos (by omega)
  cases pc with
  | copyFirst idx1 =>
      simp only [mergeCallStep]
      split
      · obtain ⟨a, ha⟩ := hread (n * (2 * p) + idx1.length) (by omega)
        exact ⟨_, by rw [ha]; rfl⟩
      · exact ⟨_, rfl⟩
  | copySecond idx1 idx2 =>
      simp only [mergeCallStep]
      split
      · obtain ⟨a, ha⟩ := hread (n * (2 * p + 1) + idx2.length) (by omega)
        exact ⟨_, by rw [ha]; rfl⟩
      · exact ⟨_, rfl⟩
  | loop idx1 idx2 i j k =>
      obtain ⟨h1, h2, hi, hj, hk, -⟩ := hok
      simp only [mergeCallStep]
      split
      · rename_i hboth
        have hlt1 : i < idx1.length := by
          rw [h1, List.length_take]
          omega
        have hlt2 : j < idx2.length := by
          rw [h2, List.length_drop]
          omega
        rw [List.getElem?_eq_getElem hlt1, List.getElem?_eq_getElem hlt2]
        simp only [Option.bind_eq_bind, Option.bind_some, hstore k (by omega)]
        split <;> exact ⟨_, rfl⟩
      · exact ⟨_, rfl⟩
  | restFirst idx1 idx2 i j k =>
      obtain ⟨h1, h2, hi, hj, hk, -⟩ := hok
      simp only [mergeCallStep]
      split
      · have hlt1 : i < idx1.length := by
          rw [h1, List.length_take]
          omega
        rw [List.getElem?_eq_getElem hlt1]
        simp only [Option.bind_eq_bind, Option.bind_some, hstore k (by omega)]
        exact ⟨_, rfl⟩
      · exact ⟨_, rfl⟩
  | restSecond idx2 j k =>
      obtain ⟨h2, hj, hk, -⟩ := hok
      simp only [mergeCallStep]
      split
      · have hlt2 : j < idx2.length := by
          rw [h2, List.length_drop]
          omega
        rw [List.getElem?_eq_getElem hlt2]
        simp only [Option.bind_eq_bind, Option.bind_some, hstore k (by omega)]
        exact ⟨_, rfl⟩
      · exact ⟨_, rfl⟩
  | finished => exact absurd rfl hpc

end OsaspLabs.SortIndex
