import OsaspLabs.SortIndex.Merge

/-! # One merge of two blocks

The combined slice of a merge and the element accesses of its loops. -/

namespace OsaspLabs.SortIndex

variable {τ : Type*} [LinearOrder τ]

/-! ## The loops with their accesses -/

/-- An access of the loops to an element of `idx1`, `idx2` or `indices -> idx`. -/
inductive Access where
  | readIdx1 (i : ℕ)
  | readIdx2 (j : ℕ)
  | write (k : ℕ)
  deriving DecidableEq

/-- `mergeLoop`, with its accesses after `log`. -/
def mergeLoopTrace (idx1 idx2 : Window τ) (n i j k : ℕ) (w : Window τ) (log : List Access) :
    Option ((ℕ × ℕ × ℕ × Window τ) × List Access) :=
  if i < n ∧ j < n then do
    let a ← idx1[i]?
    let b ← idx2[j]?
    if a.timeMark < b.timeMark then
      mergeLoopTrace idx1 idx2 n (i + 1) j (k + 1) (← store w k a)
        (log ++ [.readIdx1 i, .readIdx2 j, .readIdx1 i, .write k])
    else
      mergeLoopTrace idx1 idx2 n i (j + 1) (k + 1) (← store w k b)
        (log ++ [.readIdx1 i, .readIdx2 j, .readIdx2 j, .write k])
  else some ((i, j, k, w), log)
termination_by n - i + (n - j)

/-- `copyLoop`, with its accesses after `log`. -/
def copyLoopTrace (read : ℕ → Access) (idx : Window τ) (n i k : ℕ) (w : Window τ)
    (log : List Access) : Option ((ℕ × Window τ) × List Access) :=
  if i < n then do
    let a ← idx[i]?
    copyLoopTrace read idx n (i + 1) (k + 1) (← store w k a) (log ++ [read i, .write k])
  else some ((k, w), log)
termination_by n - i

/-- `merge`, with the accesses of its loops. -/
def mergeTrace (memsize blocks no : ℕ) (w : Window τ) : Option (Window τ × List Access) := do
  let n := memsize / blocks
  let idx1 ← memcpy w (n * no) n
  let idx2 ← memcpy w (n * (no + 1)) n
  let ((i, j, k, w), log) ← mergeLoopTrace idx1 idx2 n 0 0 (n * no) w []
  let ((k, w), log) ← copyLoopTrace .readIdx1 idx1 n i k w log
  let ((_, w), log) ← copyLoopTrace .readIdx2 idx2 n j k w log
  some (w, log)

/-- The trace changes nothing of what the loop computes. -/
theorem mergeLoopTrace_fst (idx1 idx2 : Window τ) (n i j k : ℕ) (w : Window τ)
    (log : List Access) :
    (mergeLoopTrace idx1 idx2 n i j k w log).map Prod.fst = mergeLoop idx1 idx2 n i j k w := by
  induction hd : n - i + (n - j) generalizing i j k w log with
  | zero =>
      have hend : ¬ (i < n ∧ j < n) := by omega
      rw [mergeLoopTrace, mergeLoop, if_neg hend, if_neg hend]
      rfl
  | succ d ih =>
      rw [mergeLoopTrace, mergeLoop]
      by_cases hboth : i < n ∧ j < n
      · rw [if_pos hboth, if_pos hboth]
        cases h1 : idx1[i]? with
        | none => simp
        | some a =>
            cases h2 : idx2[j]? with
            | none => simp
            | some b =>
                by_cases hlt : a.timeMark < b.timeMark
                · cases hs : store w k a with
                  | none => simp [hlt, hs]
                  | some w' =>
                      simpa [hlt, hs] using ih (i + 1) j (k + 1) w' _ (by omega)
                · cases hs : store w k b with
                  | none => simp [hlt, hs]
                  | some w' =>
                      simpa [hlt, hs] using ih i (j + 1) (k + 1) w' _ (by omega)
      · rw [if_neg hboth, if_neg hboth]
        rfl

omit [LinearOrder τ] in
theorem copyLoopTrace_fst (read : ℕ → Access) (idx : Window τ) (n i k : ℕ) (w : Window τ)
    (log : List Access) :
    (copyLoopTrace read idx n i k w log).map Prod.fst = copyLoop idx n i k w := by
  induction hd : n - i generalizing i k w log with
  | zero =>
      have hend : ¬ i < n := by omega
      rw [copyLoopTrace, copyLoop, if_neg hend, if_neg hend]
      rfl
  | succ d ih =>
      have hlt : i < n := by omega
      rw [copyLoopTrace, copyLoop, if_pos hlt, if_pos hlt]
      cases hi : idx[i]? with
      | none => simp
      | some a =>
          cases hs : store w k a with
          | none => simp [hs]
          | some w' => simpa [hs] using ih (i + 1) (k + 1) w' _ (by omega)

theorem mergeTrace_fst (memsize blocks no : ℕ) (w : Window τ) :
    (mergeTrace memsize blocks no w).map Prod.fst = merge memsize blocks no w := by
  simp only [mergeTrace, merge, Option.bind_eq_bind, Option.map_bind, Function.comp_def]
  apply Option.bind_congr
  intro idx1 _
  apply Option.bind_congr
  intro idx2 _
  rw [← mergeLoopTrace_fst idx1 idx2 _ _ _ _ w [], Option.bind_map]
  apply Option.bind_congr
  rintro ⟨⟨i, j, k, w1⟩, log1⟩ _
  simp only [Function.comp_def]
  rw [← copyLoopTrace_fst .readIdx1 idx1 _ i k w1 log1, Option.bind_map]
  apply Option.bind_congr
  rintro ⟨⟨k2, w2⟩, log2⟩ _
  simp only [Function.comp_def]
  rw [← copyLoopTrace_fst .readIdx2 idx2 _ j k2 w2 log2, Option.bind_map]
  rfl

/-! ## Where the accesses are -/

/-- Reads within `n` elements, writes from `lo` to `hi`. -/
def Access.InBounds (n lo hi : ℕ) : Access → Prop
  | .readIdx1 i => i < n
  | .readIdx2 j => j < n
  | .write k => lo ≤ k ∧ k < hi

/-- One turn of the merge loop, which reads one of its two elements again. -/
theorem inBounds_turn {n i j k lo hi : ℕ} {x : Access} {log : List Access}
    (hlog : ∀ a ∈ log, a.InBounds n lo hi) (hi' : i < n) (hj' : j < n)
    (hx : x.InBounds n lo hi) (hlo : lo ≤ k) (hhi : k < hi) :
    ∀ a ∈ log ++ [.readIdx1 i, .readIdx2 j, x, .write k], a.InBounds n lo hi := by
  have hturn : ∀ a ∈ [.readIdx1 i, .readIdx2 j, x, .write k], a.InBounds n lo hi := by
    simp only [List.forall_mem_cons]
    exact ⟨hi', hj', hx, ⟨hlo, hhi⟩, by simp⟩
  exact List.forall_mem_append.mpr ⟨hlog, hturn⟩

/-- The cursors move together: what is left to read ends at `hi`. -/
theorem mergeLoopTrace_bounds {idx1 idx2 : Window τ} {n i j k lo hi : ℕ} {w : Window τ}
    {log : List Access} {i' j' k' : ℕ} {w' : Window τ} {log' : List Access}
    (h : mergeLoopTrace idx1 idx2 n i j k w log = some ((i', j', k', w'), log'))
    (hi' : i ≤ n) (hj' : j ≤ n) (hlo : lo ≤ k) (hhi : k + (n - i) + (n - j) = hi)
    (hlog : ∀ a ∈ log, a.InBounds n lo hi) :
    i' ≤ n ∧ j' ≤ n ∧ lo ≤ k' ∧ k' + (n - i') + (n - j') = hi ∧
      ∀ a ∈ log', a.InBounds n lo hi := by
  induction hd : n - i + (n - j) generalizing i j k w log with
  | zero =>
      have hend : ¬ (i < n ∧ j < n) := by omega
      rw [mergeLoopTrace, if_neg hend] at h
      cases h
      exact ⟨hi', hj', hlo, hhi, hlog⟩
  | succ d ih =>
      rw [mergeLoopTrace] at h
      by_cases hboth : i < n ∧ j < n
      · rw [if_pos hboth] at h
        simp only [Option.bind_eq_bind, Option.bind_eq_some_iff] at h
        obtain ⟨a, -, b, -, h⟩ := h
        by_cases hlt : a.timeMark < b.timeMark
        · rw [if_pos hlt, Option.bind_eq_some_iff] at h
          obtain ⟨w1, -, h⟩ := h
          have hturn := inBounds_turn (x := .readIdx1 i) hlog hboth.1 hboth.2 hboth.1 hlo
            (by omega)
          exact ih h (by omega) hj' (by omega) (by omega) hturn (by omega)
        · rw [if_neg hlt, Option.bind_eq_some_iff] at h
          obtain ⟨w1, -, h⟩ := h
          have hturn := inBounds_turn (x := .readIdx2 j) hlog hboth.1 hboth.2 hboth.2 hlo
            (by omega)
          exact ih h hi' (by omega) (by omega) (by omega) hturn (by omega)
      · rw [if_neg hboth] at h
        cases h
        exact ⟨hi', hj', hlo, hhi, hlog⟩

omit [LinearOrder τ] in
theorem copyLoopTrace_bounds {read : ℕ → Access} {idx : Window τ} {n i k lo hi : ℕ}
    {w : Window τ} {log : List Access} {k' : ℕ} {w' : Window τ} {log' : List Access}
    (hread : ∀ r < n, (read r).InBounds n lo hi)
    (h : copyLoopTrace read idx n i k w log = some ((k', w'), log'))
    (hlo : lo ≤ k) (hhi : k + (n - i) ≤ hi) (hlog : ∀ a ∈ log, a.InBounds n lo hi) :
    k' = k + (n - i) ∧ ∀ a ∈ log', a.InBounds n lo hi := by
  induction hd : n - i generalizing i k w log with
  | zero =>
      have hend : ¬ i < n := by omega
      rw [copyLoopTrace, if_neg hend] at h
      cases h
      exact ⟨rfl, hlog⟩
  | succ d ih =>
      have hlt : i < n := by omega
      rw [copyLoopTrace, if_pos hlt] at h
      simp only [Option.bind_eq_bind, Option.bind_eq_some_iff] at h
      obtain ⟨a, -, w1, -, h⟩ := h
      have hround : ∀ x ∈ [read i, .write k], Access.InBounds n lo hi x := by
        simp only [List.forall_mem_cons]
        exact ⟨hread i hlt, ⟨hlo, by omega⟩, by simp⟩
      have hrest := ih h (by omega) (by omega) (List.forall_mem_append.mpr ⟨hlog, hround⟩)
        (by omega)
      exact ⟨by omega, hrest.2⟩

/-- The reads of a merge are within its copies, its writes within the combined slice. -/
theorem mergeTrace_bounds {memsize blocks no : ℕ} {w w' : Window τ} {log : List Access}
    (h : mergeTrace memsize blocks no w = some (w', log)) :
    ∀ a ∈ log, a.InBounds (memsize / blocks) (memsize / blocks * no)
      (memsize / blocks * no + 2 * (memsize / blocks)) := by
  simp only [mergeTrace, Option.bind_eq_bind, Option.bind_eq_some_iff] at h
  obtain ⟨idx1, -, idx2, -, ⟨⟨i, j, k, w1⟩, log1⟩, hmerge, ⟨⟨k2, w2⟩, log2⟩, hcopy1,
    ⟨⟨k3, w3⟩, log3⟩, hcopy2, h⟩ := h
  have hi : memsize / blocks * no + (memsize / blocks - 0) + (memsize / blocks - 0) =
      memsize / blocks * no + 2 * (memsize / blocks) := by omega
  obtain ⟨-, -, hlo, hhi, hlog1⟩ := mergeLoopTrace_bounds hmerge (Nat.zero_le _)
    (Nat.zero_le _) le_rfl hi (by simp)
  simp only at hcopy1 hcopy2
  obtain ⟨hk, hlog2⟩ := copyLoopTrace_bounds (fun r hr => hr) hcopy1 hlo (by omega) hlog1
  obtain ⟨-, hlog3⟩ := copyLoopTrace_bounds (fun r hr => hr) hcopy2 (by omega) (by omega) hlog2
  cases h
  exact hlog3

/-! ## The whole merge -/

/-- The blocks `no` and `no + 1`, of `n` records each. -/
def combinedSlice (n no : ℕ) (w : Window τ) : Window τ := (w.drop (n * no)).take (2 * n)

/-- What a merge of two blocks that makes the accesses `log` leaves of the window. -/
structure MergeSpec (n no : ℕ) (w w' : Window τ) (log : List Access) : Prop where
  length_eq : w'.length = w.length
  length_combined : (combinedSlice n no w').length = 2 * n
  sorted : Sorted (combinedSlice n no w')
  perm : (combinedSlice n no w').Perm (slice n no w ++ slice n (no + 1) w)
  frame : ∀ r, r < n * no ∨ n * no + 2 * n ≤ r → w'[r]? = w[r]?
  inBounds : ∀ a ∈ log, a.InBounds n (n * no) (n * no + 2 * n)

omit [LinearOrder τ] in
theorem combinedSlice_writeAt {n no : ℕ} {v w : Window τ} (hv : v.length = 2 * n)
    (h : n * no ≤ w.length) : combinedSlice n no (writeAt (n * no) v w) = v := by
  have hfront : (w.take (n * no)).length = n * no := by
    rw [List.length_take]
    omega
  rw [combinedSlice, writeAt, List.append_assoc, List.drop_left' hfront, List.take_left' hv]

theorem sorted_merge {v w : Window τ} (h1 : Sorted v) (h2 : Sorted w) :
    Sorted (List.merge v w takesFirst) := by
  have hhalves := sorted_mergeHalves (n := v.length) (v := v ++ w)
    (by rwa [List.take_left]) (by rwa [List.drop_left])
  rwa [mergeHalves, List.take_left, List.drop_left] at hhalves

/-- Two sorted blocks become one, and nothing else changes. -/
theorem merge_blocks {memsize B no : ℕ} {w : Window τ} (hdvd : B ∣ memsize)
    (hno : no + 1 < B) (hfit : memsize ≤ w.length)
    (h1 : Sorted (slice (memsize / B) no w)) (h2 : Sorted (slice (memsize / B) (no + 1) w)) :
    ∃ w' log, mergeTrace memsize B no w = some (w', log) ∧
      merge memsize B no w = some w' ∧ MergeSpec (memsize / B) no w w' log := by
  have hblocks : memsize / B * B = memsize := Nat.div_mul_cancel hdvd
  have hend : memsize / B * (no + 2) ≤ w.length :=
    (Nat.mul_le_mul_left _ hno).trans (hblocks.le.trans hfit)
  have hmerge := merge_eq hend
  have hlen1 : (slice (memsize / B) no w).length = memsize / B :=
    length_slice ((Nat.mul_le_mul_left _ (by omega)).trans hend)
  have hlen2 : (slice (memsize / B) (no + 1) w).length = memsize / B := length_slice hend
  have hfst := mergeTrace_fst memsize B no w
  rw [hmerge, Option.map_eq_some_iff] at hfst
  obtain ⟨⟨w', log⟩, htrace, hw⟩ := hfst
  simp only at hw
  generalize hv : List.merge (slice (memsize / B) no w) (slice (memsize / B) (no + 1) w)
    takesFirst = v at hmerge hw
  have hlen : v.length = 2 * (memsize / B) := by
    rw [← hv, List.length_merge, hlen1, hlen2, two_mul]
  have hfits : memsize / B * no + v.length ≤ w.length := by
    rwa [hlen, mul_comm 2, ← Nat.mul_add]
  have hcombined : combinedSlice (memsize / B) no w' = v := by
    rw [hw]
    exact combinedSlice_writeAt hlen (by omega)
  refine ⟨w', log, htrace, by rw [hmerge, hw], ?_⟩
  exact {
    length_eq := by rw [hw, length_writeAt hfits]
    length_combined := by rw [hcombined, hlen]
    sorted := by
      rw [hcombined, ← hv]
      exact sorted_merge h1 h2
    perm := by
      rw [hcombined, ← hv]
      exact List.merge_perm_append takesFirst
    frame := by
      intro r hr
      rw [hw, getElem?_writeAt hfits, if_neg (by omega)]
    inBounds := mergeTrace_bounds htrace }

/-- Six records in three blocks; the last two blocks are merged. -/
theorem merge_blocks_three :
    ∃ w' log, mergeTrace 6 3 1 [⟨9, 0⟩, ⟨8, 1⟩, ⟨4, 2⟩, ⟨7, 3⟩, ⟨3, 4⟩, ⟨(5 : ℕ), 5⟩] =
        some (w', log) ∧
      merge 6 3 1 [⟨9, 0⟩, ⟨8, 1⟩, ⟨4, 2⟩, ⟨7, 3⟩, ⟨3, 4⟩, ⟨(5 : ℕ), 5⟩] = some w' ∧
      MergeSpec 2 1 [⟨9, 0⟩, ⟨8, 1⟩, ⟨4, 2⟩, ⟨7, 3⟩, ⟨3, 4⟩, ⟨(5 : ℕ), 5⟩] w' log :=
  merge_blocks (by decide) (by decide) (by decide) (by simp [Sorted, slice])
    (by simp [Sorted, slice])

end OsaspLabs.SortIndex
