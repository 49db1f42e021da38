import Mathlib.Data.List.Count

/-! # Lines of a stream

A reader with room for `n` items takes a stream up to and with its next newline, but no more
than `n` items. -/

namespace OsaspLabs.Lines

variable {α : Type*} [DecidableEq α] {newline : α}

/-- What is taken, and the rest of the stream. -/
def takeLine (newline : α) : ℕ → List α → List α × List α
  | 0, s => ([], s)
  | _ + 1, [] => ([], [])
  | n + 1, c :: s =>
      if c = newline then ([c], s)
      else (c :: (takeLine newline n s).1, (takeLine newline n s).2)

theorem takeLine_append (newline : α) (n : ℕ) (s : List α) :
    (takeLine newline n s).1 ++ (takeLine newline n s).2 = s := by
  induction n generalizing s with
  | zero => rfl
  | succ n ih =>
      cases s with
      | nil => rfl
      | cons c s =>
          rw [takeLine]
          split
          · rfl
          · rw [List.cons_append, ih]

theorem length_takeLine_le (newline : α) (n : ℕ) (s : List α) :
    (takeLine newline n s).1.length ≤ n := by
  induction n generalizing s with
  | zero => exact Nat.le_refl 0
  | succ n ih =>
      cases s with
      | nil => exact Nat.zero_le _
      | cons c s =>
          rw [takeLine]
          split
          · exact Nat.succ_le_succ (Nat.zero_le n)
          · exact Nat.succ_le_succ (ih s)

/-- Something is taken of a stream that has not ended. -/
theorem length_rest_lt {n : ℕ} (hn : 0 < n) {s : List α} (hs : s ≠ []) :
    (takeLine newline n s).2.length < s.length := by
  cases n with
  | zero => exact absurd hn (Nat.lt_irrefl 0)
  | succ n =>
      cases s with
      | nil => exact absurd rfl hs
      | cons c s =>
          rw [takeLine]
          split
          · exact Nat.lt_succ_self _
          · have happ := congrArg List.length (takeLine_append newline n s)
            rw [List.length_append] at happ
            simp only [List.length_cons]
            omega

/-- A line that there is room for is taken whole. -/
theorem takeLine_of_lt {l : List α} (hl : newline ∉ l) {n : ℕ} (h : l.length < n) (s : List α) :
    takeLine newline n (l ++ newline :: s) = (l ++ [newline], s) := by
  induction l generalizing n with
  | nil =>
      cases n with
      | zero => exact absurd h (Nat.lt_irrefl 0)
      | succ n => rw [List.nil_append, takeLine, if_pos rfl, List.nil_append]
  | cons c l ih =>
      cases n with
      | zero => exact absurd h (Nat.not_lt_zero _)
      | succ n =>
          have hc : c ≠ newline := fun heq => hl (heq ▸ List.mem_cons_self)
          have htail := ih (fun hmem => hl (List.mem_cons_of_mem c hmem)) (Nat.lt_of_succ_lt_succ h)
          rw [List.cons_append, takeLine, if_neg hc, htail, List.cons_append]

/-- A line that there is no room for is split, and its rest stays in front of the stream. -/
theorem takeLine_of_le {l : List α} (hl : newline ∉ l) {n : ℕ} (h : n ≤ l.length) (s : List α) :
    takeLine newline n (l ++ s) = (l.take n, l.drop n ++ s) := by
  induction l generalizing n with
  | nil =>
      obtain rfl := Nat.le_zero.mp h
      rfl
  | cons c l ih =>
      cases n with
      | zero => rfl
      | succ n =>
          have hc : c ≠ newline := fun heq => hl (heq ▸ List.mem_cons_self)
          have htail := ih (fun hmem => hl (List.mem_cons_of_mem c hmem)) (Nat.le_of_succ_le_succ h)
          rw [List.cons_append, takeLine, if_neg hc, htail, List.take_succ_cons,
            List.drop_succ_cons]

/-- What there is room for is taken whole where no newline follows. -/
theorem takeLine_eq_self {l : List α} (hl : newline ∉ l) {n : ℕ} (h : l.length ≤ n) :
    takeLine newline n l = (l, []) := by
  induction l generalizing n with
  | nil => cases n <;> rfl
  | cons c l ih =>
      cases n with
      | zero => exact absurd h (Nat.not_succ_le_zero _)
      | succ n =>
          have hc : c ≠ newline := fun heq => hl (heq ▸ List.mem_cons_self)
          have htail := ih (fun hmem => hl (List.mem_cons_of_mem c hmem)) (Nat.le_of_succ_le_succ h)
          rw [takeLine, if_neg hc, htail]

/-- One newline at most is taken. -/
theorem count_le_count_rest (newline : α) (n : ℕ) (s : List α) :
    s.count newline ≤ (takeLine newline n s).2.count newline + 1 := by
  induction n generalizing s with
  | zero => exact Nat.le_succ _
  | succ n ih =>
      cases s with
      | nil => exact Nat.zero_le _
      | cons c s =>
          rw [takeLine]
          split
          · rename_i heq
            rw [heq]
            exact Nat.le_of_eq List.count_cons_self
          · rename_i hne
            rw [List.count_cons_of_ne hne]
            exact ih s

end OsaspLabs.Lines
