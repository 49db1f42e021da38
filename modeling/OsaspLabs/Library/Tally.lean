import Mathlib.Algebra.BigOperators.Group.List.Basic
import Mathlib.Algebra.GroupWithZero.Nat

/-! # The participants of a system

Each participant of an unbounded system holds a number of tokens that its own state
determines. A step replaces one participant and changes the sum by the difference. -/

namespace OsaspLabs

variable {α : Type*}

/-- The tokens that the participants `l` hold together. -/
def tally (w : α → ℕ) (l : List α) : ℕ := (l.map w).sum

@[simp] theorem tally_nil (w : α → ℕ) : tally w [] = 0 := rfl

@[simp] theorem tally_cons (w : α → ℕ) (a : α) (l : List α) :
    tally w (a :: l) = w a + tally w l := by
  simp [tally]

@[simp] theorem tally_append (w : α → ℕ) (l m : List α) :
    tally w (l ++ m) = tally w l + tally w m := by
  simp [tally]

/-- A participant that holds one token or none counts for itself. -/
theorem tally_toNat (p : α → Bool) (l : List α) : tally (fun a => (p a).toNat) l = l.countP p := by
  induction l with
  | nil => rfl
  | cons a l ih => cases h : p a <;> simp [h, ih, Nat.add_comm]

theorem exists_pos_of_tally_pos {w : α → ℕ} {l : List α} (h : 0 < tally w l) :
    ∃ a ∈ l, 0 < w a := by
  induction l with
  | nil => simp at h
  | cons a l ih =>
      by_cases ha : 0 < w a
      · exact ⟨a, List.mem_cons_self, ha⟩
      · obtain ⟨b, hb, hpos⟩ := ih (by rw [tally_cons] at h; omega)
        exact ⟨b, List.mem_cons_of_mem a hb, hpos⟩

/-- Replacing one participant exchanges its tokens, written without subtraction. -/
theorem tally_set (w : α → ℕ) {l : List α} {i : ℕ} {a : α} (h : l[i]? = some a) (b : α) :
    tally w (l.set i b) + w a = tally w l + w b := by
  induction l generalizing i with
  | nil => simp at h
  | cons c l ih =>
      cases i with
      | zero =>
          simp only [List.getElem?_cons_zero, Option.some.injEq] at h
          subst h
          simp only [List.set_cons_zero, tally_cons]
          omega
      | succ i =>
          simp only [List.getElem?_cons_succ] at h
          have hi := ih h
          simp only [List.set_cons_succ, tally_cons]
          omega

theorem tally_set_lt {w : α → ℕ} {l : List α} {i : ℕ} {a b : α} (h : l[i]? = some a)
    (hlt : w b < w a) : tally w (l.set i b) < tally w l := by
  have hset := tally_set w h b
  omega

theorem le_tally (w : α → ℕ) {l : List α} {i : ℕ} {a : α} (h : l[i]? = some a) :
    w a ≤ tally w l := by
  induction l generalizing i with
  | nil => simp at h
  | cons c l ih =>
      cases i with
      | zero =>
          simp only [List.getElem?_cons_zero, Option.some.injEq] at h
          subst h
          simp
      | succ i =>
          simp only [List.getElem?_cons_succ] at h
          have hi := ih h
          simp only [tally_cons]
          omega

/-- Two different participants hold their tokens separately. -/
theorem add_le_tally (w : α → ℕ) {l : List α} {i j : ℕ} {a b : α} (hij : i ≠ j)
    (hi : l[i]? = some a) (hj : l[j]? = some b) : w a + w b ≤ tally w l := by
  induction l generalizing i j with
  | nil => simp at hi
  | cons c l ih =>
      cases i with
      | zero =>
          cases j with
          | zero => exact absurd rfl hij
          | succ j =>
              simp only [List.getElem?_cons_zero, Option.some.injEq] at hi
              simp only [List.getElem?_cons_succ] at hj
              subst hi
              have hb := le_tally w hj
              simp only [tally_cons]
              omega
      | succ i =>
          cases j with
          | zero =>
              simp only [List.getElem?_cons_zero, Option.some.injEq] at hj
              simp only [List.getElem?_cons_succ] at hi
              subst hj
              have ha := le_tally w hi
              simp only [tally_cons]
              omega
          | succ j =>
              simp only [List.getElem?_cons_succ] at hi hj
              have hab := ih (by omega) hi hj
              simp only [tally_cons]
              omega

/-! ## What holds of every participant -/

theorem forall_mem_set {p : α → Prop} {l : List α} {i : ℕ} {a : α} (h : ∀ b ∈ l, p b)
    (ha : p a) : ∀ b ∈ l.set i a, p b := by
  intro b hb
  rcases List.mem_or_eq_of_mem_set hb with hb | rfl
  · exact h b hb
  · exact ha

/-- An entry of the new list is the one that was put there, or an old one elsewhere. -/
theorem getElem?_set_cases {l : List α} {i j : ℕ} {a b : α} (h : (l.set i a)[j]? = some b) :
    j = i ∧ b = a ∨ j ≠ i ∧ l[j]? = some b := by
  rw [List.getElem?_set] at h
  by_cases hij : i = j
  · subst hij
    simp only [if_true] at h
    split at h
    · exact .inl ⟨rfl, (Option.some.inj h).symm⟩
    · cases h
  · rw [if_neg hij] at h
    exact .inr ⟨Ne.symm hij, h⟩

/-- The participant that a step replaces, and the others. -/
theorem forall_getElem?_set {p : ℕ → α → Prop} {l : List α} {i : ℕ} {a : α} (ha : p i a)
    (hother : ∀ j b, j ≠ i → l[j]? = some b → p j b) :
    ∀ j b, (l.set i a)[j]? = some b → p j b := by
  intro j b hb
  rcases getElem?_set_cases hb with ⟨rfl, rfl⟩ | ⟨hne, hold⟩
  · exact ha
  · exact hother j b hne hold

theorem forall_getElem?_append_singleton {p : ℕ → α → Prop} {l : List α} {a : α}
    (h : ∀ j b, l[j]? = some b → p j b) (ha : p l.length a) :
    ∀ j b, (l ++ [a])[j]? = some b → p j b := by
  intro j b hb
  rw [List.getElem?_append] at hb
  split at hb
  · exact h j b hb
  · rename_i hj
    rw [List.getElem?_singleton] at hb
    split at hb
    · have hlast : j = l.length := by omega
      obtain rfl := Option.some.inj hb
      exact hlast ▸ ha
    · cases hb

theorem forall_mem_modify {p : α → Prop} {l : List α} {i : ℕ} {f : α → α}
    (h : ∀ b ∈ l, p b) (hf : ∀ b, l[i]? = some b → p b → p (f b)) :
    ∀ b ∈ l.modify i f, p b := by
  intro b hb
  obtain ⟨j, hj⟩ := List.mem_iff_getElem?.mp hb
  rw [List.getElem?_modify] at hj
  obtain ⟨a, ha, rfl⟩ := Option.map_eq_some_iff.mp hj
  have hmem := h a (List.mem_of_getElem? ha)
  by_cases hij : i = j
  · subst hij
    simpa using hf a ha hmem
  · simpa [hij] using hmem

/-! ## What a change of one participant leaves alone -/

theorem map_modify_eq {β : Type*} {g : α → β} {f : α → α} (h : ∀ a, g (f a) = g a)
    (l : List α) (i : ℕ) : (l.modify i f).map g = l.map g := by
  apply List.ext_getElem?
  intro j
  simp only [List.getElem?_map, List.getElem?_modify]
  cases l[j]? with
  | none => rfl
  | some a => by_cases hij : i = j <;> simp [hij, h]

theorem map_set_eq {β : Type*} {g : α → β} {l : List α} {i : ℕ} {a b : α}
    (hi : l[i]? = some a) (h : g b = g a) : (l.set i b).map g = l.map g := by
  obtain ⟨hlt, rfl⟩ := List.getElem?_eq_some_iff.mp hi
  rw [List.map_set, h, ← List.map_set, List.set_getElem_self]

end OsaspLabs
