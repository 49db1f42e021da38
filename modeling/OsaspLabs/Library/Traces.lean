import OsaspLabs.Library.Runs

/-! # Runs with what they show

A step may show events to an observer. One machine simulates another if every step of the
other is matched by a run that shows the same. -/

namespace OsaspLabs.Runs

variable {σ α σ' α' ε : Type*}

/-- A run from `s` with the events that its steps show. -/
inductive Traced (step : σ → α → Option σ) (shows : σ → α → List ε) (s : σ) :
    List ε → σ → Prop
  | refl : Traced step shows s [] s
  | tail {es : List ε} {t u : σ} {a : α} (run : Traced step shows s es t)
      (next : step t a = some u) : Traced step shows s (es ++ shows t a) u

variable {step : σ → α → Option σ} {shows : σ → α → List ε}
  {step' : σ' → α' → Option σ'} {shows' : σ' → α' → List ε}

theorem Traced.reaches {s t : σ} {es : List ε} (h : Traced step shows s es t) :
    Reaches step anything s t := by
  induction h with
  | refl => exact .refl
  | tail _ next ih => exact ih.tail ⟨_, trivial, next⟩

theorem Traced.single {s t : σ} {a : α} (h : step s a = some t) :
    Traced step shows s (shows s a) t := by
  have hrun : Traced step shows s ([] ++ shows s a) t := Traced.refl.tail h
  rwa [List.nil_append] at hrun

theorem Traced.trans {s t u : σ} {es fs : List ε} (h : Traced step shows s es t)
    (h' : Traced step shows t fs u) : Traced step shows s (es ++ fs) u := by
  induction h' with
  | refl => rwa [List.append_nil]
  | tail _ next ih =>
      rw [← List.append_assoc]
      exact ih.tail next

/-- What relates the events shown so far to the state, and is kept by every step. -/
theorem Traced.invariant {I : List ε → σ → Prop} {s t : σ} {es : List ε}
    (h : Traced step shows s es t) (hs : I [] s)
    (hstep : ∀ fs u a v, I fs u → step u a = some v → I (fs ++ shows u a) v) : I es t := by
  induction h with
  | refl => exact hs
  | tail _ next ih => exact hstep _ _ _ _ ih next

/-- If every step of the machine is matched, then so is every run. -/
theorem Traced.simulate {R : σ → σ' → Prop} {s t : σ} {s' : σ'} {es : List ε}
    (h : Traced step shows s es t) (hs : R s s')
    (hstep : ∀ u a v u', R u u' → step u a = some v →
      ∃ v', Traced step' shows' u' (shows u a) v' ∧ R v v') :
    ∃ t', Traced step' shows' s' es t' ∧ R t t' := by
  induction h with
  | refl => exact ⟨s', .refl, hs⟩
  | @tail es u v a _ next ih =>
      obtain ⟨u', hu, hR⟩ := ih
      obtain ⟨v', hv, hR'⟩ := hstep u a v u' hR next
      exact ⟨v', hu.trans hv, hR'⟩

/-- Executing a list of actions, with what they show. -/
def trace (step : σ → α → Option σ) (shows : σ → α → List ε) :
    σ → List α → Option (List ε × σ)
  | s, [] => some ([], s)
  | s, a :: as =>
      (step s a).bind fun t => (trace step shows t as).map fun (es, u) => (shows s a ++ es, u)

theorem Traced.of_trace {s t : σ} {es : List ε} {as : List α}
    (h : trace step shows s as = some (es, t)) : Traced step shows s es t := by
  induction as generalizing s es with
  | nil =>
      obtain ⟨rfl, rfl⟩ := Prod.mk.inj (Option.some.inj h)
      exact .refl
  | cons a as ih =>
      obtain ⟨u, hu, hrest⟩ := Option.bind_eq_some_iff.mp h
      obtain ⟨⟨fs, v⟩, hfs, heq⟩ := Option.map_eq_some_iff.mp hrest
      obtain ⟨rfl, rfl⟩ := Prod.mk.inj heq
      exact (Traced.single hu).trans (ih hfs)

/-- A machine that keeps all that it has shown. -/
def logged (step : σ → α → Option σ) (shows : σ → α → List ε) (s : σ × List ε) (a : α) :
    Option (σ × List ε) :=
  (step s.1 a).map fun t => (t, s.2 ++ shows s.1 a)

theorem logged_eq_some {s t : σ × List ε} {a : α} (h : logged step shows s a = some t) :
    step s.1 a = some t.1 ∧ t.2 = s.2 ++ shows s.1 a := by
  obtain ⟨u, hu, rfl⟩ := Option.map_eq_some_iff.mp h
  exact ⟨hu, rfl⟩

theorem logged_of_step (shows : σ → α → List ε) (es : List ε) {s t : σ} {a : α}
    (h : step s a = some t) : logged step shows (s, es) a = some (t, es ++ shows s a) :=
  Option.map_eq_some_iff.mpr ⟨t, h, rfl⟩

end OsaspLabs.Runs
