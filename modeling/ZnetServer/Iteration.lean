set_option autoImplicit false

/- Loops whose body may fail. The body is a step function, and what a run of any length
does follows from what one step keeps and from a rank that falls until the end. -/
namespace Iteration

universe u v

variable {σ : Type u} {φ : Type v}

/-- The body that many times; the first failure ends the run. -/
def iterate (step : σ → Except φ σ) : Nat → σ → Except φ σ
  | 0, s => .ok s
  | n + 1, s => (step s).bind (iterate step n)

/-- Where the invariant holds, the body does not fail and keeps it. -/
def Keeps (step : σ → Except φ σ) (Inv : σ → Prop) : Prop :=
  ∀ s, Inv s → ∃ t, step s = .ok t ∧ Inv t

section Rules

variable {step : σ → Except φ σ} {s t u : σ}

theorem iterate_cons {n : Nat} (first : step s = .ok t) (rest : iterate step n t = .ok u) :
    iterate step (n + 1) s = .ok u := by
  rw [iterate, first]
  exact rest

theorem iterate_succ {n : Nat} (run : iterate step (n + 1) s = .ok u) :
    ∃ t, step s = .ok t ∧ iterate step n t = .ok u := by
  rw [iterate] at run
  cases first : step s with
  | error fault =>
      rw [first] at run
      cases run
  | ok t =>
      rw [first] at run
      exact ⟨t, rfl, run⟩

/-- A run that goes on comes by the states of every shorter one. -/
theorem iterate_split {m n : Nat} (run : iterate step (m + n) s = .ok u) :
    ∃ t, iterate step m s = .ok t ∧ iterate step n t = .ok u := by
  induction m generalizing s with
  | zero =>
      rw [Nat.zero_add] at run
      exact ⟨s, rfl, run⟩
  | succ m ih =>
      rw [Nat.add_right_comm] at run
      obtain ⟨middle, first, rest⟩ := iterate_succ run
      obtain ⟨t, front, back⟩ := ih rest
      exact ⟨t, iterate_cons first front, back⟩

variable {Inv : σ → Prop}

theorem Keeps.next (kept : Keeps step Inv) (inv : Inv s) (first : step s = .ok t) : Inv t := by
  obtain ⟨u, same, later⟩ := kept s inv
  rw [first] at same
  obtain rfl := Except.ok.inj same
  exact later

theorem Keeps.iterate (kept : Keeps step Inv) (n : Nat) : Keeps (iterate step n) Inv := by
  intro s inv
  induction n generalizing s with
  | zero => exact ⟨s, rfl, inv⟩
  | succ n ih =>
      obtain ⟨middle, first, later⟩ := kept s inv
      obtain ⟨t, rest, last⟩ := ih middle later
      exact ⟨t, iterate_cons first rest, last⟩

/-- A rank that falls with every step before the end bounds the number of steps. -/
theorem Keeps.ends {Final : σ → Prop} (kept : Keeps step Inv)
    (rank : σ → Nat) (falls : ∀ s t, Inv s → step s = .ok t → ¬ Final s → rank t < rank s)
    (inv : Inv s) :
    ∃ n t, n ≤ rank s ∧ Iteration.iterate step n s = .ok t ∧ Inv t ∧ Final t := by
  generalize bound : rank s = left
  induction left using Nat.strongRecOn generalizing s with
  | ind left ih =>
    by_cases final : Final s
    · exact ⟨0, s, Nat.zero_le left, rfl, inv, final⟩
    · obtain ⟨middle, first, later⟩ := kept s inv
      have lower := falls s middle inv first final
      obtain ⟨n, t, few, rest, last, ends⟩ := ih (rank middle) (by omega) later rfl
      exact ⟨n + 1, t, by omega, iterate_cons first rest, last, ends⟩

/-- A height that no step lowers. -/
theorem Keeps.rises (kept : Keeps step Inv) (height : σ → Nat)
    (rises : ∀ s t, Inv s → step s = .ok t → height s ≤ height t) {n : Nat} (inv : Inv s)
    (run : Iteration.iterate step n s = .ok t) : height s ≤ height t := by
  induction n generalizing s with
  | zero =>
      obtain rfl := Except.ok.inj run
      exact Nat.le_refl _
  | succ n ih =>
      obtain ⟨middle, first, rest⟩ := iterate_succ run
      exact Nat.le_trans (rises s middle inv first) (ih (kept.next inv first) rest)

end Rules

end Iteration
