import Mathlib.Data.Fintype.Card
import Mathlib.Data.List.Count
import Mathlib.Logic.Function.Basic

set_option autoImplicit false

/- Reference counts of objects that are destroyed when their last owner goes, and the
numbers of owners that containers of pointers contribute. -/
namespace ReferenceCount

universe u v

variable {Φ : Type u}

structure Counts (Φ : Type u) where
  count : Φ → Nat
  /-- The destructor has run. -/
  freed : Φ → Bool

variable [DecidableEq Φ]

/-- The owner that `object` has and others have not. -/
def one (object : Φ) (other : Φ) : Nat := if other = object then 1 else 0

@[simp] theorem one_same (object : Φ) : one object object = 1 := if_pos rfl

theorem one_other {object other : Φ} (apart : other ≠ object) : one object other = 0 :=
  if_neg apart

/-- The owner that a pointer is. -/
def ones : Option Φ → Φ → Nat
  | none, _ => 0
  | some object, other => one object other

@[simp] theorem ones_none (other : Φ) : ones none other = 0 := rfl

@[simp] theorem ones_some (object other : Φ) : ones (some object) other = one object other := rfl

theorem ones_eq (pointer : Option Φ) (object : Φ) :
    ones pointer object = if pointer = some object then 1 else 0 := by
  cases pointer with
  | none => rfl
  | some other =>
      rw [ones_some, one]
      simp only [Option.some.injEq, eq_comm]

namespace Counts

/-- No object exists. -/
def none : Counts Φ := ⟨fun _ => 0, fun _ => false⟩

/-- A pointer is made or copied. -/
def acquire (c : Counts Φ) (object : Φ) : Counts Φ :=
  { c with count := Function.update c.count object (c.count object + 1) }

/-- A pointer goes. -/
def release (c : Counts Φ) (object : Φ) : Counts Φ where
  count := Function.update c.count object (c.count object - 1)
  freed := Function.update c.freed object (c.freed object || c.count object == 1)

/-- The counts are the numbers of the owners, and what is destroyed has none. -/
structure Exact (c : Counts Φ) (owners : Φ → Nat) : Prop where
  count : ∀ object, c.count object = owners object
  freed : ∀ object, c.freed object = true → owners object = 0

theorem acquire_count (c : Counts Φ) (object other : Φ) :
    (c.acquire object).count other =
      if other = object then c.count object + 1 else c.count other :=
  Function.update_apply ..

theorem release_count (c : Counts Φ) (object other : Φ) :
    (c.release object).count other =
      if other = object then c.count object - 1 else c.count other :=
  Function.update_apply ..

theorem release_freed (c : Counts Φ) (object other : Φ) :
    (c.release object).freed other =
      if other = object then c.freed object || c.count object == 1 else c.freed other :=
  Function.update_apply ..

section Rules

variable {c : Counts Φ} {owners after : Φ → Nat} {object : Φ}

omit [DecidableEq Φ] in
theorem none_exact : (none : Counts Φ).Exact fun _ => 0 := by
  refine ⟨fun _ => rfl, fun object destroyed => ?_⟩
  cases destroyed

omit [DecidableEq Φ] in
theorem Exact.same (exact : c.Exact owners) (same : ∀ other, after other = owners other) :
    c.Exact after := by
  rw [show after = owners from funext same]
  exact exact

omit [DecidableEq Φ] in
/-- What has an owner is not destroyed. -/
theorem Exact.alive (exact : c.Exact owners) (owned : 0 < owners object) :
    c.count object ≠ 0 ∧ c.freed object = false := by
  constructor
  · rw [exact.count object]
    omega
  · cases destroyed : c.freed object with
    | false => rfl
    | true =>
        have nobody := exact.freed object destroyed
        omega

theorem Exact.acquire (exact : c.Exact owners) (alive : c.freed object = false)
    (more : ∀ other, after other = owners other + one object other) :
    (c.acquire object).Exact after := by
  constructor
  · intro other
    rw [more other, ← exact.count other, acquire_count, one]
    split
    · rename_i same
      rw [same]
    · rfl
  · intro other destroyed
    have apart : other ≠ object := by
      rintro rfl
      rw [show c.freed other = true from destroyed] at alive
      cases alive
    rw [more other, one_other apart]
    exact exact.freed other destroyed

theorem Exact.release (exact : c.Exact owners)
    (less : ∀ other, after other + one object other = owners other) :
    (c.release object).Exact after := by
  have count := exact.count
  constructor
  · intro other
    have balance := less other
    rw [release_count]
    split
    · rename_i same
      subst same
      rw [one_same] at balance
      rw [count other]
      omega
    · rename_i apart
      rw [one_other apart] at balance
      rw [count other]
      omega
  · intro other destroyed
    have balance := less other
    rw [release_freed] at destroyed
    split at destroyed
    · rename_i same
      subst same
      rw [one_same] at balance
      rcases Bool.or_eq_true_iff.mp destroyed with before | last
      · have nobody := exact.freed other before
        omega
      · have single := count other
        rw [beq_iff_eq.mp last] at single
        omega
    · have nobody := exact.freed other destroyed
      omega

/-- A pointer passes from one owner to another. -/
theorem Exact.handOver (exact : c.Exact owners) (owned : 0 < owners object)
    (same : ∀ other, after other = owners other) :
    ((c.acquire object).release object).Exact after :=
  (exact.acquire (exact.alive owned).2 fun _ => rfl).release fun other => by rw [same other]

end Rules

end Counts

section Containers

variable {W : Type v} [Fintype W] [DecidableEq W]

/-- How many of the variables hold `object`. -/
def holding (held : W → Option Φ) (object : Φ) : Nat :=
  (Finset.univ.filter fun w => held w = some object).card

/-- One variable apart from the others. -/
theorem holding_split (held : W → Option Φ) (w : W) (object : Φ) :
    holding held object =
      ((Finset.univ.erase w).filter fun v => held v = some object).card + ones (held w) object := by
  unfold holding
  nth_rewrite 1 [← Finset.insert_erase (Finset.mem_univ w)]
  rw [Finset.filter_insert, ones_eq]
  split
  · rw [Finset.card_insert_of_notMem]
    simp
  · rfl

theorem holding_update (held : W → Option Φ) (w : W) (new : Option Φ) (object : Φ) :
    holding (Function.update held w new) object + ones (held w) object =
      holding held object + ones new object := by
  have others : (Finset.univ.erase w).filter (fun v => Function.update held w new v = some object) =
      (Finset.univ.erase w).filter fun v => held v = some object := by
    apply Finset.filter_congr
    intro v member
    rw [Function.update_of_ne (Finset.ne_of_mem_erase member)]
  have before := holding_split held w object
  have after := holding_split (Function.update held w new) w object
  rw [others, Function.update_self] at after
  omega

omit [DecidableEq W] in
theorem holding_pos {held : W → Option Φ} {w : W} {object : Φ} (holds : held w = some object) :
    0 < holding held object := by
  apply Finset.card_pos.mpr
  exact ⟨w, Finset.mem_filter.mpr ⟨Finset.mem_univ w, holds⟩⟩

end Containers

section Lists

theorem count_cons (object : Φ) (rest : List Φ) (other : Φ) :
    (object :: rest).count other = rest.count other + one object other := by
  by_cases same : other = object
  · rw [same, one_same, List.count_cons_self]
  · rw [one_other same, List.count_cons_of_ne (Ne.symm same)]
    omega

theorem count_snoc (pointers : List (Option Φ)) (pointer : Option Φ) (other : Φ) :
    (pointers ++ [pointer]).count (some other) =
      pointers.count (some other) + ones pointer other := by
  rw [List.count_append]
  congr 1
  cases pointer with
  | none => rfl
  | some object =>
      by_cases same : other = object
      · rw [same, ones_some, one_same, List.count_singleton_self]
      · rw [ones_some, one_other same, List.count_eq_zero]
        simp [same]

/-- A labelled pointer goes. -/
theorem count_erase {Λ : Type v} [DecidableEq Λ] {entries : List (Λ × Φ)} {entry : Λ × Φ}
    (member : entry ∈ entries) (other : Φ) :
    ((entries.erase entry).map Prod.snd).count other + one entry.2 other =
      (entries.map Prod.snd).count other := by
  have same := ((List.perm_cons_erase member).map Prod.snd).count_eq other
  rw [List.map_cons, count_cons] at same
  exact same.symm

end Lists

end ReferenceCount
