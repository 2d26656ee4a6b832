import ZnetServer.Fiber
import ZnetServer.Transition

set_option autoImplicit false

/- `s_fiber_id` and `s_fiber_count` of `server/fiber.cpp`, while any number of threads build
and destroy fibers. A fiber is named by the number of constructor calls before its own. -/
namespace ZnetServer.Fiber

open Transition

structure Population (T : Type) where
  /-- Constructor calls so far. -/
  built : Nat
  /-- `s_fiber_id` -/
  fiberId : UInt64
  /-- `s_fiber_count` -/
  fiberCount : UInt64
  /-- `m_id` -/
  ids : Nat → UInt32
  machine : Machine T Nat Unit
  /-- The fibers built from a callback that have not been destroyed. -/
  callbacks : List Nat
  /-- Main fibers whose threads have exited and that still have an owner. -/
  orphans : List Nat

namespace Population

inductive Event (T : Type) where
  | getThis (w : T)
  /-- `getcontext` fails in the constructor of the main fiber. -/
  | getThisThrows (w : T)
  | construct
  /-- `new` or `getcontext` fails in the constructor that takes a callback. -/
  | constructThrows
  /-- What a scheduler writes to its thread-local pointer. -/
  | setScheduler (w : T) (fiber : Nat)
  | switch (w : T) (stack : Nat) (switch : Switch Nat)
  /-- The thread-local owner goes; `last` if the main fiber has no other. -/
  | exit (w : T) (last : Bool)
  /-- The last owner goes of a fiber that is nobody's main fiber. -/
  | destroy (fiber : Nat)
  deriving DecidableEq

variable {T : Type}

def init : Population T where
  built := 0
  fiberId := 0
  fiberCount := 0
  ids := fun _ => 0
  machine :=
    { current := fun _ => none
      main := fun _ => none
      scheduler := fun _ => none
      saved := fun fiber => ⟨fiber, (), none⟩
      executing := fun _ => none
      swaps := 0 }
  callbacks := []
  orphans := []

/-- `m_id = s_fiber_id ++` -/
def issue (s : Population T) : Population T :=
  { s with
    built := s.built + 1
    fiberId := s.fiberId + 1
    ids := Function.update s.ids s.built s.fiberId.toUInt32 }

variable [DecidableEq T]

/-- One step of the program. -/
def next (s : Population T) : Event T → Option (Population T)
  -- `reset` lets go of a main fiber that the thread had before.
  | .getThis w => match s.machine.current w with
    | some _ => some s
    | none =>
      some { s.issue with
        machine := (s.machine.getThis w s.built ()).1
        orphans := s.orphans ++ (s.machine.main w).toList }
  | .getThisThrows w => match s.machine.current w with
    | some _ => none
    | none => some s.issue
  -- The objects of a process have different addresses of 64 bits.
  | .construct =>
    if s.callbacks.length + 1 < UInt64.size then
      some { s.issue with
        fiberCount := s.fiberCount + 1
        machine := s.machine.make s.built ()
        callbacks := s.callbacks ++ [s.built] }
    else none
  | .constructThrows => some { s.issue with fiberCount := s.fiberCount + 1 }
  | .setScheduler w fiber => some { s with machine := s.machine.setScheduler w fiber }
  | .switch w stack switch =>
    if (s.machine.ends w switch).isSome then
      some { s with machine := s.machine.perform w stack () switch }
    else none
  | .exit w last => match s.machine.main w with
    | none => some s
    | some own =>
      let machine :=
        { s.machine.exit w with
          current := Function.update s.machine.current w none
          main := Function.update s.machine.main w none }
      if last then some { s with fiberCount := s.fiberCount - 1, machine := machine }
      else some { s with machine := machine, orphans := s.orphans ++ [own] }
  | .destroy fiber =>
    if fiber ∈ s.callbacks then
      some { s with fiberCount := s.fiberCount - 1, callbacks := s.callbacks.erase fiber }
    else if fiber ∈ s.orphans then
      some { s with fiberCount := s.fiberCount - 1, orphans := s.orphans.erase fiber }
    else none

/-- `s_fiber_count` is the number of the fibers built from a callback. -/
def Balanced (s : Population T) : Prop := s.fiberCount.toNat = s.callbacks.length

/-- A main fiber is destroyed, or a constructor throws behind its increment. -/
def Miscounts (s : Population T) : Event T → Prop
  | .exit w last => last = true ∧ s.machine.main w ≠ none
  | .destroy fiber => fiber ∉ s.callbacks
  | .constructThrows => True
  | _ => False

section Steps

variable {s t : Population T} {e : Event T}

/-- What a step does with the counter and the fibers that it should count. -/
inductive Counts (s t : Population T) : Event T → Prop
  | still {e : Event T} (count : t.fiberCount = s.fiberCount) (same : t.callbacks = s.callbacks)
      (harmless : ¬ Miscounts s e) : Counts s t e
  | built (count : t.fiberCount = s.fiberCount + 1) (room : s.callbacks.length + 1 < UInt64.size)
      (more : t.callbacks.length = s.callbacks.length + 1) : Counts s t .construct
  | thrown (count : t.fiberCount = s.fiberCount + 1) (same : t.callbacks = s.callbacks) :
      Counts s t .constructThrows
  | destroyed {fiber : Nat} (count : t.fiberCount = s.fiberCount - 1)
      (known : fiber ∈ s.callbacks) (less : t.callbacks.length + 1 = s.callbacks.length) :
      Counts s t (.destroy fiber)
  | lost {e : Event T} (count : t.fiberCount = s.fiberCount - 1)
      (same : t.callbacks = s.callbacks) (harm : Miscounts s e) : Counts s t e

theorem counts_of_next (step : s.next e = some t) : Counts s t e := by
  cases e with
  | getThis w =>
      simp only [next] at step
      split at step <;> obtain rfl := Option.some.inj step <;> exact .still rfl rfl id
  | getThisThrows w =>
      simp only [next] at step
      split at step
      · cases step
      · obtain rfl := Option.some.inj step
        exact .still rfl rfl id
  | construct =>
      simp only [next] at step
      split at step
      · rename_i room
        obtain rfl := Option.some.inj step
        exact .built rfl room List.length_append
      · cases step
  | constructThrows =>
      obtain rfl := Option.some.inj step
      exact .thrown rfl rfl
  | setScheduler w fiber =>
      obtain rfl := Option.some.inj step
      exact .still rfl rfl id
  | switch w stack switch =>
      simp only [next] at step
      split at step
      · obtain rfl := Option.some.inj step
        exact .still rfl rfl id
      · cases step
  | exit w last =>
      simp only [next] at step
      split at step
      · rename_i nothing
        obtain rfl := Option.some.inj step
        exact .still rfl rfl fun harm => harm.2 nothing
      · rename_i own held
        split at step
        · rename_i final
          obtain rfl := Option.some.inj step
          exact .lost rfl rfl ⟨final, by simp [held]⟩
        · rename_i shared
          obtain rfl := Option.some.inj step
          exact .still rfl rfl fun harm => shared harm.1
  | destroy fiber =>
      simp only [next] at step
      split at step
      · rename_i known
        obtain rfl := Option.some.inj step
        have positive := List.length_pos_of_mem known
        have shorter := List.length_erase_of_mem known
        apply Counts.destroyed rfl known
        show (s.callbacks.erase fiber).length + 1 = s.callbacks.length
        omega
      · rename_i foreign
        split at step
        · obtain rfl := Option.some.inj step
          exact .lost rfl rfl foreign
        · cases step

theorem toNat_succ (count : UInt64) : (count + 1).toNat = (count.toNat + 1) % UInt64.size := by
  rw [UInt64.toNat_add]
  rfl

theorem toNat_pred (count : UInt64) :
    (count - 1).toNat = (UInt64.size - 1 + count.toNat) % UInt64.size := by
  rw [UInt64.toNat_sub]
  rfl

theorem Balanced.step (balanced : Balanced s) (step : s.next e = some t)
    (harmless : ¬ Miscounts s e) : Balanced t := by
  have bound := s.fiberCount.toNat_lt
  have size : UInt64.size = 18446744073709551616 := rfl
  unfold Balanced at *
  cases counts_of_next step with
  | still count same => rw [count, same, balanced]
  | built count room more =>
      rw [count, toNat_succ, more, size]
      omega
  | thrown => exact absurd trivial harmless
  | destroyed count known less =>
      rw [count, toNat_pred, size]
      omega
  | lost _ _ harm => exact absurd harm harmless

theorem Balanced.broken (balanced : Balanced s) (step : s.next e = some t)
    (harm : Miscounts s e) : ¬ Balanced t := by
  have bound := s.fiberCount.toNat_lt
  have size : UInt64.size = 18446744073709551616 := rfl
  unfold Balanced at *
  cases counts_of_next step with
  | still _ _ harmless => exact absurd harm harmless
  | built => exact harm.elim
  | thrown count same =>
      rw [count, toNat_succ, same, size]
      omega
  | destroyed _ known => exact absurd known harm
  | lost count same =>
      rw [count, toNat_pred, same, size]
      omega

end Steps

/-- The counter is right in the states of a run just if no step destroys a main fiber and no
constructor of a callback fiber throws. -/
theorem balanced_iff {trace : List (Population T × Event T)} {s : Population T}
    (run : Run next anyStep init trace s) :
    ((∀ step ∈ trace, Balanced step.1) ∧ Balanced s) ↔
      ∀ step ∈ trace, ¬ Miscounts step.1 step.2 := by
  apply run.safe_iff (I := Balanced)
  · rfl
  · exact fun _ balanced => balanced
  · exact fun _ _ _ balanced _ step harmless => balanced.step step harmless
  · exact fun _ _ _ balanced _ step harm => balanced.broken step harm

instance (s : Population T) (e : Event T) : Decidable (Miscounts s e) :=
  match e with
  | .exit w last => inferInstanceAs (Decidable (last = true ∧ s.machine.main w ≠ none))
  | .destroy fiber => inferInstanceAs (Decidable (fiber ∉ s.callbacks))
  | .constructThrows => inferInstanceAs (Decidable True)
  | .getThis _ | .getThisThrows _ | .construct | .setScheduler .. | .switch .. =>
    inferInstanceAs (Decidable False)

/-- Two threads have main fibers and one of two callback fibers is left. -/
def twoThreads : List (Event Bool) :=
  [.getThis false, .construct, .getThis true, .construct, .destroy 1]

theorem balanced_two_threads : ∃ s : Population Bool,
    Balanced s ∧ s.fiberCount = 1 ∧ s.callbacks = [3] := by
  have run := Run.of_replay (show replay (guarded next anyStep) init twoThreads =
    some (_, _) from rfl)
  exact ⟨_, ((balanced_iff run).mpr (by decide)).2, rfl, rfl⟩

/-- A thread that has called `GetThis` exits. -/
def threadExits : List (Event Bool) := [.getThis false, .exit false true]

theorem count_wraps : ∃ (trace : List (Population Bool × Event Bool)) (s : Population Bool),
    Run next anyStep init trace s ∧ s.callbacks = [] ∧
      s.fiberCount = 18446744073709551615 ∧ ¬ Balanced s := by
  have run := Run.of_replay (show replay (guarded next anyStep) init threadExits =
    some (_, _) from rfl)
  exact ⟨_, _, run, rfl, rfl, by unfold Balanced; decide⟩

end Population

end ZnetServer.Fiber
