import Mathlib.Algebra.BigOperators.Fin
import Mathlib.Algebra.Order.BigOperators.Group.Finset
import ZnetServer.RunBudget
import ZnetServer.SchedulerDrain

set_option autoImplicit false

/- `stop` comes back: once it was called the workers only have a bounded number of steps left,
apart from what later calls of `schedule` bring, and some of them can always go on. -/
namespace ZnetServer.Scheduler

open Transition

variable {n : Nat} {F : Type}

/-- Steps that a worker has left before it looks at the queue again, or leaves. -/
def WorkerPc.rank : WorkerPc F → Nat
  | .absent | .left => 0
  | .empty => 1
  | .ready | .woken => 2
  | .waiting => 3
  | .running _ tickling => 3 + tickling.toNat
  | .holding _ => 4

/-- Steps that the owner has left in `stop`. -/
def OwnerPc.rank (n : Nat) : OwnerPc → Nat
  | .built | .starting _ | .started | .calling | .returned => 0
  | .flagged => n + 3
  | .notified => n + 2
  | .joining joined => n - joined + 1

/-- What the places of the workers come to together. -/
def State.sumOf (place : WorkerPc F → Nat) (s : State n F) : Nat := ∑ w, place (s.worker w)

/-- `stop` was called on a scheduler without a root fiber. -/
structure Stopping (s : State n F) : Prop where
  called : s.owner.stopCalled = true
  wakeup : WakeupInv s
  born : Born s
  rootless : s.worker none = .absent
  plain : s.owner ≠ .calling

theorem Stopping.stops {s : State n F} (stopping : Stopping s) : s.stopping = true := by
  have called := stopping.called
  refine (stopping.wakeup.flag ?_).trans called
  rintro built
  rw [built] at called
  cases called

variable [DecidableEq F]

end ZnetServer.Scheduler
