import ZnetServer.SchedulerStop

set_option autoImplicit false

/- A started scheduler that nobody stops: its workers serve the queue in a bounded number of
steps and then all sleep. -/
namespace ZnetServer.Scheduler

open Transition
open TaskPool (times)

variable {n : Nat} {F : Type}

/-- The steps of the workers, and the notify of a call that has left the lock. -/
def Event.isWorker : Event n F → Bool
  | .tickle _ | .take _ | .swapIn _ | .fiberTickle _ _ | .giveBack _ | .checkStopping _ => true
  | _ => false

def Event.serves (e : Event n F) : Nat := if e.isWorker then 1 else 0

/-- What a call brings, an entry and its notify, or a wakeup that nobody has sent. -/
def Event.loads : Event n F → Nat
  | .schedule _ | .fiberSchedule _ _ => 5
  | .spurious _ => 1
  | _ => 0

/-- Steps that a worker has left before it sleeps, with those of the worker it wakes. -/
def WorkerPc.work : WorkerPc F → Nat
  | .absent | .left | .waiting => 0
  | .ready | .woken => 1
  | .empty => 2
  | .running _ tickling => 2 + 2 * tickling.toNat
  | .holding _ => 3

def State.load (s : State n F) : Nat :=
  s.sumOf WorkerPc.work + 3 * s.fibers.length + 2 * s.tickling

/-- Started, not stopped, without a root fiber. -/
structure Going (s : State n F) : Prop where
  started : s.owner = .started
  wakeup : WakeupInv s
  born : Born s
  rootless : s.worker none = .absent
  stays : ∀ w, s.worker w ≠ .left

theorem Going.present {s : State n F} (going : Going s) (i : Fin n) :
    s.worker (some i) ≠ .absent := by
  intro absent
  have late := (going.born.thread i).mp absent
  have bound := i.isLt
  simp only [going.started, OwnerPc.created] at late
  omega

variable [DecidableEq F]

section Runs

variable {trace : List (State n F × Event n F)} {s : State n F}

end Runs

end ZnetServer.Scheduler
