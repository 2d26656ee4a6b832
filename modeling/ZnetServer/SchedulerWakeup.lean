import ZnetServer.Scheduler

set_option autoImplicit false

namespace ZnetServer.Scheduler

open Transition

variable {n : Nat} {F : Type}

/-- Neither blocked in the wait nor outside `run`. -/
def WorkerPc.awake : WorkerPc F → Bool
  | .absent | .waiting | .left => false
  | .ready | .woken | .holding _ | .running _ _ | .empty => true

/-- The worker has entered `run` and not left it. -/
def WorkerPc.InRun (pc : WorkerPc F) : Prop := pc ≠ .absent ∧ pc ≠ .left

def OwnerPc.stopCalled : OwnerPc → Bool
  | .built | .starting _ | .started => false
  | .flagged | .notified | .joining _ | .calling | .returned => true

def OwnerPc.notifiedAll : OwnerPc → Bool
  | .built | .starting _ | .started | .flagged => false
  | .notified | .joining _ | .calling | .returned => true

/-- Every worker in `run` sleeps with no wakeup delivered, no call is between its
unlock and its notify, and still there is a fiber to run or a stop to obey. -/
structure Stuck (s : State n F) : Prop where
  somebody : ∃ w, (s.worker w).InRun
  asleep : ∀ w, (s.worker w).InRun → s.worker w = .waiting
  scheduleQuiet : s.tickling = 0 ∧ ∀ w fiber, s.worker w ≠ .running fiber true
  stopQuiet : s.owner ≠ .flagged
  work : s.fibers ≠ [] ∨ s.stopping = true

/-- While the scheduler goes on, queued fibers and a sleeper imply somebody who will
look at the queue or who still has to notify. -/
def Covered (s : State n F) : Prop :=
  s.stopping = false → s.fibers ≠ [] → (∃ w, s.worker w = .waiting) →
    0 < s.tickling ∨ ∃ w, (s.worker w).awake = true

structure WakeupInv (s : State n F) : Prop where
  unborn : s.owner = .built → ∀ w, s.worker w = .absent
  flag : s.owner ≠ .built → s.stopping = s.owner.stopCalled
  nobody : s.owner.notifiedAll = true → ∀ w, s.worker w ≠ .waiting
  covered : Covered s

theorem Covered.of_awake {s : State n F} {w : WorkerId n} {pc : WorkerPc F}
    (awake : pc.awake = true) : Covered (s.setWorker w pc) :=
  fun _ _ _ => Or.inr ⟨w, by simpa using awake⟩

theorem stopCalled_of_notifiedAll {owner : OwnerPc} (after : owner.notifiedAll = true) :
    owner.stopCalled = true ∧ owner ≠ .built := by
  cases owner <;> simp_all [OwnerPc.notifiedAll, OwnerPc.stopCalled]

theorem init_wakeupInv : WakeupInv (init : State n F) :=
  ⟨fun _ _ => rfl, fun other => absurd rfl other, fun after => (nomatch after),
    fun going => (nomatch going)⟩

variable [DecidableEq F]

theorem covered_step {userCaller : Bool} {s t : State n F} {e : Event n F}
    (inv : WakeupInv s) (step : Step userCaller s e t) : Covered t := by
  cases step
  -- Steps that leave some worker awake.
  case spawn | tickleOne | takeFiber | takeNull | takeNothing | spurious | swapIn |
      fiberSchedule | fiberTickleOne | fiberTickleNone | giveBack | again | callRoot =>
    exact Covered.of_awake rfl
  case start at_owner =>
    rintro - - ⟨w, waits⟩
    have unborn := inv.unborn at_owner w
    exact absurd (unborn.symm.trans waits) (by simp)
  case schedule fiber =>
    intro going _ sleeper
    by_cases queued : s.fibers = []
    · left
      simp [queued]
    · rcases inv.covered going queued sleeper with pending | worker
      · left
        exact Nat.lt_of_lt_of_le pending (Nat.le_add_right _ _)
      · exact Or.inr worker
  case tickleNone _ nobody =>
    rintro - - ⟨w, waits⟩
    exact absurd waits (nobody w)
  case takeBlocked _ nothing _ => exact fun _ queued => absurd nothing queued
  case leave _ stops =>
    intro going
    exact absurd (stops.symm.trans going) (by simp)
  case stop => exact fun going => nomatch going
  case notifyAll =>
    rintro - - ⟨w, waits⟩
    exact absurd waits (notifyAll_nobody s w)
  case startReturns | swapThreads | join | joinsReturn | callReturns => exact inv.covered

theorem nobody_step {userCaller : Bool} {s t : State n F} {e : Event n F}
    (inv : WakeupInv s) (step : Step userCaller s e t) (after : t.owner.notifiedAll = true) :
    ∀ w, t.worker w ≠ .waiting := by
  have set_kept : ∀ (w : WorkerId n) (pc : WorkerPc F), pc ≠ .waiting →
      (∀ v, s.worker v ≠ .waiting) → ∀ v, (s.setWorker w pc).worker v ≠ .waiting := by
    intro w pc awake quiet v
    rw [setWorker_worker]
    split
    · exact awake
    · exact quiet v
  cases step
  case start | spawn | startReturns | stop => cases after
  case notifyAll => exact notifyAll_nobody s
  case swapThreads at_owner | join _ at_owner _ _ | joinsReturn _ at_owner _ _ |
      callReturns at_owner _ =>
    exact inv.nobody (by rw [at_owner]; rfl)
  case callRoot at_owner _ _ =>
    exact set_kept none .ready (by simp) (inv.nobody (by rw [at_owner]; rfl))
  case schedule | tickleNone => exact inv.nobody after
  case takeBlocked going =>
    obtain ⟨called, later⟩ := stopCalled_of_notifiedAll after
    exact absurd ((inv.flag later).symm.trans going) (by simpa using called)
  case fiberTickleOne w other fiber runs blocked => exact absurd blocked (inv.nobody after other)
  case tickleOne blocked => exact absurd blocked (inv.nobody after _)
  all_goals exact set_kept _ _ (by simp) (inv.nobody after)

theorem wakeupInv_step {userCaller : Bool} {s t : State n F} {e : Event n F}
    (inv : WakeupInv s) (step : Step userCaller s e t) : WakeupInv t := by
  refine ⟨?_, ?_, nobody_step inv step, covered_step inv step⟩
  · intro built w
    cases step
    case schedule | tickleNone => exact inv.unborn built w
    case start | spawn | startReturns | stop | notifyAll | swapThreads | join | callRoot |
        joinsReturn | callReturns => cases built
    case takeBlocked free _ _ | takeFiber free _ | takeNull free _ | takeNothing free _ _ =>
      exact absurd free (by simp [inv.unborn built])
    case tickleOne at_pc | spurious at_pc | swapIn at_pc | fiberSchedule at_pc |
        fiberTickleOne at_pc _ | fiberTickleNone at_pc _ | giveBack at_pc | leave at_pc _ |
        again at_pc _ =>
      exact absurd at_pc (by simp [inv.unborn built])
  · intro later
    cases step
    case start | stop => rfl
    case spawn at_owner _ | startReturns at_owner _ | notifyAll at_owner |
        swapThreads at_owner | join at_owner _ _ | callRoot at_owner _ _ |
        joinsReturn at_owner _ _ | callReturns at_owner _ =>
      have flag := inv.flag (by simp [at_owner])
      rw [at_owner] at flag
      exact flag
    all_goals exact inv.flag later

theorem reachable_wakeupInv {userCaller : Bool} {s : State n F}
    (reachable : Reachable (next userCaller) init s) : WakeupInv s := by
  obtain ⟨trace, run⟩ := reachable
  exact run.invariant init_wakeupInv
    (fun _ _ _ inv _ step => wakeupInv_step inv (step_of_next step))

/-- Whatever the callers, the workers and `stop` do in whatever order, the workers
never all sleep beside a queued fiber or a requested stop. -/
theorem no_lost_wakeup (userCaller : Bool) {s : State n F}
    (reachable : Reachable (next userCaller) init s) : ¬ Stuck s := by
  intro stuck
  have inv := reachable_wakeupInv reachable
  obtain ⟨w, inside⟩ := stuck.somebody
  have sleeps := stuck.asleep w inside
  have alive : s.owner ≠ .built := fun built => inside.1 (inv.unborn built w)
  have before : s.owner.notifiedAll = false := by
    by_cases after : s.owner.notifiedAll = true
    · exact absurd sleeps (inv.nobody after w)
    · simpa using after
  have going : s.stopping = false := by
    rw [inv.flag alive]
    have quiet := stuck.stopQuiet
    cases owner : s.owner <;> simp_all [OwnerPc.notifiedAll, OwnerPc.stopCalled]
  have queued : s.fibers ≠ [] := by
    rcases stuck.work with queued | stops
    · exact queued
    · exact absurd (stops.symm.trans going) (by simp)
  rcases inv.covered going queued ⟨w, sleeps⟩ with pending | ⟨v, awake⟩
  · exact absurd stuck.scheduleQuiet.1 (Nat.ne_of_gt pending)
  · have present : (s.worker v).InRun := by
      constructor <;> intro same <;> simp [same, WorkerPc.awake] at awake
    rw [stuck.asleep v present] at awake
    cases awake

/-- The worker sleeps, a fiber is queued, and its notify is still to come. -/
theorem no_lost_wakeup_pending :
    ∃ s : State 1 Nat, s.worker (some 0) = .waiting ∧ s.fibers = [some 7] ∧ ¬ Stuck s :=
  ⟨_, rfl, rfl, no_lost_wakeup false (Reachable.of_replay
    (show replay (next false) (init : State 1 Nat)
      [.start, .spawn, .take (some 0), .schedule (some 7)] = some (_, _) from rfl))⟩

end ZnetServer.Scheduler
