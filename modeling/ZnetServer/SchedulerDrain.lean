import ZnetServer.SchedulerWakeup
import ZnetServer.TaskPool

set_option autoImplicit false

/- The scheduler as a pool of tasks, and what is left in it when `stop` has joined. -/
namespace ZnetServer.Scheduler

open Transition
open TaskPool (times)

variable {n : Nat} {F : Type}

/-- What the local `fiber` of `run` makes of a worker's slot. -/
def WorkerPc.slot : WorkerPc F → TaskPool.Slot F
  | .holding fiber => .given fiber
  | .running fiber _ => .begun fiber
  | .absent | .ready | .waiting | .woken | .empty | .left => .free

/-- The pool behind the state: order, locks, wakeups and null entries forgotten. -/
def State.pool (s : State n F) : TaskPool.Pool (WorkerId n) F :=
  ⟨↑(s.fibers.filterMap id), fun w => (s.worker w).slot⟩

/-- What a step does to the pool. -/
def poolEvent (s : State n F) : Event n F → Option (TaskPool.Event (WorkerId n) F)
  | .schedule fiber => fiber.map .submit
  | .fiberSchedule _ fiber => fiber.map .submit
  | .take w => match s.take.2 with
    | .holding fiber => some (.hand w fiber)
    | _ => none
  | .swapIn w => match s.worker w with
    | .holding fiber => some (.begin w fiber)
    | _ => none
  | .giveBack w => some (.finish w)
  | _ => none

/-- The fibers passed to `schedule`, the pops in `run` and the calls of `swapIn`, each
in the order of the trace. -/
def scheduled (trace : List (State n F × Event n F)) : List F :=
  (visible poolEvent trace).filterMap TaskPool.Event.submitted

def popped (trace : List (State n F × Event n F)) : List (WorkerId n × F) :=
  (visible poolEvent trace).filterMap TaskPool.Event.handed

def swappedIn (trace : List (State n F × Event n F)) : List (WorkerId n × F) :=
  (visible poolEvent trace).filterMap TaskPool.Event.begun

/-- The worker will look at the queue again. -/
def WorkerPc.serving : WorkerPc F → Bool
  | .ready | .waiting | .woken | .holding _ | .running _ _ => true
  | .absent | .empty | .left => false

theorem pool_setWorker (s : State n F) (w : WorkerId n) (pc : WorkerPc F) :
    (s.setWorker w pc).pool =
      ⟨s.pool.pending, Function.update s.pool.slot w pc.slot⟩ := by
  simp only [State.pool, setWorker_fibers, TaskPool.Pool.mk.injEq, true_and]
  funext v
  rw [setWorker_worker, Function.update_apply, apply_ite WorkerPc.slot]

/-- Moving a worker to a place with the same slot is invisible. -/
theorem pool_setWorker_same {s : State n F} {w : WorkerId n} {pc : WorkerPc F}
    (same : pc.slot = (s.worker w).slot) : (s.setWorker w pc).pool = s.pool := by
  rw [pool_setWorker, same]
  change (⟨s.pool.pending, Function.update s.pool.slot w (s.pool.slot w)⟩ :
    TaskPool.Pool (WorkerId n) F) = s.pool
  rw [Function.update_eq_self]

theorem pool_notifyAll (s : State n F) : s.notifyAll.pool = s.pool := by
  simp only [State.pool, notifyAll_fibers, TaskPool.Pool.mk.injEq, true_and]
  funext w
  by_cases blocked : s.worker w = .waiting
  · rw [notifyAll_waiting s w blocked, blocked]
    rfl
  · rw [notifyAll_other s w blocked]

/-- Only the entries that are fibers are pending. -/
theorem pending_append (fibers : List (Option F)) (fiber : Option F) :
    (↑((fibers ++ [fiber]).filterMap id) : Multiset F) =
      ↑fiber.toList + ↑(fibers.filterMap id) := by
  cases fiber <;>
    simp [List.filterMap_append, ← Multiset.coe_add, add_comm]

/-- Calls of `schedule` from outside are over before `stop` begins, and no fiber
pointer is null. -/
def Orderly (s : State n F) : Event n F → Prop
  | .schedule fiber => fiber ≠ none ∧ s.owner.stopCalled = false
  | .fiberSchedule _ fiber => fiber ≠ none
  | .stop => s.tickling = 0
  | _ => True

/-- From the call of `stop` on, somebody serves the queue as long as it holds a
fiber, and the joined threads have left. -/
structure DrainInv (s : State n F) : Prop where
  wakeup : WakeupInv s
  born : Born s
  rootless : s.worker none = .absent
  nonnull : none ∉ s.fibers
  going : s.owner.stopCalled = false → ∀ w, s.worker w ≠ .empty ∧ s.worker w ≠ .left
  served : s.owner.stopCalled = true → s.fibers ≠ [] →
    ∃ i : Fin n, (s.worker (some i)).serving = true
  joined : ∀ joined, s.owner = .joining joined → ∀ i : Fin n, i < joined →
    s.worker (some i) = .left
  plain : s.owner ≠ .calling
  returned : s.owner = .returned → ∀ i : Fin n, s.worker (some i) = .left

theorem init_drainInv : DrainInv (init : State n F) where
  wakeup := init_wakeupInv
  born := init_born
  rootless := rfl
  nonnull := by simp [init]
  going := fun _ w => by simp [init]
  served := fun called => by cases called
  joined := fun joined at_joining => by cases at_joining
  plain := by simp [init]
  returned := fun returned => by cases returned

/-- After the joins every thread has left `run`. -/
theorem joined_left {s : State n F} (inv : DrainInv s) (joined : s.Joined) (i : Fin n) :
    s.worker (some i) = .left := by
  rcases joined with all | calling | returned
  · exact inv.joined n all i i.isLt
  · exact absurd calling inv.plain
  · exact inv.returned returned i

theorem joined_empty {s : State n F} (inv : DrainInv s) (joined : s.Joined) : s.fibers = [] := by
  have called : s.owner.stopCalled = true := by
    rcases joined with owner | owner | owner <;> rw [owner] <;> rfl
  by_cases queued : s.fibers = []
  · exact queued
  · obtain ⟨i, serves⟩ := inv.served called queued
    rw [joined_left inv joined i] at serves
    cases serves

variable [DecidableEq F]

/-- A push is the submission of the fiber, or nothing for a null pointer. -/
theorem push_follows {s t : State n F} (fiber : Option F)
    (fibers : t.fibers = s.fibers ++ [fiber]) (slot : t.pool.slot = s.pool.slot) :
    Follows TaskPool.next s.pool (fiber.map .submit) t.pool := by
  have pending : t.pool.pending = ↑fiber.toList + s.pool.pending := by
    simp only [State.pool, fibers, pending_append]
  cases fiber with
  | none =>
      change t.pool = s.pool
      rw [← show (⟨s.pool.pending, s.pool.slot⟩ : TaskPool.Pool (WorkerId n) F) = s.pool from rfl,
        ← slot, ← show t.pool.pending = s.pool.pending by simpa using pending]
  | some fiber =>
      change some (⟨fiber ::ₘ s.pool.pending, s.pool.slot⟩ : TaskPool.Pool (WorkerId n) F) =
        some ⟨t.pool.pending, t.pool.slot⟩
      rw [pending, slot]
      rfl

/-- A pop of a fiber hands it to the worker that holds the lock. -/
theorem pop_follows {s : State n F} {w : WorkerId n} {rest : List (Option F)} {fiber : F}
    (free : s.worker w = .ready ∨ s.worker w = .woken) (back : s.fibers = rest ++ [some fiber]) :
    TaskPool.next s.pool (.hand w fiber) =
      some ({ s with fibers := rest }.setWorker w (.holding fiber)).pool := by
  have slot : s.pool.slot w = .free := by
    rcases free with free | free <;> simp [State.pool, free, WorkerPc.slot]
  have pending : s.pool.pending = fiber ::ₘ ↑(rest.filterMap id) := by
    simp only [State.pool, back, pending_append]
    rfl
  simp only [TaskPool.next, slot, pending, Multiset.mem_cons_self, ↓reduceIte,
    Multiset.erase_cons_head, pool_setWorker]
  rfl

/-- The scheduler refines the pool: a step is invisible or a step of the pool. -/
theorem scheduler_follows {s t : State n F} {e : Event n F} (born : Born s)
    (step : Step false s e t) : Follows TaskPool.next s.pool (poolEvent s e) t.pool := by
  have absent_slot : ∀ {w : WorkerId n} {pc : WorkerPc F}, s.worker w = .absent →
      pc.slot = .free → pc.slot = (s.worker w).slot := by
    intro w pc absent free
    rw [absent, free]
    rfl
  cases step
  case start | startReturns | stop | swapThreads | join | joinsReturn | callReturns |
      tickleNone => exact rfl
  case callRoot caller => cases caller
  case notifyAll => exact pool_notifyAll s
  case spawn created at_owner inside =>
    exact pool_setWorker_same (s := { s with owner := .starting (created + 1) })
      (absent_slot (born.spawned at_owner inside) rfl)
  case schedule fiber => exact push_follows fiber rfl rfl
  case fiberSchedule w fiber scheduled runs =>
    refine push_follows scheduled rfl ?_
    rw [pool_setWorker_same (by rw [runs]; rfl)]
    rfl
  case takeBlocked w free nothing going =>
    simp only [poolEvent, take_blocked s nothing going]
    exact pool_setWorker_same (by rcases free with free | free <;> rw [free] <;> rfl)
  case takeNothing w free nothing stops =>
    simp only [poolEvent, take_nothing s nothing stops]
    exact pool_setWorker_same (by rcases free with free | free <;> rw [free] <;> rfl)
  case takeNull w rest free back =>
    simp only [poolEvent, take_null s back]
    have kept : ({ s with fibers := rest } : State n F).pool = s.pool := by
      simp [State.pool, back, List.filterMap_append]
    change State.pool _ = s.pool
    rw [pool_setWorker_same (by rcases free with free | free <;> rw [free] <;> rfl), kept]
  case takeFiber w rest fiber free back =>
    simp only [poolEvent, take_back s back]
    exact pop_follows free back
  case swapIn w fiber held =>
    have slot : s.pool.slot w = .given fiber := by simp [State.pool, held, WorkerPc.slot]
    simp only [poolEvent, held, Follows, TaskPool.next, slot, ↓reduceIte, pool_setWorker]
    rfl
  case giveBack w fiber runs =>
    have slot : s.pool.slot w = .begun fiber := by simp [State.pool, runs, WorkerPc.slot]
    simp only [poolEvent, Follows, TaskPool.next, slot, pool_setWorker]
    rfl
  case tickleOne blocked | spurious blocked =>
    exact pool_setWorker_same (by rw [blocked]; rfl)
  case fiberTickleNone runs _ => exact pool_setWorker_same (by rw [runs]; rfl)
  case fiberTickleOne w other fiber runs blocked =>
    have apart : other ≠ w := by
      rintro rfl
      simp [runs] at blocked
    change State.pool _ = s.pool
    rw [pool_setWorker_same (by rw [setWorker_other _ _ _ apart, blocked]; rfl),
      pool_setWorker_same (by rw [runs]; rfl)]
  case leave null _ | again null _ => exact pool_setWorker_same (by rw [null]; rfl)

/-- A worker that has left stays away. -/
theorem left_stays {userCaller : Bool} {s t : State n F} {e : Event n F} (born : Born s)
    (step : Step userCaller s e t) {v : WorkerId n} (left : s.worker v = .left) :
    t.worker v = .left := by
  have set_kept : ∀ {r : State n F} (w : WorkerId n) (pc : WorkerPc F), r.worker v = .left →
      s.worker w ≠ .left → (r.setWorker w pc).worker v = .left := by
    intro r w pc before elsewhere
    rw [setWorker_other _ _ _ (fun same => elsewhere (by rw [← same]; exact left))]
    exact before
  cases step
  case start | startReturns | schedule | tickleNone | stop | swapThreads | join |
      joinsReturn | callReturns => exact left
  case callRoot at_owner _ _ =>
    have absent := born.root (by simp [at_owner]) (by simp [at_owner])
    exact set_kept none .ready left (by simp [absent])
  case notifyAll =>
    exact (notifyAll_other s v (by simp [left])).trans left
  case spawn created at_owner inside =>
    exact set_kept (some ⟨created, inside⟩) .ready left (by simp [born.spawned at_owner inside])
  case takeBlocked free _ _ | takeFiber free _ | takeNull free _ | takeNothing free _ _ =>
    exact set_kept _ _ left (by rcases free with free | free <;> simp [free])
  case fiberTickleOne runs blocked =>
    refine set_kept _ _ (set_kept _ _ left (by simp [runs])) (by simp [blocked])
  case tickleOne at_pc | spurious at_pc | swapIn at_pc | fiberSchedule at_pc |
      fiberTickleNone at_pc _ | giveBack at_pc | leave at_pc _ | again at_pc _ =>
    exact set_kept _ _ left (by simp [at_pc])

theorem served_step {s t : State n F} {e : Event n F} (positive : 0 < n) (inv : DrainInv s)
    (orderly : Orderly s e) (step : Step false s e t) (called : t.owner.stopCalled = true)
    (queued : t.fibers ≠ []) : ∃ i : Fin n, (t.worker (some i)).serving = true := by
  have set_serving : ∀ {r : State n F} {w : WorkerId n} {pc : WorkerPc F},
      s.worker w ≠ .absent → pc.serving = true →
      ∃ i : Fin n, ((r.setWorker w pc).worker (some i)).serving = true := by
    intro r w pc present serves
    cases w with
    | none => exact absurd inv.rootless present
    | some i => exact ⟨i, by rwa [setWorker_same]⟩
  cases step
  case start | spawn | startReturns => cases called
  case callRoot caller => cases caller
  case schedule => exact absurd (orderly.2.symm.trans called) (by simp)
  case stop at_owner =>
    have present : s.worker (some ⟨0, positive⟩) ≠ .absent := by
      intro absent
      have late := (inv.born.thread ⟨0, positive⟩).mp absent
      simp only [at_owner, OwnerPc.created] at late
      omega
    have busy := inv.going (by rw [at_owner]; rfl) (some ⟨0, positive⟩)
    refine ⟨⟨0, positive⟩, ?_⟩
    change (s.worker (some ⟨0, positive⟩)).serving = true
    cases place : s.worker (some ⟨0, positive⟩) <;> simp_all [WorkerPc.serving]
  case notifyAll at_owner =>
    obtain ⟨i, serves⟩ := inv.served (by rw [at_owner]; rfl) queued
    refine ⟨i, ?_⟩
    change (s.notifyAll.worker (some i)).serving = true
    by_cases blocked : s.worker (some i) = .waiting
    · rw [notifyAll_waiting s _ blocked]
      rfl
    · rwa [notifyAll_other s _ blocked]
  case tickleNone => exact inv.served called queued
  case swapThreads at_owner | join at_owner _ _ | joinsReturn at_owner _ _ |
      callReturns at_owner _ =>
    exact inv.served (by rw [at_owner]; rfl) queued
  case takeBlocked nothing _ | takeNothing nothing _ => exact absurd nothing queued
  case takeNull back => exact absurd (by simp [back]) inv.nonnull
  case takeFiber free back =>
    exact set_serving (fun absent => by simp [absent] at free) rfl
  case leave w null stops =>
    obtain ⟨i, serves⟩ := inv.served called queued
    have apart : some i ≠ w := by
      rintro rfl
      simp [null, WorkerPc.serving] at serves
    exact ⟨i, by rwa [setWorker_other _ _ _ apart]⟩
  case fiberTickleOne runs blocked => exact set_serving (by simp [blocked]) rfl
  case tickleOne at_pc | spurious at_pc | swapIn at_pc | fiberSchedule at_pc |
      fiberTickleNone at_pc _ | giveBack at_pc | again at_pc _ =>
    exact set_serving (by simp [at_pc]) rfl

theorem going_step {s t : State n F} {e : Event n F} (inv : DrainInv s)
    (step : Step false s e t) (uncalled : t.owner.stopCalled = false) (v : WorkerId n) :
    t.worker v ≠ .empty ∧ t.worker v ≠ .left := by
  have set_going : ∀ {r : State n F} {w : WorkerId n} {pc : WorkerPc F},
      (r.worker v ≠ .empty ∧ r.worker v ≠ .left) → (pc ≠ .empty ∧ pc ≠ .left) →
      (r.setWorker w pc).worker v ≠ .empty ∧ (r.setWorker w pc).worker v ≠ .left := by
    intro r w pc before stays
    rw [setWorker_worker]
    split
    · exact stays
    · exact before
  cases step
  case stop | notifyAll | swapThreads | join | callRoot | joinsReturn | callReturns =>
    cases uncalled
  case schedule | tickleNone => exact inv.going uncalled v
  case start at_owner | startReturns at_owner _ => exact inv.going (by rw [at_owner]; rfl) v
  case spawn at_owner _ => exact set_going (inv.going (by rw [at_owner]; rfl) v) (by simp)
  case takeNull back => exact absurd (by simp [back]) inv.nonnull
  case leave null _ => exact absurd null (inv.going uncalled _).1
  case takeNothing free _ stops =>
    by_cases built : s.owner = .built
    · simp [inv.wakeup.unborn built] at free
    · have flag := inv.wakeup.flag built
      rw [stops] at flag
      exact absurd (flag.trans uncalled) (by simp)
  case fiberTickleOne =>
    exact set_going (set_going (inv.going uncalled v) (by simp)) (by simp)
  all_goals exact set_going (inv.going uncalled v) (by simp)

theorem nonnull_step {s t : State n F} {e : Event n F} (nonnull : none ∉ s.fibers)
    (orderly : Orderly s e) (step : Step false s e t) : none ∉ t.fibers := by
  cases step
  case schedule fiber =>
    have proper : fiber ≠ none := orderly.1
    simp [nonnull, proper.symm]
  case fiberSchedule fiber scheduled runs =>
    have proper : scheduled ≠ none := orderly
    simp [nonnull, proper.symm]
  case takeFiber back | takeNull back =>
    rw [back] at nonnull
    exact fun member => nonnull (List.mem_append_left _ member)
  all_goals exact nonnull

theorem rootless_step {s t : State n F} {e : Event n F} (rootless : s.worker none = .absent)
    (step : Step false s e t) : t.worker none = .absent := by
  have set_kept : ∀ {r : State n F} {w : WorkerId n} {pc : WorkerPc F},
      r.worker none = .absent → s.worker w ≠ .absent →
      (r.setWorker w pc).worker none = .absent := by
    intro r w pc before present
    rw [setWorker_other _ _ _ (fun same => present (by rw [← same]; exact rootless))]
    exact before
  cases step
  case start | startReturns | schedule | tickleNone | stop | swapThreads | join |
      joinsReturn | callReturns => exact rootless
  case callRoot caller => cases caller
  case notifyAll => exact (notifyAll_other s none (by simp [rootless])).trans rootless
  case spawn => rwa [setWorker_other _ _ _ (by simp)]
  case takeBlocked free _ _ | takeFiber free _ | takeNull free _ | takeNothing free _ _ =>
    exact set_kept rootless (fun absent => by simp [absent] at free)
  case fiberTickleOne runs blocked =>
    exact set_kept (set_kept rootless (by simp [runs])) (by simp [blocked])
  case tickleOne at_pc | spurious at_pc | swapIn at_pc | fiberSchedule at_pc |
      fiberTickleNone at_pc _ | giveBack at_pc | leave at_pc _ | again at_pc _ =>
    exact set_kept rootless (by simp [at_pc])

theorem drainInv_step {s t : State n F} {e : Event n F} (positive : 0 < n) (inv : DrainInv s)
    (orderly : Orderly s e) (step : Step false s e t) : DrainInv t := by
  have stays : ∀ v, s.worker v = .left → t.worker v = .left :=
    fun v left => left_stays inv.born step left
  refine ⟨wakeupInv_step inv.wakeup step, born_step inv.born step,
    rootless_step inv.rootless step, nonnull_step inv.nonnull orderly step, going_step inv step,
    served_step positive inv orderly step, ?_, ?_, ?_⟩
  · intro joined at_joining i before
    have earlier : ∀ k, s.owner = .joining k → i < k → t.worker (some i) = .left :=
      fun k at_owner below => stays _ (inv.joined k at_owner i below)
    cases step
    case swapThreads =>
      obtain rfl := OwnerPc.joining.inj at_joining
      omega
    case join k at_owner inside done =>
      obtain rfl := OwnerPc.joining.inj at_joining
      by_cases last : (i : Nat) = k
      · subst last
        exact done
      · exact earlier k at_owner (by omega)
    case start | spawn | startReturns | stop | notifyAll | callRoot | joinsReturn |
        callReturns => cases at_joining
    all_goals exact earlier joined at_joining before
  · intro calling
    cases step
    case start | spawn | startReturns | stop | notifyAll | swapThreads | join | joinsReturn |
        callReturns => cases calling
    case callRoot caller => cases caller
    all_goals exact inv.plain calling
  · intro returned i
    cases step
    case joinsReturn joined at_owner all _ =>
      exact inv.joined joined at_owner i (by omega)
    case callReturns at_owner _ => exact absurd at_owner inv.plain
    case start | spawn | startReturns | stop | notifyAll | swapThreads | join | callRoot =>
      cases returned
    all_goals exact stays _ (inv.returned returned i)

section Runs

variable {trace : List (State n F × Event n F)} {s : State n F}

theorem run_drainInv (positive : 0 < n) (run : Run (next false) Orderly init trace s) :
    DrainInv s :=
  run.invariant init_drainInv
    (fun _ _ _ inv orderly step => drainInv_step positive inv orderly (step_of_next step))

theorem run_pool (positive : 0 < n) (run : Run (next false) Orderly init trace s) :
    ∃ image, Run TaskPool.next anyStep TaskPool.empty image s.pool ∧
      events image = visible poolEvent trace :=
  run.simulate State.pool init_drainInv
    (fun _ _ _ inv orderly step => drainInv_step positive inv orderly (step_of_next step))
    (fun _ _ _ inv _ step => scheduler_follows inv.born (step_of_next step))

theorem count_pending (fibers : List (Option F)) (fiber : F) :
    (fibers.filterMap id).count fiber = fibers.count (some fiber) := by
  induction fibers with
  | nil => rfl
  | cons head rest ih =>
      cases head with
      | none => simpa using ih
      | some own =>
          change (own :: rest.filterMap id).count fiber = _
          rw [List.count_cons, List.count_cons, ih]
          simp

/-- No fiber is lost or run twice, and `stop` drains the queue: at every moment a
scheduled fiber is in the queue or was popped by exactly one worker, and after the
joins the queue is empty and each was popped and swapped in once, by that worker. -/
theorem stop_drains (positive : 0 < n) (run : Run (next false) Orderly init trace s)
    (once : (scheduled trace).Nodup) :
    (∀ fiber ∈ scheduled trace,
      (s.fibers.count (some fiber) = 1 ∧ ∀ w, times (popped trace) w fiber = 0) ∨
      (s.fibers.count (some fiber) = 0 ∧ ∃ w, times (popped trace) w fiber = 1 ∧
        ∀ v, v ≠ w → times (popped trace) v fiber = 0)) ∧
    (∀ w fiber, times (swappedIn trace) w fiber ≤ times (popped trace) w fiber) ∧
    (s.Joined → s.fibers = [] ∧ ∀ fiber ∈ scheduled trace, ∃ w,
      times (popped trace) w fiber = 1 ∧ times (swappedIn trace) w fiber = 1 ∧
      ∀ v, v ≠ w → times (popped trace) v fiber = 0 ∧
        times (swappedIn trace) v fiber = 0) := by
  have inv := run_drainInv positive run
  obtain ⟨image, simulated, same⟩ := run_pool positive run
  have begun : ∀ w fiber, times (popped trace) w fiber =
      times (swappedIn trace) w fiber + TaskPool.waitingFor s.pool w fiber := by
    intro w fiber
    have counted := TaskPool.handed_count simulated w fiber
    rw [same] at counted
    exact counted
  have placed : ∀ fiber ∈ scheduled trace,
      (s.fibers.count (some fiber) = 1 ∧ ∀ w, times (popped trace) w fiber = 0) ∨
      (s.fibers.count (some fiber) = 0 ∧ ∃ w, times (popped trace) w fiber = 1 ∧
        ∀ v, v ≠ w → times (popped trace) v fiber = 0) := by
    intro fiber member
    have split_once := TaskPool.handed_once simulated (by rwa [same]) (by rwa [same])
    rw [same] at split_once
    simp only [State.pool, Multiset.coe_count, count_pending] at split_once
    exact split_once
  refine ⟨placed, fun w fiber => ?_, fun joined => ⟨joined_empty inv joined, ?_⟩⟩
  · rw [begun]
    exact Nat.le_add_right _ _
  · intro fiber member
    have idle : ∀ w, TaskPool.waitingFor s.pool w fiber = 0 := by
      intro w
      cases w with
      | none => simp [TaskPool.waitingFor, State.pool, inv.rootless, WorkerPc.slot]
      | some i =>
        simp [TaskPool.waitingFor, State.pool, joined_left inv joined i, WorkerPc.slot]
    rcases placed fiber member with ⟨queued, _⟩ | ⟨_, w, here, elsewhere⟩
    · rw [joined_empty inv joined] at queued
      cases queued
    · have mine := begun w fiber
      rw [idle w] at mine
      refine ⟨w, here, by omega, fun v apart => ⟨elsewhere v apart, ?_⟩⟩
      have other := begun v fiber
      rw [elsewhere v apart, idle v] at other
      omega

end Runs

instance (s : State n F) (e : Event n F) : Decidable (Orderly s e) :=
  match e with
  | .schedule fiber => inferInstanceAs (Decidable (fiber ≠ none ∧ s.owner.stopCalled = false))
  | .fiberSchedule _ fiber => inferInstanceAs (Decidable (fiber ≠ none))
  | .stop => inferInstanceAs (Decidable (s.tickling = 0))
  | .start | .spawn | .startReturns | .tickle _ | .take _ | .spurious _ | .swapIn _
  | .fiberTickle _ _ | .giveBack _ | .checkStopping _ | .notifyAll | .swapThreads | .join
  | .callRoot | .stopReturns => inferInstanceAs (Decidable True)

/-- A fiber schedules another one after `stop` was called and one worker has left. -/
def lateSchedule : List (Event 2 Nat) :=
  [.start, .spawn, .spawn, .startReturns, .schedule (some 7), .tickle none, .take worker0,
    .swapIn worker0, .stop, .notifyAll, .take worker1, .checkStopping worker1,
    .fiberSchedule worker0 (some 8), .fiberTickle worker0 none, .giveBack worker0,
    .take worker0, .swapIn worker0, .giveBack worker0, .take worker0,
    .checkStopping worker0, .swapThreads, .join, .join, .stopReturns]

theorem stop_drains_late : ∃ (trace : List (State 2 Nat × Event 2 Nat)) (s : State 2 Nat),
    scheduled trace = [7, 8] ∧ s.Joined ∧ s.fibers = [] ∧
    ∃ w, times (swappedIn trace) w 8 = 1 := by
  have run := Run.of_replay (show replay (guarded (next false) Orderly) init lateSchedule =
    some (_, _) from rfl)
  have drained := (stop_drains (by decide) run (by decide)).2.2 (.inr (.inr rfl))
  obtain ⟨w, _, once, _⟩ := drained.2 8 (by decide)
  exact ⟨_, _, rfl, .inr (.inr rfl), drained.1, w, once⟩

end ZnetServer.Scheduler
