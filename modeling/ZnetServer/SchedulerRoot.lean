import ZnetServer.SchedulerDrain

set_option autoImplicit false

/- A scheduler with a root fiber, which `stop` calls on the caller's thread when the others
are joined: what the root leaves behind. -/
namespace ZnetServer.Scheduler

open Transition
open TaskPool (times)

variable {n : Nat} {F : Type}

/-- The root comes behind the threads. -/
structure Succession (s : State n F) : Prop where
  born : Born s
  joined : ∀ joined, s.owner = .joining joined → ∀ i : Fin n, i < joined →
    s.worker (some i) = .left
  behind : s.owner = .calling ∨ s.owner = .returned → ∀ i : Fin n, s.worker (some i) = .left

theorem init_succession : Succession (init : State n F) where
  born := init_born
  joined := fun joined at_joining => by cases at_joining
  behind := fun after => by rcases after with after | after <;> cases after

/-- Once the root has found the queue empty, nobody fills it. -/
structure RootInv (s : State n F) : Prop extends Succession s where
  wakeup : WakeupInv s
  nonnull : none ∉ s.fibers
  last : s.worker none = .empty ∨ s.worker none = .left → s.fibers = []

theorem init_rootInv : RootInv (init : State n F) where
  toSuccession := init_succession
  wakeup := init_wakeupInv
  nonnull := by simp [init]
  last := fun _ => rfl

/-- Where the root is in `run`, the threads have left it. -/
theorem Succession.alone {s : State n F} (inv : Succession s) (present : s.worker none ≠ .absent)
    (i : Fin n) : s.worker (some i) = .left := by
  apply inv.behind
  by_contra outside
  rw [not_or] at outside
  exact present (inv.born.root outside.1 outside.2)

theorem RootInv.called {s : State n F} (inv : RootInv s) (present : s.worker none ≠ .absent) :
    s.owner.stopCalled = true := by
  by_contra uncalled
  refine present (inv.born.root ?_ ?_) <;>
    · intro owner
      rw [owner] at uncalled
      exact uncalled rfl

/-- Only the root itself runs beside the root. -/
theorem Succession.root_of {s : State n F} (inv : Succession s) (present : s.worker none ≠ .absent)
    {w : WorkerId n} (inside : s.worker w ≠ .left) : w = none := by
  cases w with
  | none => rfl
  | some i => exact absurd (inv.alone present i) inside

variable [DecidableEq F]

/-- Without a root the same steps are possible, but for the call of the root and its return. -/
theorem Step.plain {userCaller : Bool} {s t : State n F} {e : Event n F}
    (step : Step userCaller s e t) (call : e ≠ .callRoot) (returns : e ≠ .stopReturns) :
    Step false s e t := by
  cases step
  case callRoot => exact absurd rfl call
  case joinsReturn | callReturns => exact absurd rfl returns
  case takeNothing free nothing stops => exact .takeNothing free nothing stops
  all_goals constructor <;> assumption

/-- The steps of a scheduler with a root, those it shares with one without apart. -/
theorem Step.root_cases {s t : State n F} {e : Event n F} (step : Step true s e t) :
    Step false s e t ∧ e ≠ .callRoot ∧ e ≠ .stopReturns ∨
      (∃ joined, e = .callRoot ∧ s.owner = .joining joined ∧ n ≤ joined ∧
        t = { s with owner := .calling }.setWorker none .ready) ∨
      e = .stopReturns ∧ s.owner = .calling ∧ s.worker none = .left ∧
        t = { s with owner := .returned } := by
  by_cases call : e = .callRoot
  · subst call
    cases step with
    | callRoot at_owner all => exact Or.inr (Or.inl ⟨_, rfl, at_owner, all, rfl⟩)
  · by_cases returns : e = .stopReturns
    · subst returns
      cases step with
      | joinsReturn _ _ plain => cases plain
      | callReturns at_owner done => exact Or.inr (Or.inr ⟨rfl, at_owner, done, rfl⟩)
    · exact Or.inl ⟨step.plain call returns, call, returns⟩

theorem succession_step {userCaller : Bool} {s t : State n F} {e : Event n F}
    (inv : Succession s) (step : Step userCaller s e t) : Succession t := by
  have stays : ∀ v, s.worker v = .left → t.worker v = .left := fun v => left_stays inv.born step
  refine ⟨born_step inv.born step, ?_, ?_⟩
  · intro joined at_joining i before
    have earlier : ∀ k, s.owner = .joining k → i < k → t.worker (some i) = .left :=
      fun k at_owner below => stays _ (inv.joined k at_owner i below)
    cases step
    case swapThreads =>
      obtain rfl := OwnerPc.joining.inj at_joining
      omega
    case join k at_owner inside done =>
      obtain rfl := OwnerPc.joining.inj at_joining
      by_cases last : (i : Nat) = k
      · subst last
        exact done
      · exact earlier k at_owner (by omega)
    case start | spawn | startReturns | stop | notifyAll | callRoot | joinsReturn |
        callReturns => cases at_joining
    all_goals exact earlier joined at_joining before
  · intro after i
    have bound := i.isLt
    cases step
    case callRoot joined at_owner all _ | joinsReturn joined at_owner all _ =>
      exact stays _ (inv.joined joined at_owner i (by omega))
    case callReturns at_owner _ => exact stays _ (inv.behind (Or.inl at_owner) i)
    case start | spawn | startReturns | stop | notifyAll | swapThreads | join =>
      rcases after with after | after <;> cases after
    all_goals exact stays _ (inv.behind after i)

omit [DecidableEq F] in
/-- A worker that is put anywhere else does not bring the root to its end. -/
theorem ended_setWorker {s : State n F} {w : WorkerId n} {pc : WorkerPc F}
    (stays : pc ≠ .empty ∧ pc ≠ .left) (ended : (s.setWorker w pc).worker none = .empty ∨
      (s.setWorker w pc).worker none = .left) : s.worker none = .empty ∨ s.worker none = .left := by
  rw [setWorker_worker] at ended
  split at ended
  · rcases ended with same | same
    · exact absurd same stays.1
    · exact absurd same stays.2
  · exact ended

/-- Nobody is left to schedule beside a root at its end. -/
theorem still_empty {s t : State n F} {e : Event n F} (inv : RootInv s) (orderly : Orderly s e)
    (step : Step true s e t) (ended : s.worker none = .empty ∨ s.worker none = .left) :
    t.fibers = [] := by
  have nothing := inv.last ended
  have present : s.worker none ≠ .absent := by
    rcases ended with place | place <;> simp [place]
  cases step
  case schedule => exact absurd (orderly.2.symm.trans (inv.called present)) (by simp)
  case fiberSchedule w fiber scheduled runs =>
    obtain rfl := inv.root_of present (w := w) (by simp [runs])
    rcases ended with place | place <;> simp [place] at runs
  case takeFiber back | takeNull back => simp [nothing] at back
  all_goals exact nothing

theorem last_step {s t : State n F} {e : Event n F} (inv : RootInv s) (orderly : Orderly s e)
    (step : Step true s e t) (ended : t.worker none = .empty ∨ t.worker none = .left) :
    t.fibers = [] := by
  by_cases before : s.worker none = .empty ∨ s.worker none = .left
  · exact still_empty inv orderly step before
  · cases step
    case takeNothing nothing _ => exact nothing
    case takeNull back => exact absurd (by simp [back]) inv.nonnull
    case start | startReturns | schedule | tickleNone | stop | swapThreads | join | joinsReturn |
        callReturns => exact absurd ended before
    case notifyAll =>
      change s.notifyAll.worker none = .empty ∨ s.notifyAll.worker none = .left at ended
      by_cases blocked : s.worker none = .waiting
      · simp [notifyAll_waiting s none blocked] at ended
      · rw [notifyAll_other s none blocked] at ended
        exact absurd ended before
    case leave w null stops =>
      by_cases here : w = none
      · subst here
        exact absurd (Or.inl null) before
      · rw [setWorker_other _ _ _ (Ne.symm here)] at ended
        exact absurd ended before
    case fiberTickleOne =>
      exact absurd (ended_setWorker (by simp) (ended_setWorker (by simp) ended)) before
    all_goals exact absurd (ended_setWorker (by simp) ended) before

theorem rootInv_step {s t : State n F} {e : Event n F} (inv : RootInv s)
    (orderly : Orderly s e) (step : Step true s e t) : RootInv t := by
  refine ⟨succession_step inv.toSuccession step, wakeupInv_step inv.wakeup step, ?_,
    last_step inv orderly step⟩
  rcases step.root_cases with ⟨plain, _⟩ | ⟨joined, rfl, _, _, rfl⟩ | ⟨rfl, _, _, rfl⟩
  · exact nonnull_step inv.nonnull orderly plain
  · exact inv.nonnull
  · exact inv.nonnull

/-- The scheduler with its root refines the pool. -/
theorem root_follows {s t : State n F} {e : Event n F} (inv : RootInv s) (step : Step true s e t) :
    Follows TaskPool.next s.pool (poolEvent s e) t.pool := by
  rcases step.root_cases with ⟨plain, _⟩ | ⟨joined, rfl, at_owner, _, rfl⟩ | ⟨rfl, _, _, rfl⟩
  · exact scheduler_follows inv.born plain
  · have absent := inv.born.root (by simp [at_owner]) (by simp [at_owner])
    exact pool_setWorker_same (s := { s with owner := .calling }) (by rw [absent]; rfl)
  · rfl

section Runs

variable {trace : List (State n F × Event n F)} {s : State n F}

theorem run_rootInv (run : Run (next true) Orderly init trace s) : RootInv s :=
  run.invariant init_rootInv
    (fun _ _ _ inv orderly step => rootInv_step inv orderly (step_of_next step))

theorem run_root_pool (run : Run (next true) Orderly init trace s) :
    ∃ image, Run TaskPool.next anyStep TaskPool.empty image s.pool ∧
      events image = visible poolEvent trace :=
  run.simulate State.pool init_rootInv
    (fun _ _ _ inv orderly step => rootInv_step inv orderly (step_of_next step))
    (fun _ _ _ inv _ step => root_follows inv (step_of_next step))

/-- What was scheduled is queued or was popped, as often as it was scheduled, and when the root
fiber has left `run` the queue is empty, every thread has left too, and every worker has swapped
in what it popped: each fiber as often as it was scheduled. -/
theorem root_drains (run : Run (next true) Orderly init trace s) :
    (∀ fiber, (scheduled trace).count fiber =
      s.fibers.count (some fiber) + ((popped trace).map Prod.snd).count fiber) ∧
    (s.worker none = .left → s.fibers = [] ∧ (∀ i : Fin n, s.worker (some i) = .left) ∧
      (swappedIn trace).Perm (popped trace) ∧
      ((swappedIn trace).map Prod.snd).Perm (scheduled trace)) := by
  have inv := run_rootInv run
  obtain ⟨image, simulated, same⟩ := run_root_pool run
  have accounted : ∀ fiber, (scheduled trace).count fiber =
      s.fibers.count (some fiber) + ((popped trace).map Prod.snd).count fiber := by
    intro fiber
    have total := congrArg (Multiset.count fiber) (TaskPool.submitted_eq simulated)
    rw [same, Multiset.count_add, Multiset.coe_count, Multiset.coe_count] at total
    simp only [State.pool, Multiset.coe_count, count_pending] at total
    exact total
  refine ⟨accounted, fun left => ?_⟩
  have empty := inv.last (Or.inr left)
  have threads := inv.alone (by simp [left])
  have free : ∀ w, s.pool.slot w = .free := by
    intro w
    cases w with
    | none => simp [State.pool, left, WorkerPc.slot]
    | some i => simp [State.pool, threads i, WorkerPc.slot]
  have nothing : s.pool.pending = 0 := by simp [State.pool, empty]
  have all_begun := TaskPool.begun_perm_handed simulated free
  have all_served := TaskPool.begun_perm_submitted simulated nothing free
  rw [same] at all_begun all_served
  exact ⟨empty, threads, all_begun, all_served⟩

end Runs

/-- The scheduler that `Scheduler()` builds has no threads: the root runs everything, also what
a fiber schedules while it runs. -/
def rootAlone : List (Event 0 Nat) :=
  [.start, .startReturns, .schedule (some 7), .tickle none, .stop, .notifyAll, .swapThreads,
    .callRoot, .take none, .swapIn none, .fiberSchedule none (some 7), .fiberTickle none none,
    .giveBack none, .take none, .swapIn none, .giveBack none, .take none, .checkStopping none]

theorem root_drains_alone : ∃ (trace : List (State 0 Nat × Event 0 Nat)) (s : State 0 Nat),
    scheduled trace = [7, 7] ∧ s.worker none = .left ∧ s.fibers = [] ∧
    ((swappedIn trace).map Prod.snd).Perm [7, 7] := by
  have run := Run.of_replay (show replay (guarded (next true) Orderly) init rootAlone =
    some (_, _) from rfl)
  have drained := (root_drains run).2 rfl
  exact ⟨_, _, rfl, rfl, drained.1, drained.2.2.2⟩

end ZnetServer.Scheduler
