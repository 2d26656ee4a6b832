import ZnetServer.Scheduler

set_option autoImplicit false

/- Two workers and one fiber: nothing in `schedule`, `run` or `swapIn` looks at what
the fiber is doing. -/
namespace ZnetServer.Scheduler

open Transition

variable {n : Nat} {F : Type}

/-- The local variable `fiber` of `run`. -/
def WorkerPc.fiber : WorkerPc F → Option F
  | .holding fiber | .running fiber _ => some fiber
  | .absent | .ready | .waiting | .woken | .empty | .left => none

def State.Executes (s : State n F) (w : WorkerId n) (fiber : F) : Prop :=
  ∃ tickling, s.worker w = .running fiber tickling

/-- No fiber executes on two workers. -/
def Exclusive (s : State n F) : Prop :=
  ∀ fiber v w, s.Executes v fiber → s.Executes w fiber → v = w

/-- Each `swapIn` of the trace resumes a context that holds the last suspension. -/
def ResumesSaved (trace : List (State n F × Event n F)) : Prop :=
  ∀ s w, (s, Event.swapIn w) ∈ trace → ∀ fiber, s.worker w = .holding fiber →
    s.saved fiber = true

/-- A worker pops only fibers that no worker has in its local variable. -/
def PopsIdle (s : State n F) : Event n F → Prop
  | .take _ => ∀ fiber ∈ s.take.2.fiber, ∀ v, (s.worker v).fiber ≠ some fiber
  | _ => True

structure ExclusiveInv (s : State n F) : Prop where
  unique : ∀ fiber v w, (s.worker v).fiber = some fiber → (s.worker w).fiber = some fiber →
    v = w
  saved : ∀ fiber, s.saved fiber = false → ∃ w, s.Executes w fiber

theorem init_exclusiveInv : ExclusiveInv (init : State n F) where
  unique := fun fiber v w held _ => by cases held
  saved := fun fiber unsaved => by cases unsaved

theorem State.Executes.fiber {s : State n F} {w : WorkerId n} {fiber : F}
    (runs : s.Executes w fiber) : (s.worker w).fiber = some fiber := by
  obtain ⟨tickling, place⟩ := runs
  rw [place]
  rfl

/-- A worker elsewhere in `run` has nothing to keep executing. -/
theorem not_executing {s : State n F} {w : WorkerId n} {pc : WorkerPc F}
    (place : ∀ fiber tickling, s.worker w ≠ .running fiber tickling) (fiber : F)
    (runs : s.Executes w fiber) : ∃ tickling, pc = .running fiber tickling := by
  obtain ⟨tickling, here⟩ := runs
  exact absurd here (place fiber tickling)

theorem executes_of_running {s : State n F} {w : WorkerId n} {fiber : F} {old new : Bool}
    (place : s.worker w = .running fiber old) (own : F) (runs : s.Executes w own) :
    ∃ tickling, WorkerPc.running fiber new = .running own tickling := by
  obtain ⟨tickling, here⟩ := runs
  rw [place] at here
  injection here with same
  exact ⟨new, by rw [same]⟩

theorem ExclusiveInv.exclusive {s : State n F} (inv : ExclusiveInv s) : Exclusive s :=
  fun fiber v w first second => inv.unique fiber v w first.fiber second.fiber

/-- Under the invariant a fiber about to be resumed is suspended. -/
theorem ExclusiveInv.resumes {s : State n F} (inv : ExclusiveInv s) {w : WorkerId n} {fiber : F}
    (held : s.worker w = .holding fiber) : s.saved fiber = true := by
  cases flag : s.saved fiber with
  | true => rfl
  | false =>
      obtain ⟨v, runs⟩ := inv.saved fiber flag
      have same := inv.unique fiber v w runs.fiber (by rw [held]; rfl)
      obtain ⟨tickling, place⟩ := runs
      rw [same, held] at place
      cases place

theorem State.Executes.elsewhere {s t : State n F} {v w : WorkerId n} {fiber : F}
    {pc : WorkerPc F} (runs : s.Executes v fiber) (worker : t.worker = s.worker)
    (apart : v ≠ w) : (t.setWorker w pc).Executes v fiber := by
  obtain ⟨tickling, place⟩ := runs
  exact ⟨tickling, by rw [setWorker_other _ _ _ apart, worker, place]⟩

/-- Moving one worker without touching its local variable or whether it executes. -/
theorem ExclusiveInv.move {s t : State n F} {w : WorkerId n} {pc : WorkerPc F}
    (inv : ExclusiveInv s) (worker : t.worker = s.worker) (saved : t.saved = s.saved)
    (same : pc.fiber = (s.worker w).fiber)
    (runs : ∀ fiber, s.Executes w fiber → ∃ tickling, pc = .running fiber tickling) :
    ExclusiveInv (t.setWorker w pc) := by
  have fiber_same : ∀ v, ((t.setWorker w pc).worker v).fiber = (s.worker v).fiber := by
    intro v
    rw [setWorker_worker, worker]
    split
    · rename_i here
      rw [here, same]
    · rfl
  refine ⟨fun fiber u v => ?_, fun fiber unsaved => ?_⟩
  · rw [fiber_same u, fiber_same v]
    exact inv.unique fiber u v
  · rw [setWorker_saved, saved] at unsaved
    obtain ⟨v, running⟩ := inv.saved fiber unsaved
    refine ⟨v, ?_⟩
    unfold State.Executes
    rw [setWorker_worker]
    split
    · rename_i here
      exact runs fiber (by rw [← here]; exact running)
    · rw [worker]
      exact running

/-- What the invariant asks of a step that gives the local variable a fiber. -/
theorem ExclusiveInv.pop {s : State n F} {w : WorkerId n} {rest : List (Option F)} {fiber : F}
    (inv : ExclusiveInv s) (free : s.worker w = .ready ∨ s.worker w = .woken)
    (idle : ∀ v, (s.worker v).fiber ≠ some fiber) :
    ExclusiveInv ({ s with fibers := rest }.setWorker w (.holding fiber)) := by
  refine ⟨fun own u v => ?_, fun own unsaved => ?_⟩
  · simp only [setWorker_worker]
    intro first second
    split at first <;> split at second
    · simp_all
    · have mine : fiber = own := by simpa [WorkerPc.fiber] using first
      exact absurd (mine ▸ second) (idle v)
    · have mine : fiber = own := by simpa [WorkerPc.fiber] using second
      exact absurd (mine ▸ first) (idle u)
    · exact inv.unique own u v first second
  · obtain ⟨v, runs⟩ := inv.saved own unsaved
    refine ⟨v, runs.elsewhere rfl ?_⟩
    rintro rfl
    obtain ⟨tickling, place⟩ := runs
    simp [place] at free

/-- The fiber handed over by `swapIn` is the only one whose suspension is lost. -/
theorem ExclusiveInv.begin [DecidableEq F] {s : State n F} {w : WorkerId n} {fiber : F}
    (inv : ExclusiveInv s) (held : s.worker w = .holding fiber) :
    ExclusiveInv ({ s with saved := Function.update s.saved fiber false }.setWorker w
      (.running fiber false)) := by
  refine ⟨fun own u v => ?_, fun own unsaved => ?_⟩
  · have fiber_same : ∀ v, (({ s with saved := Function.update s.saved fiber false }.setWorker w
        (.running fiber false)).worker v).fiber = (s.worker v).fiber := by
      intro v
      rw [setWorker_worker]
      split
      · rename_i here
        rw [here, held]
        rfl
      · rfl
    rw [fiber_same u, fiber_same v]
    exact inv.unique own u v
  · by_cases mine : own = fiber
    · subst mine
      exact ⟨w, false, setWorker_same ..⟩
    · have before : s.saved own = false := by
        simpa [Function.update_of_ne mine] using unsaved
      obtain ⟨v, runs⟩ := inv.saved own before
      refine ⟨v, runs.elsewhere rfl ?_⟩
      rintro rfl
      obtain ⟨tickling, place⟩ := runs
      rw [held] at place
      cases place

/-- `Fiber::Yield`, a return or a throw saves the context and clears the local variable. -/
theorem ExclusiveInv.giveBack [DecidableEq F] {s : State n F} {w : WorkerId n} {fiber : F}
    (inv : ExclusiveInv s) (runs : s.worker w = .running fiber false) :
    ExclusiveInv ({ s with saved := Function.update s.saved fiber true }.setWorker w .ready) := by
  refine ⟨fun own u v => ?_, fun own unsaved => ?_⟩
  · simp only [setWorker_worker]
    intro first second
    split at first
    · cases first
    · split at second
      · cases second
      · exact inv.unique own u v first second
  · have other : own ≠ fiber := by
      rintro rfl
      simp at unsaved
    have before : s.saved own = false := by
      simpa [Function.update_of_ne other] using unsaved
    obtain ⟨v, executes⟩ := inv.saved own before
    refine ⟨v, executes.elsewhere rfl ?_⟩
    rintro rfl
    obtain ⟨tickling, place⟩ := executes
    rw [runs] at place
    injection place with same
    exact other same.symm

variable [DecidableEq F]

theorem exclusiveInv_step {userCaller : Bool} {s t : State n F} {e : Event n F} (born : Born s)
    (inv : ExclusiveInv s) (idle : PopsIdle s e) (step : Step userCaller s e t) :
    ExclusiveInv t := by
  cases step
  case start | startReturns | schedule | tickleNone | stop | swapThreads | join |
      joinsReturn | callReturns => exact ⟨inv.unique, inv.saved⟩
  case spawn created at_owner inside =>
    have absent := born.spawned at_owner inside
    exact inv.move rfl rfl (by rw [absent]; rfl) (not_executing (by rw [absent]; simp))
  case callRoot at_owner _ _ =>
    have absent := born.root (by simp [at_owner]) (by simp [at_owner])
    exact inv.move rfl rfl (by rw [absent]; rfl) (not_executing (by rw [absent]; simp))
  case notifyAll at_owner =>
    have fiber_same : ∀ v, (s.notifyAll.worker v).fiber = (s.worker v).fiber := by
      intro v
      by_cases blocked : s.worker v = .waiting
      · rw [notifyAll_waiting s v blocked, blocked]
        rfl
      · rw [notifyAll_other s v blocked]
    refine ⟨fun fiber u v => ?_, fun fiber unsaved => ?_⟩
    · change (s.notifyAll.worker u).fiber = _ → (s.notifyAll.worker v).fiber = _ → _
      rw [fiber_same u, fiber_same v]
      exact inv.unique fiber u v
    · obtain ⟨v, tickling, place⟩ := inv.saved fiber unsaved
      exact ⟨v, tickling, (notifyAll_other s v (by simp [place])).trans place⟩
  case takeFiber w rest fiber free back =>
    refine inv.pop free (idle fiber ?_)
    rw [take_back s back]
    rfl
  case takeBlocked w free _ _ | takeNull w rest free _ | takeNothing w free _ _ =>
    refine inv.move rfl rfl ?_ (not_executing (fun _ _ place => ?_))
    · rcases free with free | free <;> rw [free] <;> rfl
    · simp [place] at free
  case swapIn held => exact inv.begin held
  case giveBack runs => exact inv.giveBack runs
  case fiberSchedule w fiber scheduled runs =>
    exact inv.move rfl rfl (by rw [runs]; rfl) (executes_of_running runs)
  case fiberTickleNone w fiber runs _ =>
    exact inv.move rfl rfl (by rw [runs]; rfl) (executes_of_running runs)
  case fiberTickleOne w other fiber runs blocked =>
    have apart : other ≠ w := by
      rintro rfl
      simp [runs] at blocked
    have moved : ExclusiveInv (s.setWorker w (.running fiber false)) :=
      inv.move rfl rfl (by rw [runs]; rfl) (executes_of_running runs)
    have still : (s.setWorker w (.running fiber false)).worker other = .waiting := by
      rw [setWorker_other _ _ _ apart, blocked]
    exact moved.move rfl rfl (by rw [still]; rfl) (not_executing (by rw [still]; simp))
  case tickleOne at_pc | spurious at_pc | leave at_pc _ | again at_pc _ =>
    exact inv.move rfl rfl (by rw [at_pc]; rfl) (not_executing (by rw [at_pc]; simp))

section Runs

variable {trace : List (State n F × Event n F)} {s : State n F}

/-- As long as each pop takes a fiber that no worker has in its local variable, no fiber
executes on two workers and each `swapIn` resumes a saved context. -/
theorem fiber_exclusive {userCaller : Bool} (run : Run (next userCaller) PopsIdle init trace s) :
    Exclusive s ∧ ResumesSaved trace := by
  have kept : (Born s ∧ ExclusiveInv s) ∧ ResumesSaved trace := by
    refine run.invariant_trace
      (I := fun trace s => (Born s ∧ ExclusiveInv s) ∧ ResumesSaved trace)
      ⟨⟨init_born, init_exclusiveInv⟩, fun _ _ member => by cases member⟩ ?_
    intro trace s e t before idle step
    obtain ⟨⟨born, inv⟩, resumes⟩ := before
    have taken := step_of_next step
    refine ⟨⟨born_step born taken, exclusiveInv_step born inv idle taken⟩, ?_⟩
    intro earlier w member fiber held
    rcases List.mem_append.mp member with old | last
    · exact resumes earlier w old fiber held
    · obtain ⟨rfl, rfl⟩ := Prod.mk.inj (List.mem_singleton.mp last)
      exact inv.resumes held
  exact ⟨kept.1.2.exclusive, kept.2⟩

end Runs

instance (s : State n F) (e : Event n F) : Decidable (PopsIdle s e) :=
  match e with
  | .take _ => inferInstanceAs (Decidable (∀ fiber ∈ s.take.2.fiber, ∀ v,
      (s.worker v).fiber ≠ some fiber))
  | .start | .spawn | .startReturns | .schedule _ | .tickle _ | .spurious _ | .swapIn _
  | .fiberSchedule _ _ | .fiberTickle _ _ | .giveBack _ | .checkStopping _ | .stop
  | .notifyAll | .swapThreads | .join | .callRoot | .stopReturns =>
    inferInstanceAs (Decidable True)

/-- Fiber 7 schedules itself on one of two workers. -/
def selfSchedule : List (Event 2 Nat) :=
  [.start, .spawn, .spawn, .startReturns, .schedule (some 7), .tickle none, .take worker0,
    .swapIn worker0, .fiberSchedule worker0 (some 7), .fiberTickle worker0 none]

/-- It yields, and the other worker resumes it. -/
theorem fiber_exclusive_resumed :
    ∃ (trace : List (State 2 Nat × Event 2 Nat)) (s : State 2 Nat),
      s.Executes (some 1) 7 ∧ Exclusive s ∧ ResumesSaved trace := by
  have run := Run.of_replay (show replay (guarded (next false) PopsIdle) init
    (selfSchedule ++ [.giveBack worker0, .take worker1, .swapIn worker1]) = some (_, _)
    from rfl)
  have safe := fiber_exclusive run
  exact ⟨_, _, ⟨false, rfl⟩, safe.1, safe.2⟩

/-- The other worker pops it before it yields. -/
theorem self_schedule_shares_fiber :
    ∃ (trace : List (State 2 Nat × Event 2 Nat)) (s : State 2 Nat),
      Run (next false) anyStep init trace s ∧ s.Executes (some 0) 7 ∧ s.Executes (some 1) 7 ∧
      ¬ Exclusive s ∧ ¬ ResumesSaved trace := by
  have popped_early := Run.of_replay (show replay (guarded (next false) anyStep) init
    (selfSchedule ++ [.take worker1]) = some (_, _) from rfl)
  have run := popped_early.snoc trivial
    (show next false _ (.swapIn (some 1)) = some _ from rfl)
  refine ⟨_, _, run, ⟨false, rfl⟩, ⟨false, rfl⟩, fun exclusive => ?_, fun resumes => ?_⟩
  · have same := exclusive 7 (some 0) (some 1) ⟨false, rfl⟩ ⟨false, rfl⟩
    cases same
  · have saved := resumes _ (some 1) (List.mem_append_right _ (List.mem_singleton_self _)) 7 rfl
    cases saved

end ZnetServer.Scheduler
