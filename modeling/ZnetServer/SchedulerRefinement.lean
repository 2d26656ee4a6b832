import Mathlib.Data.Fintype.Option
import ZnetServer.SchedulerCurrent

set_option autoImplicit false

/- Without `user_caller` and with disciplined bodies, the scheduler over saved contexts takes the
steps of the scheduler in which control goes back by itself. -/
namespace ZnetServer.Scheduler.Control

open ZnetServer.Fiber Transition

variable {n : Nat} {F : Type}

/-- Where a worker is in `run`, from what it executes. -/
def workerPc (here : Context (FiberId n F) (Point F)) : WorkerPc F :=
  match here.stack, here.point with
  | .task fiber, _ => .running fiber false
  | _, .popped fiber => .holding fiber
  | _, .null => .empty
  | _, .left => .left
  | _, _ => .ready

def ownerPc (s : Control n F) : OwnerPc :=
  match s.point none with
  | some (.owner pc) => pc
  | _ => .built

/-- No worker is blocked here: it may look at the queue at any time. -/
def toState [DecidableEq F] (s : Control n F) : State n F where
  fibers := s.fibers
  stopping := s.stopping
  worker := fun w => match w with
    | none => .absent
    | some i => ((s.machine.executing (some i)).map workerPc).getD .absent
  tickling := 0
  owner := s.ownerPc
  saved := fun fiber => decide (∀ w, s.pool.slot w ≠ .begun fiber)

/-- Calls of `schedule` from outside come before `stop`, and no pointer is null. -/
def Timely (s : Control n F) : Event n F → Prop
  | .outside fiber => fiber ≠ none ∧ s.ownerPc.stopCalled = false
  | .thread _ (.schedule fiber) => fiber ≠ none
  | _ => True

def Tidy (s : Control n F) (e : Event n F) : Prop := Disciplined s e ∧ Timely s e

variable [DecidableEq F]

section States

variable {s t : Control n F} {i : Fin n} {here there : Context (FiberId n F) (Point F)}

theorem toState_worker (executes : s.machine.executing (some i) = some here) :
    s.toState.worker (some i) = workerPc here := by
  simp [toState, executes]

theorem toState_waiting (w : WorkerId n) : s.toState.worker w ≠ .waiting := by
  cases w with
  | none => nofun
  | some i =>
    cases executes : s.machine.executing (some i) with
    | none => simp [toState, executes]
    | some here =>
      rw [toState_worker executes]
      unfold workerPc
      split <;> nofun

omit [DecidableEq F] in
theorem ownerPc_same (same : t.machine.executing none = s.machine.executing none) :
    t.ownerPc = s.ownerPc := by
  simp [ownerPc, point, same]

/-- The step of a worker moves it alone. -/
theorem toState_acted (executing : t.machine.executing =
      Function.update s.machine.executing (some i) (some there)) :
    t.toState = { s.toState with
      fibers := t.fibers, stopping := t.stopping, saved := t.toState.saved }.setWorker (some i)
        (workerPc there) := by
  have owner : t.ownerPc = s.ownerPc := by
    apply ownerPc_same
    rw [executing, Function.update_of_ne (by simp)]
  have worker : t.toState.worker =
      Function.update s.toState.worker (some i) (workerPc there) := by
    funext w
    cases w with
    | none => rfl
    | some j =>
      simp only [toState, executing, Function.update_apply]
      split <;> rfl
  unfold State.setWorker
  rw [← worker, ← show t.toState.owner = s.toState.owner from owner]
  rfl

/-- A thread that neither takes a fiber up nor lays one down. -/
theorem saved_same {w : WorkerId n} (executing : t.machine.executing =
      Function.update s.machine.executing w (some there))
    (same : ∀ fiber, slotOf there = .begun fiber ↔ s.pool.slot w = .begun fiber) :
    t.toState.saved = s.toState.saved := by
  funext fiber
  simp only [toState, pool_update executing, decide_eq_decide]
  constructor
  · intro idle v begun
    apply idle v
    rw [Function.update_apply]
    split
    · rename_i here
      rw [same, ← here, begun]
    · exact begun
  · intro idle v begun
    rw [Function.update_apply] at begun
    split at begun
    · exact idle w ((same fiber).mp begun)
    · exact idle v begun

/-- The owner moves, and no worker. -/
theorem toState_owner {pc : OwnerPc} (executing : t.machine.executing =
      Function.update s.machine.executing none (some there))
    (on : there.stack = .main none) (at_owner : there.point = .owner pc)
    (free : s.pool.slot none = .free) :
    t.toState = { s.toState with
      fibers := t.fibers, stopping := t.stopping, owner := pc } := by
  have owner : t.ownerPc = pc := by
    simp [ownerPc, point, executing, at_owner]
  have worker : t.toState.worker = s.toState.worker := by
    funext w
    cases w with
    | none => rfl
    | some j => simp [toState, executing]
  have saved : t.toState.saved = s.toState.saved := by
    apply saved_same executing
    intro fiber
    rw [free, slotOf_main on (by simp [at_owner])]
  change t.toState =
    (⟨t.fibers, t.stopping, s.toState.worker, 0, pc, s.toState.saved⟩ : State n F)
  rw [← worker, ← saved, ← owner]
  rfl

/-- A thread takes a fiber up. -/
theorem saved_taken {w : WorkerId n} {fiber : F} (executing : t.machine.executing =
      Function.update s.machine.executing w (some there)) (taken : slotOf there = .begun fiber)
    (before : ∀ other, s.pool.slot w ≠ .begun other) :
    t.toState.saved = Function.update s.toState.saved fiber false := by
  funext other
  rw [Function.update_apply]
  simp only [toState, pool_update executing]
  split
  · rename_i same
    rw [same, decide_eq_false_iff_not]
    intro idle
    apply idle w
    rw [Function.update_self, taken]
  · rename_i apart
    rw [decide_eq_decide]
    constructor
    · intro idle v begun
      by_cases mine : v = w
      · exact before other (mine ▸ begun)
      · exact idle v ((Function.update_of_ne mine ..).trans begun)
    · intro idle v begun
      rw [Function.update_apply] at begun
      split at begun
      · rw [taken] at begun
        cases begun
        exact apart rfl
      · exact idle v begun

/-- A thread lays its fiber down. -/
theorem saved_back {w : WorkerId n} {fiber : F} (executing : t.machine.executing =
      Function.update s.machine.executing w (some there)) (free : slotOf there = .free)
    (begun : s.pool.slot w = .begun fiber) (single : TaskPool.Single s.pool s.closed) :
    t.toState.saved = Function.update s.toState.saved fiber true := by
  have held : ∀ {v other}, s.pool.slot v = .begun other → (s.pool.slot v).Holds other := by
    intro v other has
    rw [has]
    rfl
  funext other
  rw [Function.update_apply]
  simp only [toState, pool_update executing]
  split
  · rename_i same
    rw [same, decide_eq_true_iff]
    intro v has
    rw [Function.update_apply] at has
    split at has
    · rw [free] at has
      cases has
    · rename_i apart
      exact apart (single.once fiber v w (held has) (held begun))
  · rename_i apart
    rw [decide_eq_decide]
    constructor
    · intro idle v has
      by_cases mine : v = w
      · rw [mine, begun] at has
        cases has
        exact apart rfl
      · exact idle v ((Function.update_of_ne mine ..).trans has)
    · intro idle v has
      rw [Function.update_apply] at has
      split at has
      · rw [free] at has
        cases has
      · exact idle v has

/-- Only the queue, `m_stopping` and the places of the threads are seen. -/
theorem toState_congr (fibers : t.fibers = s.fibers) (stopping : t.stopping = s.stopping)
    (executing : t.machine.executing = s.machine.executing) : t.toState = s.toState := by
  simp [toState, ownerPc, point, pool, fibers, stopping, executing]

omit [DecidableEq F] in
theorem slotOf_thread {w : WorkerId n} (on : here.stack = .main w) (fiber : F) :
    slotOf here ≠ .begun fiber := by
  obtain ⟨stack, point, number⟩ := here
  obtain rfl : stack = .main w := on
  cases point <;> nofun

end States

section Steps

variable {trace : List (Control n F × Event n F)} {s t : Control n F} {e : Event n F}
  {w : WorkerId n} {i : Fin n} {here there : Context (FiberId n F) (Point F)}

/-- What a step of the contexts amounts to in the scheduler. -/
abbrev Amounts (s t : Control n F) : Prop :=
  ∃ segment, Run (Scheduler.next false) Orderly s.toState segment t.toState

theorem Amounts.of_eq (same : t.toState = s.toState) : Amounts s t := by
  rw [Amounts, same]
  exact ⟨[], .nil⟩

theorem Amounts.one (event : Scheduler.Event n F) (orderly : Orderly s.toState event)
    (step : Scheduler.next false s.toState event = some t.toState) : Amounts s t :=
  ⟨_, Run.nil.snoc orderly step⟩

/-- A worker moves where the scheduler does not look. -/
theorem Amounts.still (executes : s.machine.executing (some i) = some here)
    (executing : t.machine.executing = Function.update s.machine.executing (some i) (some there))
    (fibers : t.fibers = s.fibers) (stopping : t.stopping = s.stopping)
    (same : workerPc there = workerPc here) (slot : slotOf there = slotOf here) : Amounts s t := by
  apply Amounts.of_eq
  have saved : t.toState.saved = s.toState.saved := by
    apply saved_same executing
    intro fiber
    rw [slot, pool_slot executes]
  rw [toState_acted executing, fibers, stopping, saved, same, ← toState_worker executes]
  unfold State.setWorker
  rw [Function.update_eq_self]
  rfl

/-- A worker takes one step of the scheduler. -/
theorem Amounts.acts (event : Scheduler.Event n F)
    (executing : t.machine.executing = Function.update s.machine.executing (some i) (some there))
    (orderly : Orderly s.toState event)
    (step : Scheduler.next false s.toState event = some ({ s.toState with
      fibers := t.fibers, stopping := t.stopping, saved := t.toState.saved }.setWorker (some i)
        (workerPc there))) : Amounts s t := by
  apply Amounts.one event orderly
  rw [step, ← toState_acted executing]

omit [DecidableEq F] in
theorem ownerPc_at {pc : OwnerPc} (executes : s.machine.executing none = some here)
    (at_owner : here.point = .owner pc) : s.ownerPc = pc := by
  simp [ownerPc, point, executes, at_owner]

theorem toState_notifyAll (s : Control n F) : s.toState.notifyAll.worker = s.toState.worker := by
  funext w
  exact notifyAll_other _ w (toState_waiting w)

/-- A joined thread has left `run`, since no thread ends elsewhere. -/
theorem exited_left (inv : Inv false trace s) (born : Born s.toState)
    (all : s.toState.owner.created n = n) (done : s.exited (some i) = true) :
    s.toState.worker (some i) = .left := by
  cases executes : s.machine.executing (some i) with
  | none =>
    have absent : s.toState.worker (some i) = .absent := by simp [toState, executes]
    have late := (born.thread i).mp absent
    rw [all] at late
    exact absurd i.isLt (Nat.not_lt_of_le late)
  | some here =>
    have left : here.point = .left := by
      simp only [exited, executes] at done
      split at done
      · assumption
      · cases done
    have placed := inv.placed (some i) here executes
    unfold Placed at placed
    rw [left] at placed
    rw [toState_worker executes]
    simp [workerPc, left, placed.2.1, home]

/-- The steps of the caller. -/
theorem owner_amounts {action : Act n F} {pc : OwnerPc} {fibers : List (Option F)}
    {stopping : Bool} {point : Point F} (inv : Inv false trace s) (born : Born s.toState)
    (executes : s.machine.executing none = some here) (at_owner : here.point = .owner pc)
    (walks : walk false s here action = some (fibers, stopping, point)) (queue : t.fibers = fibers)
    (flag : t.stopping = stopping) (machine : t.machine = s.machine.move none point) :
    Amounts s t := by
  obtain ⟨_, on, apart, _⟩ := inv.at_owner executes at_owner
  have owner := ownerPc_at executes at_owner
  have executing : t.machine.executing =
      Function.update s.machine.executing none (some { here with point := point }) := by
    rw [machine, move_executing _ _ _ executes]
  have free : s.pool.slot none = .free := by
    rw [pool_slot executes]
    exact slotOf_main on (by simp [at_owner])
  have moves : ∀ {after : OwnerPc}, point = .owner after →
      t.toState = { s.toState with fibers := fibers, stopping := stopping, owner := after } := by
    intro after at_after
    rw [toState_owner executing on at_after free, queue, flag]
  cases action <;> simp only [walk, at_owner] at walks
  case start =>
    cases pc <;> cases walks
    apply Amounts.one .start trivial
    rw [moves rfl]
    simp [Scheduler.next, toState, owner]
  case startReturns =>
    split at walks
    · rename_i created same
      cases same
      split at walks <;> cases walks
      rename_i all
      apply Amounts.one .startReturns trivial
      rw [moves rfl]
      simp [Scheduler.next, toState, owner, all]
    · cases walks
  case stop =>
    cases pc <;> cases walks
    apply Amounts.one .stop rfl
    rw [moves rfl]
    simp [Scheduler.next, toState, owner]
  case notifyAll =>
    cases pc <;> cases walks
    apply Amounts.one .notifyAll trivial
    rw [moves rfl]
    have same : ({ s.toState.notifyAll with owner := .notified } : State n F) =
        { s.toState with owner := .notified } :=
      congrArg (fun worker => ({ s.toState with worker := worker, owner := .notified } : State n F))
        (toState_notifyAll s)
    simp only [Scheduler.next, show s.toState.owner = .flagged from owner, same]
    rfl
  case swapThreads =>
    cases pc <;> cases walks
    apply Amounts.one .swapThreads trivial
    rw [moves rfl]
    simp [Scheduler.next, toState, owner]
  case join =>
    split at walks
    · rename_i joined same
      cases same
      split at walks
      · rename_i inside
        split at walks <;> cases walks
        rename_i done
        have left := exited_left inv born (by rw [show s.toState.owner = _ from owner]; rfl) done
        apply Amounts.one .join trivial
        rw [moves rfl]
        simp only [Scheduler.next, show s.toState.owner = .joining joined from owner, inside, left]
        rfl
      · cases walks
    · cases walks
  case stopReturns =>
    split at walks
    · rename_i joined same
      cases same
      split at walks <;> cases walks
      rename_i all
      apply Amounts.one .stopReturns trivial
      rw [moves rfl]
      simp [Scheduler.next, toState, owner, all.1]
    · rename_i same
      cases same
      exact absurd rfl apart
    · cases walks
  all_goals cases walks

omit [DecidableEq F] in
/-- `notify_one` finds nobody blocked. -/
theorem notifyOne_nobody (r : State n F) (nobody : ∀ w, r.worker w ≠ .waiting) :
    r.notifyOne none = some r := by
  have quiet : ∀ w, (r.worker w).isWaiting = false := by
    intro w
    rw [← Bool.not_eq_true, isWaiting_iff]
    exact nobody w
  simp [State.notifyOne, quiet]

/-- A push from outside, with its notification. -/
theorem outside_amounts (fiber : Option F) (orderly : Orderly s.toState (.schedule fiber)) :
    Amounts s { s with fibers := s.fibers ++ [fiber] } := by
  let after : State n F := { s.toState with fibers := s.fibers ++ [fiber] }
  by_cases queued : s.fibers = []
  · have pushed : Scheduler.next false s.toState (.schedule fiber) =
        some { after with tickling := 1 } := by
      simp [Scheduler.next, State.schedule, toState, queued, after]
    have notified : Scheduler.next false { after with tickling := 1 } (.tickle none) = some after :=
      notifyOne_nobody after toState_waiting
    have silent : Orderly { after with tickling := 1 } (.tickle none) := trivial
    exact ⟨_, (Run.nil.snoc orderly pushed).snoc silent notified⟩
  · have pushed : Scheduler.next false s.toState (.schedule fiber) = some after := by
      simp [Scheduler.next, State.schedule, toState, queued, after]
    exact ⟨_, Run.nil.snoc orderly pushed⟩

/-- A push by a fiber, with its notification. -/
theorem push_amounts {fiber : Option F} {own : F} (orderly : fiber ≠ none)
    (executes : s.machine.executing (some i) = some here) (on : here.stack = .task own)
    (queue : t.fibers = s.fibers ++ [fiber]) (flag : t.stopping = s.stopping)
    (machine : t.machine = s.machine.move (some i) .body) : Amounts s t := by
  have executing : t.machine.executing =
      Function.update s.machine.executing (some i) (some { here with point := .body }) := by
    rw [machine, move_executing _ _ _ executes]
  have saved : t.toState.saved = s.toState.saved := by
    apply saved_same executing
    intro other
    rw [pool_slot executes, slotOf_moved_task on]
  have pc : ∀ point, workerPc { here with point := point } = .running own false := by
    intro point
    simp [workerPc, on]
  have runs : s.toState.worker (some i) = .running own false :=
    (toState_worker executes).trans (pc here.point)
  have at_push : Orderly s.toState (.fiberSchedule (some i) fiber) := orderly
  let pushed : State n F := { s.toState with fibers := s.fibers ++ [fiber] }
  have after : t.toState = pushed.setWorker (some i) (.running own false) := by
    rw [toState_acted executing, queue, flag, saved, pc]
    rfl
  have first : Scheduler.next false s.toState (.fiberSchedule (some i) fiber) =
      some (pushed.setWorker (some i) (.running own s.fibers.isEmpty)) := by
    simp only [Scheduler.next, runs]
    rfl
  by_cases queued : s.fibers = []
  · have second : Scheduler.next false (pushed.setWorker (some i) (.running own s.fibers.isEmpty))
        (.fiberTickle (some i) none) = some t.toState := by
      have twice : (pushed.setWorker (some i) (.running own true)).setWorker (some i)
          (.running own false) = t.toState := by
        rw [after]
        simp [State.setWorker]
      simp only [Scheduler.next, queued, List.isEmpty_nil, setWorker_same, twice]
      exact notifyOne_nobody _ toState_waiting
    have at_tickle : Orderly (pushed.setWorker (some i) (.running own s.fibers.isEmpty))
        (.fiberTickle (some i) none) := trivial
    exact ⟨_, (Run.nil.snoc at_push first).snoc at_tickle second⟩
  · have same : pushed.setWorker (some i) (.running own s.fibers.isEmpty) = t.toState := by
      rw [after, List.isEmpty_eq_false_iff.mpr queued]
    exact ⟨_, Run.nil.snoc at_push (first.trans (congrArg some same))⟩

/-- A worker in `run` does what the scheduler does. -/
theorem run_amounts (event : Scheduler.Event n F) (pc : WorkerPc F) {place : Point F}
    (executes : s.machine.executing (some i) = some here) (on : here.stack = .main (some i))
    (executing : t.machine.executing =
      Function.update s.machine.executing (some i) (some { here with point := place }))
    (after : workerPc { here with point := place } = pc) (orderly : Orderly s.toState event)
    (step : Scheduler.next false s.toState event = some
      ({ s.toState with fibers := t.fibers, stopping := t.stopping }.setWorker (some i) pc)) :
    Amounts s t := by
  apply Amounts.acts event executing orderly
  have saved : t.toState.saved = s.toState.saved := by
    apply saved_same executing
    intro fiber
    rw [pool_slot executes]
    have still : ({ here with point := place } : Context (FiberId n F) (Point F)).stack =
      .main (some i) := on
    exact iff_of_false (slotOf_thread still fiber) (slotOf_thread on fiber)
  rw [step, saved, after]

theorem swapIn_amounts {fiber : F} (inv : Inv false trace s)
    (executes : s.machine.executing (some i) = some here) (on : here.stack = .main (some i))
    (serves : Serves false s (some i)) (held : here.point = .popped fiber) :
    Amounts s (s.perform (some i) here.stack .swapped (.swapIn (.task fiber))) := by
  have switched := perform_switched here.stack .swapped (serves.ends fiber)
  have executing := switched.loads (task_ne_home fiber (some i))
  have stack := (inv.suspended fiber).stack
  have slot : s.pool.slot (some i) = .given fiber := by
    rw [pool_slot executes]
    exact slotOf_popped (w := some i) on held
  have holds : s.toState.worker (some i) = .holding fiber := by
    rw [toState_worker executes]
    simp [workerPc, on, held]
  have runs : workerPc (s.machine.saved (.task fiber)) = .running fiber false := by
    simp [workerPc, stack]
  have unbegun : ∀ other, s.pool.slot (some i) ≠ .begun other := by
    intro other
    rw [slot]
    nofun
  have saved := saved_taken executing (slotOf_task stack) unbegun
  apply Amounts.acts (.swapIn (some i)) executing trivial
  simp only [Scheduler.next, holds, saved, runs, switched.fibers]
  rfl

theorem swapOut_amounts {fiber : F} (after : Point F) (inv : Inv false trace s)
    (executes : s.machine.executing (some i) = some here) (on : here.stack = .task fiber)
    (carries : Carries false trace s (some i) fiber) :
    Amounts s (s.perform (some i) here.stack after (.swapOut (.task fiber))) := by
  have switched := perform_switched here.stack after carries.ends
  have executing := switched.loads (task_ne_home fiber (some i)).symm
  rw [carries.waits] at executing
  have runs : s.toState.worker (some i) = .running fiber false := by
    rw [toState_worker executes]
    simp [workerPc, on]
  have begun := pool_begun executes on
  have saved := saved_back executing (slotOf_home (w := some i) rfl nofun) begun inv.single
  apply Amounts.acts (.giveBack (some i)) executing trivial
  simp only [Scheduler.next, runs, saved, switched.fibers]
  rfl

theorem spawn_amounts {created : Nat} (inv : Inv false trace s)
    (executes : s.machine.executing none = some here)
    (at_owner : here.point = .owner (.starting created)) (inside : created < n) :
    Amounts s { s with
      machine := (s.machine.move none (.owner (.starting (created + 1)))).setExecuting
        (some ⟨created, inside⟩) (some ⟨.main (some ⟨created, inside⟩), .begins, none⟩) } := by
  obtain ⟨_, on, _, _⟩ := inv.at_owner executes at_owner
  let thread : WorkerId n := some ⟨created, inside⟩
  let middle := s.move none (.owner (.starting (created + 1)))
  let first : Context (FiberId n F) (Point F) := ⟨.main thread, .begins, none⟩
  have moves : middle.machine.executing = _ := move_executing s.machine none _ executes
  have free : s.pool.slot none = .free := by
    rw [pool_slot executes]
    exact slotOf_main on (by simp [at_owner])
  have moved := toState_owner moves on rfl free
  have nobody : middle.pool.slot thread = .free := by
    have absent := inv.created here _ executes at_owner ⟨created, inside⟩ (Nat.le_refl created)
    rw [pool_update moves]
    simp [pool, thread, absent]
  let t : Control n F := { s with machine := middle.machine.setExecuting thread (some first) }
  have born : t.machine.executing =
    Function.update middle.machine.executing thread (some first) := rfl
  have saved : t.toState.saved = middle.toState.saved := by
    apply saved_same born
    intro fiber
    rw [nobody]
    have at_main : first.stack = .main thread := rfl
    exact iff_of_false (slotOf_thread at_main fiber) (by simp)
  have owner : s.toState.owner = .starting created := ownerPc_at executes at_owner
  have step : Scheduler.next false s.toState .spawn = some
      ({ s.toState with owner := .starting (created + 1) }.setWorker thread .ready) := by
    simp only [Scheduler.next, owner, inside, ↓reduceDIte]
    rfl
  have after : t.toState =
      { s.toState with owner := .starting (created + 1) }.setWorker thread .ready := by
    rw [toState_acted born, saved, moved]
    rfl
  have same : Amounts s t := by
    apply Amounts.one .spawn trivial
    rw [step, after]
  exact same

theorem walk_of_next {action : Act n F} (executes : s.machine.executing w = some here)
    (calls : action ∈ [.start, .startReturns, .stop, .notifyAll, .swapThreads, .join, .stopReturns])
    (step : Control.next false s (.thread w action) = some t) :
    ∃ fibers stopping point, walk false s here action = some (fibers, stopping, point) ∧
      t.fibers = fibers ∧ t.stopping = stopping ∧ t.machine = s.machine.move w point := by
  have walked : (walk false s here action).map (fun after =>
      { s with fibers := after.1, stopping := after.2.1 }.move w after.2.2) = some t := by
    rw [← step]
    simp only [List.mem_cons, List.not_mem_nil, or_false] at calls
    rcases calls with rfl | rfl | rfl | rfl | rfl | rfl | rfl <;>
      simp only [Control.next, executes, act]
  obtain ⟨⟨fibers, stopping, point⟩, walks, rfl⟩ := Option.map_eq_some_iff.mp walked
  exact ⟨fibers, stopping, point, walks, rfl, rfl, rfl⟩

/-- Every step of the contexts is a segment of steps of the scheduler. -/
theorem amounts_step (inv : Inv false trace s) (nonnull : none ∉ s.fibers) (born : Born s.toState)
    (tidy : Tidy s e) (step : Control.next false s e = some t) : Amounts s t := by
  obtain ⟨disciplined, timely⟩ := tidy
  cases plain_step inv disciplined (step_of_next step)
  case outside fiber resting => exact outside_amounts fiber timely
  case owner executes on at_owner calls =>
    obtain ⟨_, _, _, walks, queue, flag, machine⟩ := walk_of_next executes calls step
    exact owner_amounts inv born executes at_owner walks queue flag machine
  case spawn executes at_owner inside => exact spawn_amounts inv executes at_owner inside
  case begin i here executes on begins fresh =>
    rw [getThis_fresh fresh]
    refine Amounts.still executes (move_executing _ _ _ executes) rfl rfl ?_ ?_
    · simp [workerPc, on, begins]
    · exact slotOf_moved_main on (by simp [begins]) nofun
  case pop i here rest fiber executes on at_lock back =>
    have ready : s.toState.worker (some i) = .ready := by
      rw [toState_worker executes]
      simp [workerPc, on, at_lock]
    have at_take : Orderly s.toState (.take (some i)) := trivial
    apply run_amounts (.take (some i)) (.holding fiber) executes on (move_executing _ _ _ executes)
      _ at_take
    · simp only [Scheduler.next, ready, take_back s.toState back]
      rfl
    · simp [workerPc, on]
  case popNull back => exact absurd (by simp [back]) nonnull
  case nothing i here executes on at_lock empty stops =>
    have ready : s.toState.worker (some i) = .ready := by
      rw [toState_worker executes]
      simp [workerPc, on, at_lock]
    have at_take : Orderly s.toState (.take (some i)) := trivial
    apply run_amounts (.take (some i)) .empty executes on (move_executing _ _ _ executes) _ at_take
    · simp only [Scheduler.next, ready, take_nothing s.toState empty stops]
      rfl
    · simp [workerPc, on]
  case loop i here executes on behind =>
    refine Amounts.still executes (move_executing _ _ _ executes) rfl rfl ?_ ?_
    · simp [workerPc, on, behind]
    · exact slotOf_moved_main on (by simp [behind]) nofun
  case push executes on inside resting => exact push_amounts timely executes on rfl rfl rfl
  case swapIn executes on serves held => exact swapIn_amounts inv executes on serves held
  case leave i here executes on null stops =>
    have empty : s.toState.worker (some i) = .empty := by
      rw [toState_worker executes]
      simp [workerPc, on, null]
    have at_check : Orderly s.toState (.checkStopping (some i)) := trivial
    apply run_amounts (.checkStopping (some i)) .left executes on (move_executing _ _ _ executes)
      _ at_check
    · simp only [Scheduler.next, empty, show s.toState.stopping = true from stops]
      rfl
    · simp [workerPc, on]
  case again i here executes on null going =>
    have empty : s.toState.worker (some i) = .empty := by
      rw [toState_worker executes]
      simp [workerPc, on, null]
    have at_check : Orderly s.toState (.checkStopping (some i)) := trivial
    apply run_amounts (.checkStopping (some i)) .ready executes on (move_executing _ _ _ executes)
      _ at_check
    · simp only [Scheduler.next, empty, show s.toState.stopping = false from going]
      rfl
    · simp [workerPc, on]
  case enter i here fiber executes on entry =>
    refine Amounts.still executes (move_executing _ _ _ executes) rfl rfl ?_ ?_
    · simp [workerPc, on]
    · exact slotOf_moved_task on
  case getThis w here executes =>
    apply Amounts.of_eq
    cases current : s.machine.current w with
    | some fiber => rw [getThis_known current]
    | none =>
      rw [getThis_fresh current]
      exact toState_congr rfl rfl rfl
  case yield executes on inside carries => exact swapOut_amounts .body inv executes on carries
  case finish i here fiber threw executes on inside =>
    refine Amounts.still executes (move_executing _ _ _ executes) rfl rfl ?_ ?_
    · simp [workerPc, on]
    · exact slotOf_moved_task on
  case endMain executes on ran carries => exact swapOut_amounts .behind inv executes on carries

end Steps

section Runs

variable {trace : List (Control n F × Event n F)} {s : Control n F}

theorem toState_init : (init false : Control n F).toState = Scheduler.init := by
  unfold toState Scheduler.init
  congr
  · funext w
    cases w <;> rfl
  · funext fiber
    rw [decide_eq_true_iff]
    intro w
    cases w <;> simp [pool, init, slotOf]

/-- The runs over saved contexts are runs of the scheduler. -/
theorem control_refines (positive : 0 < n) (run : Run (next false) Tidy (init false) trace s) :
    ∃ image, Run (Scheduler.next false) Orderly Scheduler.init image s.toState := by
  rw [← toState_init]
  apply run.refine toState (init_inv false)
  · intro trace s e t inv tidy step
    exact inv_step inv tidy.1 (step_of_next step)
  · rintro trace s e t inv tidy step ⟨image, reached⟩
    rw [toState_init] at reached
    have drain := run_drainInv positive reached
    exact amounts_step inv drain.nonnull drain.born tidy step

theorem run_drains (positive : 0 < n) (run : Run (next false) Tidy (init false) trace s) :
    DrainInv s.toState := by
  obtain ⟨_, reached⟩ := control_refines positive run
  exact run_drainInv positive reached

end Runs

end ZnetServer.Scheduler.Control
