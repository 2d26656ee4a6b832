import Mathlib.Data.Fintype.Option
import Mathlib.Logic.Function.Basic
import ZnetServer.Transition

set_option autoImplicit false

/- `server/scheduler.cpp`: the shared list of fibers, the workers in `run`, the calls
of `schedule` and the thread that calls `start` and `stop`. A block that the source
executes under `m_mutex` is one step; a call between its unlock and its notify is a
state of its own. -/
namespace ZnetServer.Scheduler

/-- `some i` is the thread `m_threads[i]`, `none` the root fiber, which a scheduler
built with `user_caller` runs on the caller's own thread. -/
abbrev WorkerId (n : Nat) := Option (Fin n)

/-- The thread of a scheduler with one. -/
def soleWorker : WorkerId 1 := some ⟨0, Nat.one_pos⟩

/-- The threads of a scheduler with two of them. -/
def worker0 : WorkerId 2 := some 0
def worker1 : WorkerId 2 := some 1

/-- Where a worker is in `run`, with its local `fiber`. -/
inductive WorkerPc (F : Type) where
  /-- Not created yet. -/
  | absent
  /-- In front of the lock. -/
  | ready
  /-- Blocked in `m_condition.wait`, no wakeup delivered. -/
  | waiting
  /-- Woken in `m_condition.wait`, not yet holding the lock again. -/
  | woken
  /-- A fiber was popped; `swapIn` is next. -/
  | holding (fiber : F)
  /-- Executing the fiber; `tickling` inside a `schedule` call that still has to notify. -/
  | running (fiber : F) (tickling : Bool)
  /-- The local `fiber` is null; the test of `m_stopping` outside the lock is next. -/
  | empty
  | left
  deriving DecidableEq

/-- The thread that owns the scheduler, through `start` and then `stop`. -/
inductive OwnerPc where
  | built
  | starting (created : Nat)
  | started
  /-- In `stop`, `m_stopping` is set and `notify_all` is next. -/
  | flagged
  | notified
  | joining (joined : Nat)
  /-- In `m_rootFiber->call()`. -/
  | calling
  | returned
  deriving DecidableEq

structure State (n : Nat) (F : Type) where
  /-- `m_fibers`, front first; a `Fiber::ptr` may be null. -/
  fibers : List (Option F)
  /-- `m_stopping` -/
  stopping : Bool
  worker : WorkerId n → WorkerPc F
  /-- Calls of `schedule` from outside the workers that still have to notify. -/
  tickling : Nat
  owner : OwnerPc
  /-- `m_ctx` of the fiber holds its last suspension. -/
  saved : F → Bool

inductive Event (n : Nat) (F : Type) where
  | start
  | spawn
  | startReturns
  | schedule (fiber : Option F)
  | tickle (target : Option (WorkerId n))
  | take (w : WorkerId n)
  | spurious (w : WorkerId n)
  | swapIn (w : WorkerId n)
  | fiberSchedule (w : WorkerId n) (fiber : Option F)
  | fiberTickle (w : WorkerId n) (target : Option (WorkerId n))
  | giveBack (w : WorkerId n)
  | checkStopping (w : WorkerId n)
  | stop
  | notifyAll
  | swapThreads
  | join
  | callRoot
  | stopReturns
  deriving DecidableEq

variable {n : Nat} {F : Type}

/-- The constructor: the list is empty and `m_stopping` starts as true. -/
def init : State n F where
  fibers := []
  stopping := true
  worker := fun _ => .absent
  tickling := 0
  owner := .built
  saved := fun _ => true

def State.setWorker (s : State n F) (w : WorkerId n) (pc : WorkerPc F) : State n F :=
  { s with worker := Function.update s.worker w pc }

/-- The block of `schedule` under the lock, with `need_tickle`. -/
def State.schedule (s : State n F) (fiber : Option F) : State n F × Bool :=
  ({ s with fibers := s.fibers ++ [fiber] }, s.fibers.isEmpty)

/-- The block of `run` under the lock: one evaluation of the wait predicate, then the
pop at the back. -/
def State.take (s : State n F) : State n F × WorkerPc F :=
  if s.fibers.isEmpty && !s.stopping then (s, .waiting)
  else match s.fibers.getLast? with
    | some (some fiber) => ({ s with fibers := s.fibers.dropLast }, .holding fiber)
    | some none => ({ s with fibers := s.fibers.dropLast }, .empty)
    | none => (s, .empty)

def WorkerPc.isWaiting : WorkerPc F → Bool
  | .waiting => true
  | _ => false

/-- `notify_one` wakes one blocked worker, and does nothing only if there is none. -/
def State.notifyOne (s : State n F) : Option (WorkerId n) → Option (State n F)
  | some w => if (s.worker w).isWaiting then some (s.setWorker w .woken) else none
  | none => if ∀ w, (s.worker w).isWaiting = false then some s else none

def State.notifyAll (s : State n F) : State n F :=
  { s with worker := fun w => if (s.worker w).isWaiting then .woken else s.worker w }

section Fields

variable (s : State n F) (w : WorkerId n) (pc : WorkerPc F)

@[simp] theorem setWorker_fibers : (s.setWorker w pc).fibers = s.fibers := rfl
@[simp] theorem setWorker_stopping : (s.setWorker w pc).stopping = s.stopping := rfl
@[simp] theorem setWorker_owner : (s.setWorker w pc).owner = s.owner := rfl
@[simp] theorem setWorker_saved : (s.setWorker w pc).saved = s.saved := rfl

@[simp] theorem setWorker_same : (s.setWorker w pc).worker w = pc :=
  Function.update_self ..

theorem setWorker_other {other : WorkerId n} (apart : other ≠ w) :
    (s.setWorker w pc).worker other = s.worker other :=
  Function.update_of_ne apart ..

theorem setWorker_worker (other : WorkerId n) :
    (s.setWorker w pc).worker other = if other = w then pc else s.worker other :=
  Function.update_apply ..

@[simp] theorem notifyAll_fibers : s.notifyAll.fibers = s.fibers := rfl
@[simp] theorem notifyAll_stopping : s.notifyAll.stopping = s.stopping := rfl
@[simp] theorem notifyAll_tickling : s.notifyAll.tickling = s.tickling := rfl
@[simp] theorem notifyAll_saved : s.notifyAll.saved = s.saved := rfl

theorem isWaiting_iff : pc.isWaiting = true ↔ pc = .waiting := by
  cases pc <;> simp [WorkerPc.isWaiting]

theorem notifyAll_waiting (blocked : s.worker w = .waiting) : s.notifyAll.worker w = .woken := by
  simp [State.notifyAll, isWaiting_iff, blocked]

theorem notifyAll_other (awake : s.worker w ≠ .waiting) :
    s.notifyAll.worker w = s.worker w := by
  simp [State.notifyAll, isWaiting_iff, awake]

theorem notifyAll_nobody : s.notifyAll.worker w ≠ .waiting := by
  by_cases blocked : s.worker w = .waiting
  · simp [notifyAll_waiting s w blocked]
  · rwa [notifyAll_other s w blocked]

theorem notifyOne_some {s t : State n F} {w : WorkerId n}
    (woken : s.notifyOne (some w) = some t) : s.worker w = .waiting ∧ t = s.setWorker w .woken := by
  simp only [State.notifyOne] at woken
  split at woken
  · rename_i blocked
    exact ⟨(isWaiting_iff _).mp blocked, (Option.some.inj woken).symm⟩
  · cases woken

theorem notifyOne_none {s t : State n F} (woken : s.notifyOne none = some t) :
    (∀ w, s.worker w ≠ .waiting) ∧ t = s := by
  simp only [State.notifyOne] at woken
  split at woken
  · rename_i nobody
    refine ⟨fun w blocked => ?_, (Option.some.inj woken).symm⟩
    have quiet := nobody w
    rw [blocked] at quiet
    cases quiet
  · cases woken

end Fields

section Take

variable (s : State n F)

theorem take_blocked (nothing : s.fibers = []) (going : s.stopping = false) :
    s.take = (s, .waiting) := by
  simp [State.take, nothing, going]

theorem take_nothing (nothing : s.fibers = []) (stops : s.stopping = true) :
    s.take = (s, .empty) := by
  simp [State.take, nothing, stops]

theorem take_back {rest : List (Option F)} {fiber : F} (back : s.fibers = rest ++ [some fiber]) :
    s.take = ({ s with fibers := rest }, .holding fiber) := by
  simp [State.take, back]

theorem take_null {rest : List (Option F)} (back : s.fibers = rest ++ [none]) :
    s.take = ({ s with fibers := rest }, .empty) := by
  simp [State.take, back]

end Take

/-- Threads that `start` has created so far. -/
def OwnerPc.created (n : Nat) : OwnerPc → Nat
  | .built => 0
  | .starting created => created
  | .started | .flagged | .notified | .joining _ | .calling | .returned => n

/-- A worker exists from the moment `start` creates its thread, the root worker from
the call at the end of `stop`. -/
structure Born (s : State n F) : Prop where
  thread : ∀ i : Fin n, s.worker (some i) = .absent ↔ s.owner.created n ≤ i
  root : s.owner ≠ .calling → s.owner ≠ .returned → s.worker none = .absent

theorem init_born : Born (init : State n F) :=
  ⟨fun i => by simp [init, OwnerPc.created], fun _ _ => rfl⟩

/-- Steps of existing workers create and remove nobody. -/
theorem Born.setWorker {s t : State n F} {w : WorkerId n} {pc : WorkerPc F} (born : Born s)
    (owner : t.owner = s.owner) (worker : t.worker = s.worker)
    (present : s.worker w ≠ .absent) (stays : pc ≠ .absent) : Born (t.setWorker w pc) := by
  have same : ∀ v, (t.setWorker w pc).worker v = .absent ↔ s.worker v = .absent := by
    intro v
    rw [setWorker_worker, worker]
    split
    · rename_i here
      subst here
      exact ⟨fun absent => absurd absent stays, fun absent => absurd absent present⟩
    · exact Iff.rfl
  refine ⟨fun i => (same (some i)).trans ?_, fun calling returned => (same none).mpr ?_⟩
  · rw [setWorker_owner, owner]
    exact born.thread i
  · rw [setWorker_owner, owner] at calling returned
    exact born.root calling returned

/-- The owner's own steps, as long as it creates nobody. -/
theorem Born.setOwner {s t : State n F} (born : Born s) (worker : t.worker = s.worker)
    (same : t.owner.created n = s.owner.created n)
    (calling : s.owner ≠ .calling ∧ s.owner ≠ .returned ∨ t.owner = .returned) : Born t := by
  refine ⟨fun i => ?_, fun _ after => ?_⟩
  · rw [worker, same]
    exact born.thread i
  · rcases calling with before | returned
    · rw [worker]
      exact born.root before.1 before.2
    · exact absurd returned after

theorem Born.spawned {s : State n F} (born : Born s) {created : Nat}
    (at_owner : s.owner = .starting created) (inside : created < n) :
    s.worker (some ⟨created, inside⟩) = .absent := by
  rw [born.thread, at_owner]
  exact Nat.le_refl created

variable [DecidableEq F]

/-- One step of the program. -/
def next (userCaller : Bool) (s : State n F) : Event n F → Option (State n F)
  | .start => match s.owner with
    | .built => some { s with stopping := false, owner := .starting 0 }
    | _ => none
  | .spawn => match s.owner with
    | .starting created =>
      if inside : created < n then
        some ({ s with owner := .starting (created + 1) }.setWorker (some ⟨created, inside⟩) .ready)
      else none
    | _ => none
  | .startReturns => match s.owner with
    | .starting created => if created < n then none else some { s with owner := .started }
    | _ => none
  | .schedule fiber =>
    let (t, needTickle) := s.schedule fiber
    some { t with tickling := t.tickling + needTickle.toNat }
  | .tickle target =>
    if s.tickling = 0 then none
    else { s with tickling := s.tickling - 1 }.notifyOne target
  | .take w => match s.worker w with
    | .ready | .woken =>
      let (t, pc) := s.take
      some (t.setWorker w pc)
    | _ => none
  | .spurious w => match s.worker w with
    | .waiting => some (s.setWorker w .woken)
    | _ => none
  | .swapIn w => match s.worker w with
    | .holding fiber =>
      some ({ s with saved := Function.update s.saved fiber false }.setWorker w
        (.running fiber false))
    | _ => none
  | .fiberSchedule w scheduled => match s.worker w with
    | .running fiber false =>
      let (t, needTickle) := s.schedule scheduled
      some (t.setWorker w (.running fiber needTickle))
    | _ => none
  | .fiberTickle w target => match s.worker w with
    | .running fiber true => (s.setWorker w (.running fiber false)).notifyOne target
    | _ => none
  | .giveBack w => match s.worker w with
    | .running fiber false =>
      some ({ s with saved := Function.update s.saved fiber true }.setWorker w .ready)
    | _ => none
  -- The idle fiber is built and never swapped in, so its state is not TERM either.
  | .checkStopping w => match s.worker w with
    | .empty => some (s.setWorker w (if s.stopping then .left else .ready))
    | _ => none
  | .stop => match s.owner with
    | .started => some { s with stopping := true, owner := .flagged }
    | _ => none
  | .notifyAll => match s.owner with
    | .flagged => some { s.notifyAll with owner := .notified }
    | _ => none
  | .swapThreads => match s.owner with
    | .notified => some { s with owner := .joining 0 }
    | _ => none
  | .join => match s.owner with
    | .joining joined =>
      if inside : joined < n then
        if s.worker (some ⟨joined, inside⟩) = .left then
          some { s with owner := .joining (joined + 1) }
        else none
      else none
    | _ => none
  | .callRoot => match s.owner with
    | .joining joined =>
      if n ≤ joined ∧ userCaller then some ({ s with owner := .calling }.setWorker none .ready)
      else none
    | _ => none
  | .stopReturns => match s.owner with
    | .joining joined =>
      if n ≤ joined ∧ userCaller = false then some { s with owner := .returned } else none
    | .calling => if s.worker none = .left then some { s with owner := .returned } else none
    | _ => none

/-- The root fiber's `run` and everything after it come behind the joins. -/
def State.Joined (s : State n F) : Prop :=
  s.owner = .joining n ∨ s.owner = .calling ∨ s.owner = .returned

/-- What each event does, with the guard under which it can happen. -/
inductive Step (userCaller : Bool) (s : State n F) : Event n F → State n F → Prop
  | start (at_owner : s.owner = .built) :
      Step userCaller s .start { s with stopping := false, owner := .starting 0 }
  | spawn {created : Nat} (at_owner : s.owner = .starting created) (inside : created < n) :
      Step userCaller s .spawn
        ({ s with owner := .starting (created + 1) }.setWorker (some ⟨created, inside⟩) .ready)
  | startReturns {created : Nat} (at_owner : s.owner = .starting created)
      (all : n ≤ created) : Step userCaller s .startReturns { s with owner := .started }
  | schedule (fiber : Option F) :
      Step userCaller s (.schedule fiber)
        { s with fibers := s.fibers ++ [fiber],
                 tickling := s.tickling + s.fibers.isEmpty.toNat }
  | tickleOne {w : WorkerId n} (pending : 0 < s.tickling) (blocked : s.worker w = .waiting) :
      Step userCaller s (.tickle (some w))
        ({ s with tickling := s.tickling - 1 }.setWorker w .woken)
  | tickleNone (pending : 0 < s.tickling) (nobody : ∀ w, s.worker w ≠ .waiting) :
      Step userCaller s (.tickle none) { s with tickling := s.tickling - 1 }
  | takeBlocked {w : WorkerId n} (free : s.worker w = .ready ∨ s.worker w = .woken)
      (nothing : s.fibers = []) (going : s.stopping = false) :
      Step userCaller s (.take w) (s.setWorker w .waiting)
  | takeFiber {w : WorkerId n} {rest : List (Option F)} {fiber : F}
      (free : s.worker w = .ready ∨ s.worker w = .woken)
      (back : s.fibers = rest ++ [some fiber]) :
      Step userCaller s (.take w) ({ s with fibers := rest }.setWorker w (.holding fiber))
  | takeNull {w : WorkerId n} {rest : List (Option F)}
      (free : s.worker w = .ready ∨ s.worker w = .woken) (back : s.fibers = rest ++ [none]) :
      Step userCaller s (.take w) ({ s with fibers := rest }.setWorker w .empty)
  | takeNothing {w : WorkerId n} (free : s.worker w = .ready ∨ s.worker w = .woken)
      (nothing : s.fibers = []) (stops : s.stopping = true) :
      Step userCaller s (.take w) (s.setWorker w .empty)
  | spurious {w : WorkerId n} (blocked : s.worker w = .waiting) :
      Step userCaller s (.spurious w) (s.setWorker w .woken)
  | swapIn {w : WorkerId n} {fiber : F} (held : s.worker w = .holding fiber) :
      Step userCaller s (.swapIn w)
        ({ s with saved := Function.update s.saved fiber false }.setWorker w
          (.running fiber false))
  | fiberSchedule {w : WorkerId n} {fiber : F} (scheduled : Option F)
      (runs : s.worker w = .running fiber false) :
      Step userCaller s (.fiberSchedule w scheduled)
        ({ s with fibers := s.fibers ++ [scheduled] }.setWorker w
          (.running fiber s.fibers.isEmpty))
  | fiberTickleOne {w other : WorkerId n} {fiber : F}
      (runs : s.worker w = .running fiber true) (blocked : s.worker other = .waiting) :
      Step userCaller s (.fiberTickle w (some other))
        ((s.setWorker w (.running fiber false)).setWorker other .woken)
  | fiberTickleNone {w : WorkerId n} {fiber : F} (runs : s.worker w = .running fiber true)
      (nobody : ∀ other, s.worker other ≠ .waiting) :
      Step userCaller s (.fiberTickle w none) (s.setWorker w (.running fiber false))
  | giveBack {w : WorkerId n} {fiber : F} (runs : s.worker w = .running fiber false) :
      Step userCaller s (.giveBack w)
        ({ s with saved := Function.update s.saved fiber true }.setWorker w .ready)
  | leave {w : WorkerId n} (null : s.worker w = .empty) (stops : s.stopping = true) :
      Step userCaller s (.checkStopping w) (s.setWorker w .left)
  | again {w : WorkerId n} (null : s.worker w = .empty) (going : s.stopping = false) :
      Step userCaller s (.checkStopping w) (s.setWorker w .ready)
  | stop (at_owner : s.owner = .started) :
      Step userCaller s .stop { s with stopping := true, owner := .flagged }
  | notifyAll (at_owner : s.owner = .flagged) :
      Step userCaller s .notifyAll { s.notifyAll with owner := .notified }
  | swapThreads (at_owner : s.owner = .notified) :
      Step userCaller s .swapThreads { s with owner := .joining 0 }
  | join {joined : Nat} (at_owner : s.owner = .joining joined) (inside : joined < n)
      (done : s.worker (some ⟨joined, inside⟩) = .left) :
      Step userCaller s .join { s with owner := .joining (joined + 1) }
  | callRoot {joined : Nat} (at_owner : s.owner = .joining joined) (all : n ≤ joined)
      (caller : userCaller = true) :
      Step userCaller s .callRoot ({ s with owner := .calling }.setWorker none .ready)
  | joinsReturn {joined : Nat} (at_owner : s.owner = .joining joined) (all : n ≤ joined)
      (plain : userCaller = false) :
      Step userCaller s .stopReturns { s with owner := .returned }
  | callReturns (at_owner : s.owner = .calling) (done : s.worker none = .left) :
      Step userCaller s .stopReturns { s with owner := .returned }

theorem take_step (userCaller : Bool) (s : State n F) (w : WorkerId n)
    (free : s.worker w = .ready ∨ s.worker w = .woken) :
    Step userCaller s (.take w) (s.take.1.setWorker w s.take.2) := by
  unfold State.take
  split
  · rename_i blocked
    simp only [Bool.and_eq_true, List.isEmpty_iff, Bool.not_eq_true'] at blocked
    exact .takeBlocked free blocked.1 blocked.2
  · rename_i open_
    split
    · rename_i fiber back
      obtain ⟨rest, shape⟩ := List.getLast?_eq_some_iff.mp back
      rw [show s.fibers.dropLast = rest by simp [shape]]
      exact .takeFiber free shape
    · rename_i back
      obtain ⟨rest, shape⟩ := List.getLast?_eq_some_iff.mp back
      rw [show s.fibers.dropLast = rest by simp [shape]]
      exact .takeNull free shape
    · rename_i back
      have nothing : s.fibers = [] := List.getLast?_eq_none_iff.mp back
      refine .takeNothing free nothing ?_
      simpa [nothing] using open_

/-- Every step of the program is one of the listed effects. -/
theorem step_of_next {userCaller : Bool} {s t : State n F} {e : Event n F}
    (step : next userCaller s e = some t) : Step userCaller s e t := by
  cases e <;> simp only [next] at step
  case take w =>
    split at step
    · rename_i free
      exact Option.some.inj step ▸ take_step userCaller s w (.inl free)
    · rename_i free
      exact Option.some.inj step ▸ take_step userCaller s w (.inr free)
    · cases step
  case tickle target =>
    split at step
    · cases step
    · rename_i pending
      cases target with
      | some w =>
        obtain ⟨blocked, rfl⟩ := notifyOne_some step
        exact .tickleOne (Nat.pos_of_ne_zero pending) blocked
      | none =>
        obtain ⟨nobody, rfl⟩ := notifyOne_none step
        exact .tickleNone (Nat.pos_of_ne_zero pending) nobody
  case fiberTickle w target =>
    split at step
    · rename_i fiber runs
      cases target with
      | some other =>
        obtain ⟨blocked, rfl⟩ := notifyOne_some step
        refine .fiberTickleOne runs ?_
        by_cases same : other = w
        · simp [same] at blocked
        · rwa [setWorker_other _ _ _ same] at blocked
      | none =>
        obtain ⟨nobody, rfl⟩ := notifyOne_none step
        refine .fiberTickleNone runs fun other => ?_
        by_cases same : other = w
        · simp [same, runs]
        · rw [← setWorker_other s w (.running fiber false) same]
          exact nobody other
    · cases step
  case start =>
    split at step
    · rename_i at_owner
      exact Option.some.inj step ▸ .start at_owner
    · cases step
  case stop =>
    split at step
    · rename_i at_owner
      exact Option.some.inj step ▸ .stop at_owner
    · cases step
  case notifyAll =>
    split at step
    · rename_i at_owner
      exact Option.some.inj step ▸ .notifyAll at_owner
    · cases step
  case swapThreads =>
    split at step
    · rename_i at_owner
      exact Option.some.inj step ▸ .swapThreads at_owner
    · cases step
  case spawn =>
    split at step
    · rename_i created at_owner
      split at step
      · rename_i inside
        exact Option.some.inj step ▸ .spawn at_owner inside
      · cases step
    · cases step
  case startReturns =>
    split at step
    · rename_i created at_owner
      split at step
      · cases step
      · rename_i all
        exact Option.some.inj step ▸ .startReturns at_owner (Nat.le_of_not_lt all)
    · cases step
  case schedule fiber => exact Option.some.inj step ▸ .schedule fiber
  case spurious w =>
    split at step
    · rename_i at_pc
      exact Option.some.inj step ▸ .spurious at_pc
    · cases step
  case swapIn w =>
    split at step
    · rename_i fiber at_pc
      exact Option.some.inj step ▸ .swapIn at_pc
    · cases step
  case fiberSchedule w scheduled =>
    split at step
    · rename_i fiber at_pc
      exact Option.some.inj step ▸ .fiberSchedule scheduled at_pc
    · cases step
  case giveBack w =>
    split at step
    · rename_i fiber at_pc
      exact Option.some.inj step ▸ .giveBack at_pc
    · cases step
  case checkStopping w =>
    split at step
    · rename_i null
      cases flag : s.stopping with
      | true => exact Option.some.inj step ▸ (by simpa [flag] using Step.leave null flag)
      | false => exact Option.some.inj step ▸ (by simpa [flag] using Step.again null flag)
    · cases step
  case join =>
    split at step
    · rename_i joined at_owner
      split at step
      · rename_i inside
        split at step
        · rename_i done
          exact Option.some.inj step ▸ .join at_owner inside done
        · cases step
      · cases step
    · cases step
  case callRoot =>
    split at step
    · rename_i joined at_owner
      split at step
      · rename_i guard
        exact Option.some.inj step ▸ .callRoot at_owner guard.1 guard.2
      · cases step
    · cases step
  case stopReturns =>
    split at step
    · rename_i joined at_owner
      split at step
      · rename_i guard
        exact Option.some.inj step ▸ .joinsReturn at_owner guard.1 guard.2
      · cases step
    · rename_i at_owner
      split at step
      · rename_i done
        exact Option.some.inj step ▸ .callReturns at_owner done
      · cases step
    · cases step

theorem born_step {userCaller : Bool} {s t : State n F} {e : Event n F} (born : Born s)
    (step : Step userCaller s e t) : Born t := by
  cases step
  case start at_owner =>
    exact born.setOwner rfl (by rw [at_owner]; rfl) (.inl (by simp [at_owner]))
  case spawn created at_owner inside =>
    have before := born.thread
    simp only [at_owner, OwnerPc.created] at before
    refine ⟨fun i => ?_, fun _ _ => ?_⟩
    · simp only [setWorker_worker, setWorker_owner, OwnerPc.created, Option.some.injEq]
      by_cases here : i = ⟨created, inside⟩
      · subst here
        simp
      · have apart : (i : Nat) ≠ created := fun same => here (Fin.ext same)
        simp only [here, ↓reduceIte, before]
        omega
    · rw [setWorker_other _ _ _ (by simp)]
      exact born.root (by simp [at_owner]) (by simp [at_owner])
  case startReturns created at_owner all =>
    refine ⟨fun i => ?_, fun _ _ => born.root (by simp [at_owner]) (by simp [at_owner])⟩
    have before := born.thread i
    have bound := i.isLt
    simp only [at_owner, OwnerPc.created] at before ⊢
    rw [before]
    omega
  case stop at_owner | swapThreads at_owner | join at_owner _ _ =>
    exact born.setOwner rfl (by rw [at_owner]; rfl) (.inl (by simp [at_owner]))
  case joinsReturn at_owner _ _ | callReturns at_owner _ =>
    exact born.setOwner rfl (by rw [at_owner]; rfl) (.inr rfl)
  case notifyAll at_owner =>
    refine ⟨fun i => ?_, fun _ _ => ?_⟩
    · have before := born.thread i
      simp only [at_owner] at before
      rw [← show OwnerPc.flagged.created n = OwnerPc.notified.created n from rfl, ← before]
      by_cases blocked : s.worker (some i) = .waiting
      · simp [notifyAll_waiting s _ blocked, blocked]
      · simp [notifyAll_other s _ blocked]
    · have absent := born.root (by simp [at_owner]) (by simp [at_owner])
      change s.notifyAll.worker none = .absent
      rw [notifyAll_other s none (by simp [absent]), absent]
  case callRoot at_owner _ _ =>
    refine ⟨fun i => ?_, fun calling => absurd rfl calling⟩
    rw [setWorker_other _ _ _ (by simp)]
    have before := born.thread i
    rw [at_owner] at before
    exact before
  case schedule | tickleNone => exact ⟨born.thread, born.root⟩
  case takeBlocked free _ _ | takeFiber free _ | takeNull free _ | takeNothing free _ _ =>
    refine born.setWorker rfl rfl (fun absent => ?_) (by simp)
    simp [absent] at free
  case fiberTickleOne runs blocked =>
    refine Born.setWorker (born.setWorker rfl rfl (by simp [runs]) (by simp)) rfl rfl ?_ (by simp)
    rw [setWorker_worker]
    split
    · simp
    · simp [blocked]
  case tickleOne at_pc | spurious at_pc | swapIn at_pc | fiberSchedule at_pc |
      fiberTickleNone at_pc _ | giveBack at_pc | leave at_pc _ | again at_pc _ =>
    exact born.setWorker rfl rfl (by simp [at_pc]) (by simp)

end ZnetServer.Scheduler
