import ZnetServer.Scheduler

set_option autoImplicit false

/- `start` and `stop` called in any order. Each `start` creates threads of its own and lets go
of those that `m_threads` held, so the workers are numbered by their creation. -/
namespace ZnetServer.Scheduler

open Transition

/-- The thread that calls `start` and `stop`. -/
inductive Caller where
  | idle
  | starting (created : Nat)
  /-- In `stop`, `m_stopping` is set and `notify_all` is next. -/
  | flagged
  | notified
  /-- With the threads of `thrs` that have not been joined. -/
  | joining (rest : List (Option Nat))
  deriving DecidableEq

structure Crew (F : Type) where
  /-- `m_fibers` -/
  fibers : List (Option F)
  /-- `m_stopping` -/
  stopping : Bool
  /-- `m_threads`; a `Thread::ptr` may be null. -/
  threads : List (Option Nat)
  worker : Nat → WorkerPc F
  /-- The threads that `start` has created. -/
  born : Nat
  /-- Calls of `schedule` from outside the workers that still have to notify. -/
  tickling : Nat
  caller : Caller

namespace Crew

inductive Event (F : Type) where
  | start
  | spawn
  | startReturns
  | stop
  | notifyAll
  | swapThreads
  | join
  | stopReturns
  | schedule (fiber : Option F)
  | tickle (target : Option Nat)
  | take (w : Nat)
  | spurious (w : Nat)
  | swapIn (w : Nat)
  | fiberSchedule (w : Nat) (fiber : Option F)
  | fiberTickle (w : Nat) (target : Option Nat)
  | giveBack (w : Nat)
  | fallOff (w : Nat)
  | checkStopping (w : Nat)
  deriving DecidableEq

variable {F : Type}

def init : Crew F where
  fibers := []
  stopping := true
  threads := []
  worker := fun _ => .absent
  born := 0
  tickling := 0
  caller := .idle

def setWorker (s : Crew F) (w : Nat) (pc : WorkerPc F) : Crew F :=
  { s with worker := Function.update s.worker w pc }

/-- The block of `schedule` under the lock, with `need_tickle`. -/
def push (s : Crew F) (fiber : Option F) : Crew F × Bool :=
  ({ s with fibers := s.fibers ++ [fiber] }, s.fibers.isEmpty)

/-- The block of `run` under the lock. -/
def pop (s : Crew F) : Crew F × WorkerPc F :=
  if s.fibers.isEmpty && !s.stopping then (s, .waiting)
  else match s.fibers.getLast? with
    | some (some fiber) => ({ s with fibers := s.fibers.dropLast }, .holding fiber)
    | some none => ({ s with fibers := s.fibers.dropLast }, .empty)
    | none => (s, .empty)

def notifyOne (s : Crew F) : Option Nat → Option (Crew F)
  | some w =>
    if w < s.born ∧ (s.worker w).isWaiting then some (s.setWorker w .woken) else none
  | none => if ∀ w < s.born, (s.worker w).isWaiting = false then some s else none

/-- `m_threads.resize` -/
def resize (threads : List (Option Nat)) (size : Nat) : List (Option Nat) :=
  (threads ++ List.replicate size none).take size

/-- One step of the program, with `user_caller` false. -/
def next [DecidableEq F] (threadCount : Nat) (s : Crew F) : Event F → Option (Crew F)
  | .start => match s.caller with
    | .idle =>
      some { s with
        stopping := false
        threads := resize s.threads threadCount
        caller := .starting 0 }
    | _ => none
  -- `reset` destroys the `Thread` that the entry held, and a thread that is not joined goes on
  -- detached.
  | .spawn => match s.caller with
    | .starting created =>
      if created < threadCount then
        some ({ s with
          threads := s.threads.set created (some s.born)
          born := s.born + 1
          caller := .starting (created + 1) }.setWorker s.born .ready)
      else none
    | _ => none
  | .startReturns => match s.caller with
    | .starting created => if created < threadCount then none else some { s with caller := .idle }
    | _ => none
  | .stop => match s.caller with
    | .idle => some { s with stopping := true, caller := .flagged }
    | _ => none
  | .notifyAll => match s.caller with
    | .flagged =>
      some { s with
        worker := fun w => if (s.worker w).isWaiting then .woken else s.worker w
        caller := .notified }
    | _ => none
  | .swapThreads => match s.caller with
    | .notified => some { s with threads := [], caller := .joining s.threads }
    | _ => none
  | .join => match s.caller with
    | .joining (some w :: rest) =>
      if s.worker w = .left then some { s with caller := .joining rest } else none
    | _ => none
  | .stopReturns => match s.caller with
    | .joining [] => some { s with caller := .idle }
    | _ => none
  | .schedule fiber =>
    let (t, needTickle) := s.push fiber
    some { t with tickling := t.tickling + needTickle.toNat }
  | .tickle target =>
    if s.tickling = 0 then none else { s with tickling := s.tickling - 1 }.notifyOne target
  | .take w => match s.worker w with
    | .ready | .woken =>
      let (t, pc) := s.pop
      some (t.setWorker w pc)
    | _ => none
  | .spurious w => match s.worker w with
    | .waiting => some (s.setWorker w .woken)
    | _ => none
  | .swapIn w => match s.worker w with
    | .holding fiber => some (s.setWorker w (.running fiber false))
    | _ => none
  | .fiberSchedule w scheduled => match s.worker w with
    | .running fiber false =>
      let (t, needTickle) := s.push scheduled
      some (t.setWorker w (.running fiber needTickle))
    | _ => none
  | .fiberTickle w target => match s.worker w with
    | .running fiber true => (s.setWorker w (.running fiber false)).notifyOne target
    | _ => none
  | .giveBack w => match s.worker w with
    | .running _ false => some (s.setWorker w .ready)
    | _ => none
  -- The thread ends on the stack of a fiber, which has no `uc_link`.
  | .fallOff w => match s.worker w with
    | .running _ false => some (s.setWorker w .left)
    | _ => none
  | .checkStopping w => match s.worker w with
    | .empty => some (s.setWorker w (if s.stopping then .left else .ready))
    | _ => none

/-- A thread that has not left `run`. -/
structure Busy (s : Crew F) (w : Nat) : Prop where
  created : w < s.born
  stays : s.worker w ≠ .left

/-- `start` is called while `m_threads` holds threads. -/
def Overwrites (s : Crew F) : Event F → Prop
  | .start => s.threads ≠ []
  | _ => False

/-- The threads that `stop` joins or will join. -/
def pool (s : Crew F) : List (Option Nat) :=
  match s.caller with
  | .joining rest => rest
  | _ => s.threads

/-- Nobody is busy whom `stop` will not join. -/
structure Tracked (threadCount : Nat) (s : Crew F) : Prop where
  known : ∀ w, s.Busy w → some w ∈ s.pool
  slots : ∀ created, s.caller = .starting created → s.threads.length = threadCount ∧
    ∀ slot, created ≤ slot → slot < threadCount → s.threads[slot]? = some none
  emptied : ∀ rest, s.caller = .joining rest → s.threads = []

section Steps

variable {threadCount : Nat} {s t : Crew F} {e : Event F}

/-- The steps of the caller. -/
inductive Calls (threadCount : Nat) (s t : Crew F) : Event F → Prop
  | start (before : s.caller = .idle) (after : t.caller = .starting 0)
      (threads : t.threads = resize s.threads threadCount) : Calls threadCount s t .start
  | spawn {created : Nat} (before : s.caller = .starting created) (inside : created < threadCount)
      (after : t.caller = .starting (created + 1))
      (threads : t.threads = s.threads.set created (some s.born)) : Calls threadCount s t .spawn
  | startReturns {created : Nat} (before : s.caller = .starting created)
      (after : t.caller = .idle) (threads : t.threads = s.threads) :
      Calls threadCount s t .startReturns
  | stop (before : s.caller = .idle) (after : t.caller = .flagged)
      (threads : t.threads = s.threads) : Calls threadCount s t .stop
  | notifyAll (before : s.caller = .flagged) (after : t.caller = .notified)
      (threads : t.threads = s.threads) : Calls threadCount s t .notifyAll
  | swapThreads (before : s.caller = .notified) (after : t.caller = .joining s.threads)
      (threads : t.threads = []) : Calls threadCount s t .swapThreads
  | join {w : Nat} {rest : List (Option Nat)} (before : s.caller = .joining (some w :: rest))
      (done : t.worker w = .left) (after : t.caller = .joining rest)
      (threads : t.threads = s.threads) : Calls threadCount s t .join
  | stopReturns (before : s.caller = .joining []) (after : t.caller = .idle)
      (threads : t.threads = s.threads) : Calls threadCount s t .stopReturns
  | elsewhere {e : Event F} (older : e ≠ .spawn) (same : t.caller = s.caller)
      (threads : t.threads = s.threads) : Calls threadCount s t e

/-- What a step does for the caller, and who is busy behind it. -/
structure Effect (threadCount : Nat) (s t : Crew F) (e : Event F) : Prop where
  calls : Calls threadCount s t e
  busy : ∀ w, t.Busy w → s.Busy w ∨ e = .spawn ∧ w = s.born

/-- The caller goes on, and no worker does. -/
theorem Calls.effect (calls : Calls threadCount s t e) (born : t.born = s.born)
    (worker : t.worker = s.worker) : Effect threadCount s t e := by
  refine ⟨calls, fun w busy => Or.inl ⟨?_, ?_⟩⟩
  · rw [← born]
    exact busy.created
  · rw [← worker]
    exact busy.stays

/-- A step in which only workers go on. -/
structure Works (s t : Crew F) : Prop where
  caller : t.caller = s.caller
  threads : t.threads = s.threads
  busy : ∀ w, t.Busy w → s.Busy w

theorem Works.effect (works : Works s t) (older : e ≠ .spawn) : Effect threadCount s t e where
  calls := .elsewhere older works.caller works.threads
  busy w stays := Or.inl (works.busy w stays)

/-- A worker that has not left goes on at `pc`. -/
theorem works_setWorker {w : Nat} {pc : WorkerPc F} (caller : t.caller = s.caller)
    (threads : t.threads = s.threads) (born : t.born = s.born) (worker : t.worker = s.worker)
    (stays : s.worker w ≠ .left) : Works s (t.setWorker w pc) := by
  refine ⟨caller, threads, fun v busy => ⟨?_, ?_⟩⟩
  · rw [← born]
    exact busy.created
  · by_cases same : v = w
    · rwa [same]
    · have elsewhere : (t.setWorker w pc).worker v = t.worker v := Function.update_of_ne same ..
      rw [← worker, ← elsewhere]
      exact busy.stays

theorem notifyOne_works {target : Option Nat} (woken : s.notifyOne target = some t) :
    Works s t := by
  cases target with
  | none =>
      simp only [notifyOne] at woken
      split at woken
      · obtain rfl := Option.some.inj woken
        exact ⟨rfl, rfl, fun _ busy => busy⟩
      · cases woken
  | some w =>
      simp only [notifyOne] at woken
      split at woken
      · rename_i blocked
        obtain rfl := Option.some.inj woken
        apply works_setWorker rfl rfl rfl rfl
        simp [(isWaiting_iff _).mp blocked.2]
      · cases woken

theorem pop_fields (s : Crew F) : s.pop.1.caller = s.caller ∧ s.pop.1.threads = s.threads ∧
    s.pop.1.born = s.born ∧ s.pop.1.worker = s.worker := by
  unfold pop
  split
  · exact ⟨rfl, rfl, rfl, rfl⟩
  · split <;> exact ⟨rfl, rfl, rfl, rfl⟩

theorem effect_of_next [DecidableEq F] (step : s.next threadCount e = some t) :
    Effect threadCount s t e := by
  cases e with
  | start =>
      simp only [next] at step
      split at step
      · rename_i idle
        obtain rfl := Option.some.inj step
        exact Calls.effect (.start idle rfl rfl) rfl rfl
      · cases step
  | spawn =>
      simp only [next] at step
      split at step
      · rename_i created before
        split at step
        · rename_i inside
          obtain rfl := Option.some.inj step
          refine ⟨.spawn before inside rfl rfl, fun w busy => ?_⟩
          by_cases newest : w = s.born
          · exact Or.inr ⟨rfl, newest⟩
          · have older : w < s.born + 1 := busy.created
            refine Or.inl ⟨by omega, fun left => busy.stays ?_⟩
            exact (Function.update_of_ne newest ..).trans left
        · cases step
      · cases step
  | startReturns =>
      simp only [next] at step
      split at step
      · rename_i created before
        split at step
        · cases step
        · obtain rfl := Option.some.inj step
          exact Calls.effect (.startReturns before rfl rfl) rfl rfl
      · cases step
  | stop =>
      simp only [next] at step
      split at step
      · rename_i idle
        obtain rfl := Option.some.inj step
        exact Calls.effect (.stop idle rfl rfl) rfl rfl
      · cases step
  | notifyAll =>
      simp only [next] at step
      split at step
      · rename_i before
        obtain rfl := Option.some.inj step
        refine ⟨.notifyAll before rfl rfl, fun w busy => Or.inl ⟨busy.created, fun left => ?_⟩⟩
        apply busy.stays
        show (if (s.worker w).isWaiting then WorkerPc.woken else s.worker w) = .left
        simp [left, WorkerPc.isWaiting]
      · cases step
  | swapThreads =>
      simp only [next] at step
      split at step
      · rename_i before
        obtain rfl := Option.some.inj step
        exact Calls.effect (.swapThreads before rfl rfl) rfl rfl
      · cases step
  | join =>
      simp only [next] at step
      split at step
      · rename_i w rest before
        split at step
        · rename_i done
          obtain rfl := Option.some.inj step
          exact Calls.effect (.join before done rfl rfl) rfl rfl
        · cases step
      · cases step
  | stopReturns =>
      simp only [next] at step
      split at step
      · rename_i before
        obtain rfl := Option.some.inj step
        exact Calls.effect (.stopReturns before rfl rfl) rfl rfl
      · cases step
  | schedule fiber =>
      obtain rfl := Option.some.inj step
      exact Works.effect ⟨rfl, rfl, fun w busy => ⟨busy.created, busy.stays⟩⟩ (by simp)
  | tickle target =>
      simp only [next] at step
      split at step
      · cases step
      · have works := notifyOne_works step
        exact Works.effect ⟨works.caller, works.threads, fun w busy =>
          ⟨(works.busy w busy).created, (works.busy w busy).stays⟩⟩ (by simp)
  | take w =>
      obtain ⟨caller, threads, born, worker⟩ := pop_fields s
      simp only [next] at step
      split at step
      · rename_i free
        obtain rfl := Option.some.inj step
        exact (works_setWorker caller threads born worker (by simp [free])).effect (by simp)
      · rename_i free
        obtain rfl := Option.some.inj step
        exact (works_setWorker caller threads born worker (by simp [free])).effect (by simp)
      · cases step
  | fiberTickle w target =>
      simp only [next] at step
      split at step
      · rename_i fiber runs
        have moved : Works s (s.setWorker w (.running fiber false)) :=
          works_setWorker rfl rfl rfl rfl (by simp [runs])
        have woken := notifyOne_works step
        exact Works.effect ⟨woken.caller.trans moved.caller, woken.threads.trans moved.threads,
          fun v busy => moved.busy v (woken.busy v busy)⟩ (by simp)
      · cases step
  | fiberSchedule w scheduled =>
      simp only [next] at step
      split at step
      · rename_i fiber runs
        obtain rfl := Option.some.inj step
        have stays : s.worker w ≠ .left := by simp [runs]
        apply Works.effect _ (by simp)
        exact works_setWorker rfl rfl rfl rfl stays
      · cases step
  | spurious w | swapIn w | giveBack w | fallOff w | checkStopping w =>
      simp only [next] at step
      split at step
      · rename_i present
        obtain rfl := Option.some.inj step
        exact (works_setWorker rfl rfl rfl rfl (by simp [present])).effect (by simp)
      · cases step

theorem resize_nil (size : Nat) : resize [] size = List.replicate size none := by
  rw [resize, List.nil_append]
  exact List.take_of_length_le (Nat.le_of_eq List.length_replicate)

/-- The entry that `reset` overwrites holds no thread. -/
theorem mem_set {threads : List (Option Nat)} {slot w : Nat} {other : Option Nat}
    (empty : threads[slot]? = some none) (member : some w ∈ threads) :
    some w ∈ threads.set slot other := by
  obtain ⟨place, there⟩ := List.mem_iff_getElem?.mp member
  apply List.mem_iff_getElem?.mpr
  refine ⟨place, ?_⟩
  have apart : slot ≠ place := by
    rintro rfl
    rw [empty] at there
    cases there
  rw [List.getElem?_set_ne apart, there]

theorem init_tracked : Tracked threadCount (init : Crew F) := by
  refine ⟨fun w busy => ?_, fun created before => ?_, fun rest before => ?_⟩
  · exact absurd busy.created (Nat.not_lt_zero w)
  · cases before
  · cases before

theorem Effect.stays (effect : Effect threadCount s t e) (older : e ≠ .spawn) {w : Nat}
    (busy : t.Busy w) : s.Busy w := by
  rcases effect.busy w busy with before | ⟨spawned, _⟩
  · exact before
  · exact absurd spawned older

/-- The caller goes on with the threads that it had. -/
theorem Tracked.keeps (tracked : Tracked threadCount s) (effect : Effect threadCount s t e)
    (older : e ≠ .spawn) (pool : t.pool = s.pool)
    (starting : ∀ created, t.caller ≠ .starting created)
    (emptied : ∀ rest, t.caller = .joining rest → t.threads = []) : Tracked threadCount t where
  known w busy := by
    rw [pool]
    exact tracked.known w (effect.stays older busy)
  slots created before := absurd before (starting created)
  emptied := emptied

theorem Tracked.spawns {created : Nat} (tracked : Tracked threadCount s)
    (effect : Effect threadCount s t .spawn) (before : s.caller = .starting created)
    (inside : created < threadCount) (after : t.caller = .starting (created + 1))
    (threads : t.threads = s.threads.set created (some s.born)) : Tracked threadCount t := by
  obtain ⟨length, vacant⟩ := tracked.slots created before
  have pool_before : s.pool = s.threads := by simp [pool, before]
  have pool_after : t.pool = t.threads := by simp [pool, after]
  refine ⟨fun w busy => ?_, fun next there => ?_, fun rest there => ?_⟩
  · rw [pool_after, threads]
    rcases effect.busy w busy with old | ⟨_, newest⟩
    · have member := tracked.known w old
      rw [pool_before] at member
      exact mem_set (vacant created (Nat.le_refl created) inside) member
    · apply List.mem_iff_getElem?.mpr
      refine ⟨created, ?_⟩
      rw [List.getElem?_set_self (by omega), newest]
  · rw [after, Caller.starting.injEq] at there
    subst there
    rw [threads, List.length_set]
    refine ⟨length, fun slot late within => ?_⟩
    rw [List.getElem?_set_ne (by omega)]
    exact vacant slot (by omega) within
  · rw [after] at there
    cases there

theorem Tracked.step (tracked : Tracked threadCount s) (effect : Effect threadCount s t e)
    (orderly : ¬ Overwrites s e) : Tracked threadCount t := by
  cases effect.calls with
  | start before after threads =>
      have nothing : s.threads = [] := not_not.mp orderly
      have nobody : s.pool = [] := by simp [pool, before, nothing]
      rw [nothing, resize_nil] at threads
      refine ⟨fun w busy => ?_, fun created there => ?_, fun rest there => ?_⟩
      · have member := tracked.known w (effect.stays (by simp) busy)
        rw [nobody] at member
        cases member
      · rw [threads]
        refine ⟨List.length_replicate, fun slot _ within => ?_⟩
        rw [List.getElem?_replicate, if_pos within]
      · rw [after] at there
        cases there
  | spawn before inside after threads => exact tracked.spawns effect before inside after threads
  | startReturns before after threads | stop before after threads
  | notifyAll before after threads =>
      apply tracked.keeps effect (by simp)
      · simp [pool, before, after, threads]
      · simp [after]
      · simp [after]
  | swapThreads before after threads =>
      apply tracked.keeps effect (by simp)
      · simp [pool, before, after]
      · simp [after]
      · exact fun _ _ => threads
  | @join w rest before done after threads =>
      refine ⟨fun v busy => ?_, by simp [after], fun _ _ => ?_⟩
      · have member := tracked.known v (effect.stays (by simp) busy)
        simp only [pool, before, after] at member ⊢
        rcases List.mem_cons.mp member with same | later
        · obtain rfl := Option.some.inj same
          exact absurd done busy.stays
        · exact later
      · rw [threads]
        exact tracked.emptied _ before
  | stopReturns before after threads =>
      apply tracked.keeps effect (by simp)
      · simp [pool, before, after, threads, tracked.emptied _ before]
      · simp [after]
      · simp [after]
  | elsewhere older same threads =>
      refine ⟨fun w busy => ?_, fun created there => ?_, fun rest there => ?_⟩
      · have member := tracked.known w (effect.stays older busy)
        rwa [pool, same, threads]
      · rw [same] at there
        rw [threads]
        exact tracked.slots created there
      · rw [same] at there
        rw [threads]
        exact tracked.emptied rest there

theorem run_tracked [DecidableEq F] {trace : List (Crew F × Event F)}
    (run : Run (next threadCount) anyStep init trace s)
    (orderly : ∀ step ∈ trace, ¬ Overwrites step.1 step.2) : Tracked threadCount s := by
  have strict : Run (next threadCount) (fun s e => ¬ Overwrites s e) init trace s :=
    run.restrict orderly
  apply strict.invariant init_tracked
  intro s e t tracked orderly step
  exact tracked.step (effect_of_next step) orderly

end Steps

/-- When no `start` finds threads in `m_threads`, every thread that was ever created has left
`run` where `stop` returns. -/
theorem stop_leaves_nobody [DecidableEq F] {threadCount : Nat} {trace : List (Crew F × Event F)}
    {s : Crew F} (run : Run (next threadCount) anyStep init trace s)
    (orderly : ∀ step ∈ trace, ¬ Overwrites step.1 step.2) :
    ∀ step ∈ trace, step.2 = .stopReturns → ∀ w < step.1.born, step.1.worker w = .left := by
  rintro ⟨middle, e⟩ member returns w created
  obtain ⟨front, back, rfl⟩ := List.append_of_mem member
  rw [List.append_cons] at run
  obtain ⟨after, before, _⟩ := run.split
  obtain ⟨earlier, _, step⟩ := before.of_snoc
  have tracked := run_tracked earlier fun step inside => orderly step
    (List.mem_append_left _ inside)
  by_contra stays
  have waits := tracked.known w ⟨created, stays⟩
  rw [show e = .stopReturns from returns] at step
  simp only [next] at step
  split at step
  · rename_i joined
    simp only [pool, joined] at waits
    cases waits
  · cases step

instance (s : Crew F) (e : Event F) : Decidable (Overwrites s e) :=
  match e with
  | .start => inferInstanceAs (Decidable (s.threads ≠ []))
  | .spawn | .startReturns | .stop | .notifyAll | .swapThreads | .join | .stopReturns
  | .schedule _ | .tickle _ | .take _ | .spurious _ | .swapIn _ | .fiberSchedule ..
  | .fiberTickle .. | .giveBack _ | .fallOff _ | .checkStopping _ =>
    inferInstanceAs (Decidable False)

/-- The scheduler of one worker is started and stopped twice. -/
def startsTwice : List (Event Nat) :=
  [.start, .spawn, .startReturns, .stop, .notifyAll, .swapThreads, .take 0, .checkStopping 0, .join,
    .stopReturns, .start, .spawn, .startReturns, .schedule (some 7), .take 1, .swapIn 1,
    .giveBack 1, .stop, .notifyAll, .swapThreads, .take 1, .checkStopping 1, .join, .stopReturns]

theorem stop_leaves_nobody_twice : ∃ (trace : List (Crew Nat × Event Nat)) (s : Crew Nat),
    Run (next 1) anyStep init trace s ∧ s.born = 2 ∧ ∀ step ∈ trace, step.2 = .stopReturns →
      ∀ w < step.1.born, step.1.worker w = .left := by
  have run := Run.of_replay (show replay (guarded (next 1) anyStep) init startsTwice =
    some (_, _) from rfl)
  refine ⟨_, _, run, rfl, stop_leaves_nobody run ?_⟩
  decide

/-- A second `start` comes before `stop`. -/
def startsOver : List (Event Nat) :=
  [.start, .spawn, .startReturns, .start, .spawn, .startReturns, .stop, .notifyAll, .swapThreads,
    .take 1, .checkStopping 1, .join, .stopReturns]

/-- The thread of the first `start` is detached, and `stop` returns without it. -/
theorem detached_worker_stays : ∃ (trace : List (Crew Nat × Event Nat)) (s : Crew Nat),
    Run (next 1) anyStep init trace s ∧ (∃ before, (before, .stopReturns) ∈ trace ∧
      0 < before.born ∧ before.worker 0 ≠ .left) := by
  have run := Run.of_replay (show replay (guarded (next 1) anyStep) init startsOver =
    some (_, _) from rfl)
  refine ⟨_, _, run, _, List.mem_of_getLast? rfl, ?_, ?_⟩ <;> decide

end Crew

end ZnetServer.Scheduler
