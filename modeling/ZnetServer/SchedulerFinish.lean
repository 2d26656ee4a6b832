import ZnetServer.SchedulerRefinement
import ZnetServer.TaskTurns

set_option autoImplicit false

/- What has become of the scheduled fibers when `stop` has joined. `run` does not queue a fiber
that comes back from `swapIn`, so a fiber that yields waits for another call of `schedule`. -/
namespace ZnetServer.Scheduler.Control

open ZnetServer.Fiber Transition
open TaskPool (Turn Ledger)

variable {n : Nat} {F : Type}

def ledger (s : Control n F) : Ledger (WorkerId n) F := ⟨s.pool, s.closed⟩

/-- What a step does to the fibers as tasks. -/
def turnEvent (s : Control n F) : Event n F → Option (Turn (WorkerId n) F)
  | .outside fiber | .thread _ (.schedule fiber) => fiber.map .submit
  | .thread w .take => match s.fibers.getLast? with
    | some (some fiber) => some (.hand w fiber)
    | _ => none
  | .thread w .swapIn => match s.pool.slot w with
    | .given fiber => some (.begin w fiber)
    | _ => none
  | .thread w .yield => match s.pool.slot w with
    | .begun fiber => some (.pause w fiber)
    | _ => none
  | .thread w (.finish _) => match s.pool.slot w with
    | .begun fiber => some (.close w fiber)
    | _ => none
  | .thread w .endMain => match s.pool.slot w with
    | .begun fiber => some (.finish w fiber)
    | _ => none
  | _ => none

/-- The fibers passed to `schedule` and the fibers that called `Yield`, each in the order of
the trace. -/
def scheduled (trace : List (Control n F × Event n F)) : List F :=
  (visible turnEvent trace).filterMap Turn.submitted

def yielded (trace : List (Control n F × Event n F)) : List F :=
  (visible turnEvent trace).filterMap Turn.paused

/-- Only a fiber whose callback is over is finished. -/
def Opened (s : Control n F) : Prop :=
  ∀ w here fiber, s.machine.executing w = some here → here.stack = .task fiber →
    here.point ≠ .ended → s.closed fiber = false

/-- `stop` has joined all threads. -/
def Joined (s : Control n F) : Prop :=
  s.point none = some (.owner (.joining n)) ∨ s.point none = some (.owner .returned)

variable [DecidableEq F]

/-- A step keeps the running callbacks open and takes a turn, or none. -/
structure Turns (s : Control n F) (e : Event n F) (t : Control n F) : Prop where
  opened : Opened t
  follows : Follows Ledger.turn s.ledger (turnEvent s e) t.ledger

section Steps

variable {trace : List (Control n F × Event n F)} {s t : Control n F} {e : Event n F}
  {w : WorkerId n} {here there : Context (FiberId n F) (Point F)}

omit [DecidableEq F] in
theorem Opened.acted (opened : Opened s) (executing : t.machine.executing =
      Function.update s.machine.executing w (some there)) (closed : t.closed = s.closed)
    (own : ∀ fiber, there.stack = .task fiber → there.point ≠ .ended → s.closed fiber = false) :
    Opened t := by
  intro v place fiber executes on running
  rw [closed]
  rw [executing, Function.update_apply] at executes
  split at executes
  · cases executes
    exact own fiber on running
  · exact opened v place fiber executes on running

omit [DecidableEq F] in
theorem ledger_update (executing : t.machine.executing =
      Function.update s.machine.executing w (some there)) (closed : t.closed = s.closed) :
    t.ledger =
      ⟨⟨↑(t.fibers.filterMap id), Function.update s.pool.slot w (slotOf there)⟩, s.closed⟩ := by
  rw [ledger, pool_update executing, closed]

/-- A thread goes on without a turn. -/
theorem Turns.quiet (opened : Opened s) (silent : turnEvent s e = none)
    (executing : t.machine.executing = Function.update s.machine.executing w (some there))
    (pending : (↑(t.fibers.filterMap id) : Multiset F) = ↑(s.fibers.filterMap id))
    (closed : t.closed = s.closed) (slot : slotOf there = s.pool.slot w)
    (own : ∀ fiber, there.stack = .task fiber → there.point ≠ .ended → s.closed fiber = false) :
    Turns s e t := by
  refine ⟨opened.acted executing closed own, ?_⟩
  rw [silent]
  change t.ledger = s.ledger
  rw [ledger_update executing closed, pending, slot, Function.update_eq_self]
  rfl

/-- A thread takes a turn. -/
theorem Turns.acts {turn : Turn (WorkerId n) F} (opened : Opened s)
    (seen : turnEvent s e = some turn)
    (executing : t.machine.executing = Function.update s.machine.executing w (some there))
    (closed : t.closed = s.closed)
    (step : s.ledger.Step turn
      ⟨⟨↑(t.fibers.filterMap id), Function.update s.pool.slot w (slotOf there)⟩, s.closed⟩)
    (own : ∀ fiber, there.stack = .task fiber → there.point ≠ .ended → s.closed fiber = false) :
    Turns s e t := by
  refine ⟨opened.acted executing closed own, ?_⟩
  rw [seen]
  change s.ledger.turn turn = some t.ledger
  rw [Ledger.turn_iff, ledger_update executing closed]
  exact step

theorem push_turn (fiber : Option F)
    (resting : ∀ own ∈ fiber, TaskPool.Resting s.pool s.closed own)
    (fibers : t.fibers = s.fibers ++ [fiber]) (slot : t.pool.slot = s.pool.slot)
    (closed : t.closed = s.closed) :
    Follows Ledger.turn s.ledger (fiber.map .submit) t.ledger := by
  have after : t.ledger =
      ⟨{ s.pool with pending := ↑fiber.toList + s.pool.pending }, s.closed⟩ := by
    rw [ledger, pool_push fiber fibers slot, closed]
  cases fiber with
  | none =>
    change t.ledger = s.ledger
    rw [after]
    simp [ledger]
  | some own =>
    change s.ledger.turn (.submit own) = some t.ledger
    rw [Ledger.turn_iff, after]
    exact .submit (resting own rfl)

/-- A thread in `run` goes on without a turn. -/
theorem Turns.still {place : Point F} {v : WorkerId n} (opened : Opened s)
    (silent : turnEvent s e = none) (executes : s.machine.executing w = some here)
    (on : here.stack = .main v) (calm : ∀ fiber, here.point ≠ .popped fiber)
    (executing : t.machine.executing =
      Function.update s.machine.executing w (some { here with point := place }))
    (quiet : ∀ fiber, place ≠ .popped fiber)
    (pending : (↑(t.fibers.filterMap id) : Multiset F) = ↑(s.fibers.filterMap id))
    (closed : t.closed = s.closed) : Turns s e t := by
  apply Turns.quiet opened silent executing pending closed
  · rw [pool_slot executes, slotOf_moved_main on calm quiet]
  · intro fiber own_on
    cases on.symm.trans own_on

theorem pop_turn {rest : List (Option F)} {fiber : F} {i : Fin n} (opened : Opened s)
    (executes : s.machine.executing (some i) = some here) (on : here.stack = .main (some i))
    (at_lock : here.point = .locking) (back : s.fibers = rest ++ [some fiber]) :
    Turns s (.thread (some i) .take) ({ s with fibers := rest }.move (some i) (.popped fiber)) := by
  have seen : turnEvent s (.thread (some i) .take) = some (.hand (some i) fiber) := by
    simp [turnEvent, back]
  have given : slotOf { here with point := .popped fiber } = .given fiber :=
    slotOf_popped (w := some i) on rfl
  have free : s.pool.slot (some i) = .free := by
    rw [pool_slot executes]
    exact slotOf_main on (by simp [at_lock])
  have pending : s.pool.pending = fiber ::ₘ ↑(rest.filterMap id) := by
    simp only [pool, back, pending_append]
    rfl
  have left : (↑(rest.filterMap id) : Multiset F) = s.pool.pending.erase fiber := by
    rw [pending, Multiset.erase_cons_head]
  refine Turns.acts opened seen (move_executing _ _ _ executes) rfl ?_ ?_
  · rw [given, move, left]
    apply Ledger.Step.hand free
    change fiber ∈ s.pool.pending
    simp [pending]
  · intro own own_on
    cases on.symm.trans own_on

theorem swapIn_turn {fiber : F} {i : Fin n} (inv : Inv false trace s) (opened : Opened s)
    (executes : s.machine.executing (some i) = some here) (on : here.stack = .main (some i))
    (serves : Serves false s (some i)) (held : here.point = .popped fiber) :
    Turns s (.thread (some i) .swapIn)
      (s.perform (some i) here.stack .swapped (.swapIn (.task fiber))) := by
  have switched := perform_switched here.stack .swapped (serves.ends fiber)
  have executing := switched.loads (task_ne_home fiber (some i))
  have stack := (inv.suspended fiber).stack
  have given : s.pool.slot (some i) = .given fiber := by
    rw [pool_slot executes]
    exact slotOf_popped (w := some i) on held
  have seen : turnEvent s (.thread (some i) .swapIn) = some (.begin (some i) fiber) := by
    simp [turnEvent, given]
  apply Turns.acts opened seen executing switched.closed
  · rw [switched.fibers, slotOf_task stack]
    exact Ledger.Step.begin given
  · intro own own_on _
    cases stack.symm.trans own_on
    exact inv.single.given (some i) fiber given

/-- A fiber swaps out, paused or finished. -/
theorem swapOut_turn {fiber : F} {turn : Turn (WorkerId n) F} (after : Point F)
    (opened : Opened s) (carries : Carries false trace s w fiber)
    (seen : turnEvent s e = some turn)
    (step : s.ledger.Step turn
      ⟨{ s.pool with slot := Function.update s.pool.slot w .free }, s.closed⟩) :
    Turns s e (s.perform w here.stack after (.swapOut (.task fiber))) := by
  have switched := perform_switched here.stack after carries.ends
  have executing := switched.loads (task_ne_home fiber w).symm
  rw [carries.waits] at executing
  apply Turns.acts opened seen executing switched.closed
  · rw [switched.fibers, slotOf_home rfl nofun]
    exact step
  · intro own own_on
    exact absurd own_on.symm (task_ne_home own w)

theorem finish_turn {fiber : F} (threw : Bool) (inv : Inv false trace s) (opened : Opened s)
    (executes : s.machine.executing w = some here) (on : here.stack = .task fiber)
    (inside : here.point = .body) :
    Turns s (.thread w (.finish threw)) ({ s with
      state := Function.update s.state (.task fiber) (if threw then .except else .term) }.move w
        .ended) := by
  let last : FiberState := if threw then .except else .term
  let t : Control n F :=
    { s with state := Function.update s.state (.task fiber) last }.move w .ended
  have executing : t.machine.executing =
      Function.update s.machine.executing w (some { here with point := .ended }) :=
    move_executing _ _ _ executes
  have begun := pool_begun executes on
  have closed : t.closed = Function.update s.closed fiber true := by
    funext own
    rw [Function.update_apply]
    change (Function.update s.state (.task fiber) last (.task own)).finished = _
    split
    · rename_i same
      rw [same, Function.update_self]
      cases threw <;> rfl
    · rename_i apart
      rw [Function.update_of_ne (by simpa using apart)]
      rfl
  have pool : t.pool = s.pool := by
    rw [pool_update executing, slotOf_moved_task on, ← pool_slot executes, Function.update_eq_self]
    rfl
  have taken : Turns s (.thread w (.finish threw)) t := by
    constructor
    · intro v place own at_v own_on running
      rw [executing, Function.update_apply] at at_v
      split at at_v
      · cases at_v
        exact absurd rfl running
      · rename_i apart
        have slot := pool_begun at_v own_on
        have different : own ≠ fiber := by
          rintro rfl
          exact apart (inv.single.once own v w (by rw [slot]; rfl) (by rw [begun]; rfl))
        rw [closed, Function.update_of_ne different]
        exact opened v place own at_v own_on running
    · have seen : turnEvent s (.thread w (.finish threw)) = some (.close w fiber) := by
        simp [turnEvent, begun]
      have after : t.ledger = ⟨s.pool, Function.update s.closed fiber true⟩ := by
        rw [ledger, pool, closed]
      rw [seen]
      change s.ledger.turn (.close w fiber) = some t.ledger
      rw [Ledger.turn_iff, after]
      exact .close begun (opened w here fiber executes on (by simp [inside]))
  exact taken

/-- `GetThis` may set the state of a main fiber only. -/
theorem getThis_closed (s : Control n F) (w : WorkerId n) : (s.getThis w).1.closed = s.closed := by
  funext fiber
  cases current : s.machine.current w with
  | some own => rw [getThis_known current]
  | none => simp [closed, getThis_fresh current]

theorem spawn_turn {created : Nat} (inv : Inv false trace s) (opened : Opened s)
    (executes : s.machine.executing none = some here)
    (at_owner : here.point = .owner (.starting created)) (inside : created < n) :
    Turns s (.thread none .spawn) { s with
      machine := (s.machine.move none (.owner (.starting (created + 1)))).setExecuting
        (some ⟨created, inside⟩) (some ⟨.main (some ⟨created, inside⟩), .begins, none⟩) } := by
  obtain ⟨_, on, _, _⟩ := inv.at_owner executes at_owner
  let thread : WorkerId n := some ⟨created, inside⟩
  let middle := s.move none (.owner (.starting (created + 1)))
  let t : Control n F :=
    { s with machine := middle.machine.setExecuting thread (some ⟨.main thread, .begins, none⟩) }
  have moves : middle.machine.executing = Function.update s.machine.executing none
      (some { here with point := .owner (.starting (created + 1)) }) :=
    move_executing s.machine none _ executes
  have absent := inv.created here _ executes at_owner ⟨created, inside⟩ (Nat.le_refl created)
  have moved : Turns s (.thread none .spawn) middle :=
    Turns.still opened rfl executes on (by simp [at_owner]) moves (by simp) rfl rfl
  have nobody : middle.pool.slot thread = .free := by
    rw [pool_update moves]
    simp [pool, thread, absent]
  have born : Turns middle (.thread none .spawn) t :=
    Turns.quiet moved.opened rfl rfl rfl rfl nobody.symm (by simp)
  have taken : Turns s (.thread none .spawn) t :=
    ⟨born.opened, Eq.trans born.follows moved.follows⟩
  exact taken

/-- Each step keeps the ledger, or is one turn in it. -/
theorem turn_step (inv : Inv false trace s) (opened : Opened s) (disciplined : Disciplined s e)
    (step : Step false s e t) : Turns s e t := by
  cases plain_step inv disciplined step
  case outside fiber resting => exact ⟨opened, push_turn fiber resting rfl rfl rfl⟩
  case owner here action pc after stopping executes on at_owner calls =>
    have silent : turnEvent s (.thread none action) = none := by
      simp only [List.mem_cons, List.not_mem_nil, or_false] at calls
      rcases calls with rfl | rfl | rfl | rfl | rfl | rfl | rfl <;> rfl
    exact Turns.still opened silent executes on (by simp [at_owner]) (move_executing _ _ _ executes)
      nofun rfl rfl
  case spawn executes at_owner inside => exact spawn_turn inv opened executes at_owner inside
  case begin i here executes on begins fresh =>
    have closed := getThis_closed s (some i)
    rw [getThis_fresh fresh] at closed ⊢
    exact Turns.still opened rfl executes on (by simp [begins]) (move_executing _ _ _ executes)
      nofun rfl closed
  case pop executes on at_lock back => exact pop_turn opened executes on at_lock back
  case popNull i here rest executes on at_lock back =>
    have silent : turnEvent s (.thread (some i) .take) = none := by
      simp [turnEvent, back]
    refine Turns.still opened silent executes on (by simp [at_lock]) (move_executing _ _ _ executes)
      nofun ?_ rfl
    simp only [back, pending_append, move]
    simp
  case nothing i here executes on at_lock empty _ =>
    have silent : turnEvent s (.thread (some i) .take) = none := by
      simp [turnEvent, empty]
    exact Turns.still opened silent executes on (by simp [at_lock]) (move_executing _ _ _ executes)
      nofun rfl rfl
  case loop executes on behind =>
    exact Turns.still opened rfl executes on (by simp [behind]) (move_executing _ _ _ executes)
      nofun rfl rfl
  case push i here fiber own executes on inside resting =>
    let t : Control n F := { s with fibers := s.fibers ++ [fiber] }.move (some i) .body
    have executing : t.machine.executing =
        Function.update s.machine.executing (some i) (some { here with point := .body }) :=
      move_executing _ _ _ executes
    have slots : t.pool.slot = s.pool.slot := by
      rw [pool_update executing, slotOf_moved_task on, ← pool_slot executes]
      exact Function.update_eq_self ..
    have taken : Turns s (.thread (some i) (.schedule fiber)) t := by
      refine ⟨opened.acted executing rfl ?_, push_turn fiber resting rfl slots rfl⟩
      intro other other_on _
      exact opened (some i) here other executes other_on (by simp [inside])
    exact taken
  case swapIn executes on serves held => exact swapIn_turn inv opened executes on serves held
  case leave executes on null _ | again executes on null _ =>
    exact Turns.still opened rfl executes on (by simp [null]) (move_executing _ _ _ executes)
      nofun rfl rfl
  case enter i here fiber executes on entry =>
    refine Turns.quiet opened rfl (move_executing _ _ _ executes) rfl rfl ?_ ?_
    · rw [pool_slot executes, slotOf_moved_task on]
    · intro other other_on _
      exact opened (some i) here other executes other_on (by simp [entry])
  case getThis w here executes =>
    have executing : (s.getThis w).1.machine.executing =
        Function.update s.machine.executing w (some here) := by
      rw [← executes, Function.update_eq_self]
      cases current : s.machine.current w with
      | some fiber => rw [getThis_known current]
      | none => rw [getThis_fresh current]
    refine Turns.quiet opened rfl executing ?_ (getThis_closed s w) (pool_slot executes).symm ?_
    · rfl
    · intro own own_on running
      exact opened w here own executes own_on running
  case yield i here fiber executes on inside carries =>
    have begun := pool_begun executes on
    have seen : turnEvent s (.thread (some i) .yield) = some (.pause (some i) fiber) := by
      simp [turnEvent, begun]
    have still_open := opened (some i) here fiber executes on (by simp [inside])
    exact swapOut_turn .body opened carries seen (.pause begun still_open)
  case finish threw executes on inside => exact finish_turn threw inv opened executes on inside
  case endMain i here fiber executes on ran carries =>
    have begun := pool_begun executes on
    have seen : turnEvent s (.thread (some i) .endMain) = some (.finish (some i) fiber) := by
      simp [turnEvent, begun]
    exact swapOut_turn .behind opened carries seen (.finish begun ran)

end Steps

section Runs

variable {trace : List (Control n F × Event n F)} {s : Control n F}

omit [DecidableEq F] in
theorem init_ledger : (init false : Control n F).ledger = TaskPool.fresh := by
  have slots : (init false : Control n F).pool.slot = fun _ => .free := by
    funext w
    cases w <;> rfl
  unfold ledger
  rw [← show (⟨(init false : Control n F).pool.pending, fun _ => .free⟩ :
    TaskPool.Pool (WorkerId n) F) = (init false : Control n F).pool by rw [← slots]]
  rfl

/-- The runs of the scheduler are runs of the ledger. -/
theorem run_turns (run : Run (next false) Disciplined (init false) trace s) :
    ∃ image, Run Ledger.turn anyStep TaskPool.fresh image s.ledger ∧
      events image = visible turnEvent trace := by
  rw [← init_ledger]
  refine run.simulate (I := fun s => (∃ trace, Inv false trace s) ∧ Opened s) ledger
    ⟨⟨[], init_inv false⟩, ?_⟩ ?_ ?_
  · intro w here fiber executes on
    cases w <;> cases executes
    cases on
  · rintro s e t ⟨⟨trace, inv⟩, opened⟩ disciplined step
    exact ⟨⟨_, inv_step inv disciplined (step_of_next step)⟩,
      (turn_step inv opened disciplined (step_of_next step)).opened⟩
  · rintro s e t ⟨⟨trace, inv⟩, opened⟩ disciplined step
    exact (turn_step inv opened disciplined (step_of_next step)).follows

theorem Joined.toState (joined : Joined s) : s.toState.Joined := by
  rcases joined with all | returned
  · left
    simp [Control.toState, ownerPc, all]
  · right
    right
    simp [Control.toState, ownerPc, returned]

/-- After the joins no thread has a fiber in hand. -/
theorem joined_free (inv : Inv false trace s) (drain : DrainInv s.toState) (joined : Joined s)
    (w : WorkerId n) : s.pool.slot w = .free := by
  cases executes : s.machine.executing w with
  | none => simp [pool, executes]
  | some here =>
    rw [pool_slot executes]
    have placed := inv.placed w here executes
    unfold Placed at placed
    cases w with
    | none =>
      obtain ⟨pc, at_owner⟩ : ∃ pc, here.point = .owner pc := by
        rcases joined with all | returned
        · exact ⟨_, by simpa [point, executes] using all⟩
        · exact ⟨_, by simpa [point, executes] using returned⟩
      rw [at_owner] at placed
      exact slotOf_main placed.2.1 (by simp [at_owner])
    | some i =>
      have left := joined_left drain joined.toState i
      rw [toState_worker executes] at left
      obtain ⟨stack, place, number⟩ := here
      cases stack <;> cases place <;> first | rfl | cases left

/-- The callback of a fiber calls `Yield` a number of times of its own and then ends. -/
structure Bodies (yields : F → Nat) (trace : List (Control n F × Event n F)) (s : Control n F) :
    Prop where
  within : ∀ fiber, (yielded trace).count fiber ≤ yields fiber
  ended : ∀ fiber, s.closed fiber = true → (yielded trace).count fiber = yields fiber

/-- When `stop` has joined its workers, a scheduled fiber has run to its end if and only if it
was scheduled more often than its callback yields. -/
theorem stop_finishes_iff (positive : 0 < n) (yields : F → Nat)
    (run : Run (next false) Tidy (init false) trace s) (bodies : Bodies yields trace s)
    (joined : Joined s) : ∀ fiber ∈ scheduled trace,
      ((s.state (.task fiber)).finished = true ↔ yields fiber < (scheduled trace).count fiber) := by
  intro fiber _
  have disciplined := run.mono fun _ _ tidy => tidy.1
  have drain := run_drains positive run
  obtain ⟨image, turns, same⟩ := run_turns disciplined
  have empty : s.ledger.pool.pending = 0 := by
    have queue : s.fibers = [] := joined_empty drain joined.toState
    simp [ledger, pool, queue]
  have idle := joined_free (run_inv disciplined) drain joined
  have counted := TaskPool.drained_turns turns empty idle fiber
  rw [same] at counted
  change (scheduled trace).count fiber = (yielded trace).count fiber +
    (if s.closed fiber then 1 else 0) at counted
  have within := bodies.within fiber
  have ended := bodies.ended fiber
  change s.closed fiber = true ↔ _
  cases ran : s.closed fiber with
  | true =>
    have exact_count := ended ran
    simp only [ran, ↓reduceIte] at counted
    simp only [true_iff]
    omega
  | false =>
    simp only [ran, Bool.false_eq_true, ↓reduceIte] at counted
    simp only [Bool.false_eq_true, false_iff]
    omega

end Runs

instance (s : Control n F) (e : Event n F) : Decidable (Timely s e) :=
  match e with
  | .outside fiber =>
    inferInstanceAs (Decidable (fiber ≠ none ∧ s.ownerPc.stopCalled = false))
  | .thread _ (.schedule fiber) => inferInstanceAs (Decidable (fiber ≠ none))
  | .thread _ .start | .thread _ .spawn | .thread _ .startReturns | .thread _ .stop
  | .thread _ .notifyAll | .thread _ .swapThreads | .thread _ .join | .thread _ .callRoot
  | .thread _ .stopReturns | .thread _ .begin | .thread _ .take | .thread _ .swapIn
  | .thread _ .loop | .thread _ .checkStopping | .thread _ .enter | .thread _ .getThis
  | .thread _ .yield | .thread _ (.finish _) | .thread _ .endMain | .thread _ .fallOff
  | .thread _ (.perform _) | .thread _ (.reset _) => inferInstanceAs (Decidable True)

instance (s : Control n F) (e : Event n F) : Decidable (Tidy s e) :=
  inferInstanceAs (Decidable (_ ∧ _))

/-- One worker swaps a fiber in, which yields. -/
def yieldsOnce : List (Event 1 Nat) :=
  [.thread none .start, .thread none .spawn, .thread none .startReturns, .outside (some 7),
    .thread (some 0) .begin, .thread (some 0) .take, .thread (some 0) .swapIn,
    .thread (some 0) .enter, .thread (some 0) .yield, .thread (some 0) .loop]

/-- The fiber is scheduled again and returns. -/
def resumesOnce : List (Event 1 Nat) :=
  [.outside (some 7), .thread (some 0) .take, .thread (some 0) .swapIn,
    .thread (some 0) (.finish false), .thread (some 0) .endMain, .thread (some 0) .loop]

/-- The queue is empty, the worker leaves and `stop` joins it. -/
def stops : List (Event 1 Nat) :=
  [.thread none .stop, .thread none .notifyAll, .thread (some 0) .take,
    .thread (some 0) .checkStopping, .thread none .swapThreads, .thread none .join]

theorem stop_finishes_resumed : ∃ (trace : List (Control 1 Nat × Event 1 Nat)) (s : Control 1 Nat),
    Run (next false) Tidy (init false) trace s ∧ scheduled trace = [7, 7] ∧ Joined s ∧
      (s.state (.task 7)).finished = true := by
  have run := Run.of_replay (show replay (guarded (next false) Tidy) (init false)
    (yieldsOnce ++ resumesOnce ++ stops) = some (_, _) from rfl)
  have finished := stop_finishes_iff (by decide) (fun fiber => [7].count fiber) run
    ⟨fun _ => Nat.le_refl _, fun _ _ => rfl⟩ (Or.inl rfl) 7 (by decide)
  exact ⟨_, _, run, rfl, Or.inl rfl, finished.mpr (by decide)⟩

/-- A fiber that yields once and is scheduled once never ends, and `stop` does not wait for it. -/
theorem stop_leaves_yielded : ∃ (trace : List (Control 1 Nat × Event 1 Nat)) (s : Control 1 Nat),
    Run (next false) Tidy (init false) trace s ∧ Bodies (fun fiber => [7].count fiber) trace s ∧
      scheduled trace = [7] ∧ Joined s ∧ (s.state (.task 7)).finished = false := by
  have run := Run.of_replay (show replay (guarded (next false) Tidy) (init false)
    (yieldsOnce ++ stops) = some (_, _) from rfl)
  refine ⟨_, _, run, ⟨fun _ => Nat.le_refl _, fun fiber ran => ?_⟩, rfl, Or.inl rfl, rfl⟩
  cases ran

end ZnetServer.Scheduler.Control
