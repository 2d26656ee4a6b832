import ZnetServer.SchedulerContext

set_option autoImplicit false

/- What `getState` tells of a fiber, and what has happened to the fiber. -/
namespace ZnetServer.Scheduler.Control

open ZnetServer.Fiber Transition

variable {n : Nat} {F : Type}

/-- The fiber on whose stack a thread executes. -/
def stackOf (s : Control n F) (w : WorkerId n) : Option (FiberId n F) :=
  (s.machine.executing w).map Context.stack

/-- Neither a callback nor `MainFunc`. -/
def OffFiber (point : Point F) : Prop :=
  point ≠ .entry ∧ point ≠ .body ∧ point ≠ .ended ∧ point ≠ .behind

/-- No fiber has been swapped in. -/
structure Idle (s : Control n F) : Prop where
  state : ∀ fiber, s.state (.task fiber) = .init
  places : ∀ w here, s.machine.executing w = some here →
    (∃ v, here.stack = .main v) ∧ OffFiber here.point

variable [DecidableEq F]

/-- The state that a step asks for: EXEC at `swapIn`, HOLD at `Yield`, TERM or EXCEPT when the
callback is over, INIT at `reset`. -/
def stage (fiber : F) (s : Control n F) : Event n F → Option FiberState
  | .thread w .swapIn => if s.point w = some (.popped fiber) then some .exec else none
  | .thread w .yield => if s.stackOf w = some (.task fiber) then some .hold else none
  | .thread w (.finish threw) =>
    if s.stackOf w = some (.task fiber) then some (if threw then .except else .term) else none
  | .thread _ (.reset other) => if other = .task fiber then some .init else none
  | _ => none

/-- The state that a fiber should be in. -/
def life (fiber : F) (trace : List (Control n F × Event n F)) : FiberState :=
  trace.foldl (fun state step => (stage fiber step.1 step.2).getD state) .init

/-- Only the scheduler swaps fibers in, only callbacks yield, and a fiber is reset while no
thread executes it. -/
def Served (s : Control n F) : Event n F → Prop
  | .thread _ (.perform _) => False
  | .thread w .yield => s.point w = some .body
  | .thread _ (.reset fiber) => ∀ w, s.stackOf w ≠ some fiber
  | _ => True

/-- Each fiber is in the state that it should be in. -/
def Truthful (trace : List (Control n F × Event n F)) (s : Control n F) : Prop :=
  ∀ fiber, s.state (.task fiber) = life fiber trace

def Swaps : Event n F → Prop
  | .thread _ .swapIn => True
  | _ => False

section States

variable {userCaller : Bool} {s t : Control n F} {e : Event n F}

theorem getThis_state (s : Control n F) (w : WorkerId n) (fiber : F) :
    (s.getThis w).1.state (.task fiber) = s.state (.task fiber) := by
  simp only [getThis]
  split
  · exact Function.update_of_ne (by simp) ..
  · rfl

theorem callbackEnds_state (s : Control n F) (w : WorkerId n) (stack : FiberId n F) (threw : Bool)
    (fiber : F) : (s.callbackEnds w stack threw).state (.task fiber) = s.state (.task fiber) ∨
      (s.callbackEnds w stack threw).state (.task fiber) = if threw then .except else .term := by
  unfold callbackEnds
  split
  · rename_i own _
    by_cases same : own = .task fiber
    · right
      subst same
      exact Function.update_self ..
    · left
      exact Function.update_of_ne (Ne.symm same) ..
  · exact Or.inl rfl

/-- The state of a fiber changes only where its callback is over. -/
theorem Step.state_task (step : Step userCaller s e t) (fiber : F) :
    t.state (.task fiber) = s.state (.task fiber) ∨
      ∃ threw : Bool, t.state (.task fiber) = if threw then .except else .term := by
  cases step with
  | runEnds => exact (callbackEnds_state s _ _ false fiber).imp_right fun ends => ⟨false, ends⟩
  | finish threw => exact (callbackEnds_state s _ _ threw fiber).imp_right fun ends => ⟨threw, ends⟩
  | @enterNone w =>
      refine (callbackEnds_state _ w _ true fiber).imp (fun kept => ?_) fun ends => ⟨true, ends⟩
      exact kept.trans (getThis_state s w fiber)
  | @begin w | @enterRoot w | @enter w | @getThis w | @yield w =>
      exact Or.inl (getThis_state s w fiber)
  | _ => exact Or.inl rfl

theorem never_exec {trace : List (Control n F × Event n F)}
    (run : Run (next userCaller) Served (init userCaller) trace s) (fiber : F) :
    s.state (.task fiber) ≠ .exec := by
  apply run.invariant (I := fun s => s.state (.task fiber) ≠ .exec)
  · exact fun same => by cases same
  · intro s e t before _ step
    rcases (step_of_next step).state_task fiber with kept | ⟨threw, ends⟩
    · rwa [kept]
    · rw [ends]
      split <;> exact fun same => by cases same

omit [DecidableEq F] in
theorem init_idle : Idle (init false : Control n F) := by
  refine ⟨fun _ => rfl, fun w here executes => ?_⟩
  cases w with
  | none =>
      obtain rfl := Option.some.inj executes
      exact ⟨⟨none, rfl⟩, by simp [OffFiber]⟩
  | some i => cases executes

omit [DecidableEq F] in
theorem Walk.offFiber {action : Act n F} {place point : Point F} {fibers : List (Option F)}
    {stopping : Bool} (walks : Walk s place action fibers stopping point)
    (off_fiber : OffFiber place) : OffFiber point := by
  cases walks with
  | push inside => exact absurd inside off_fiber.2.1
  | _ => simp [OffFiber]

omit [DecidableEq F] in
/-- One thread goes on at a place of `run` or of its caller. -/
theorem Idle.moved (idle : Idle s) {w : WorkerId n} {there : Context (FiberId n F) (Point F)}
    (state : ∀ fiber, t.state (.task fiber) = s.state (.task fiber))
    (executing : t.machine.executing = Function.update s.machine.executing w (some there))
    (on_thread : ∃ v, there.stack = .main v) (off_fiber : OffFiber there.point) : Idle t := by
  refine ⟨fun fiber => (state fiber).trans (idle.state fiber), fun v here executes => ?_⟩
  rw [executing, Function.update_apply] at executes
  split at executes
  · obtain rfl := Option.some.inj executes
    exact ⟨on_thread, off_fiber⟩
  · exact idle.places v here executes

omit [DecidableEq F] in
theorem Idle.move (idle : Idle s) {w : WorkerId n} {here : Context (FiberId n F) (Point F)}
    (executes : s.machine.executing w = some here) {point : Point F}
    (off_fiber : OffFiber point) : Idle (s.move w point) :=
  have on_thread := (idle.places w here executes).1
  idle.moved (fun _ => rfl) (move_executing _ _ _ executes) on_thread off_fiber

theorem getThis_executing (s : Control n F) (w : WorkerId n) :
    (s.getThis w).1.machine.executing = s.machine.executing := by
  simp only [getThis, Machine.getThis]
  split <;> rfl

theorem Idle.step (idle : Idle s) (served : Served s e) (none_swapped : ¬ Swaps e)
    (step : Step false s e t) : Idle t := by
  have at_place : ∀ {w : WorkerId n} {here : Context (FiberId n F) (Point F)},
      s.machine.executing w = some here → OffFiber here.point :=
    fun executes => (idle.places _ _ executes).2
  cases step with
  | outside => exact ⟨idle.state, idle.places⟩
  | @walk _ _ _ fibers stopping _ executes walks =>
      have queued : Idle { s with fibers := fibers, stopping := stopping } :=
        ⟨idle.state, idle.places⟩
      exact queued.move executes (walks.offFiber (at_place executes))
  | @spawn _ _ created executes at_owner inside =>
      have owner : OffFiber (.owner (.starting (created + 1)) : Point F) := by simp [OffFiber]
      have first := idle.move executes owner
      exact first.moved (fun _ => rfl) rfl ⟨_, rfl⟩ (by simp [OffFiber])
  | callRoot _ _ caller => cases caller
  | beginRoot _ _ caller => cases caller
  | @begin w here executes =>
      have same := getThis_executing s w
      have entered : Idle { (s.getThis w).1 with
          machine := (s.getThis w).1.machine.setScheduler w (s.getThis w).2 } := by
        refine ⟨fun fiber => (getThis_state s w fiber).trans (idle.state fiber), ?_⟩
        intro v there executing
        exact idle.places v there ((congrFun same v).symm.trans executing)
      exact entered.move ((congrFun same w).trans executes) (by simp [OffFiber])
  | swapIn => exact absurd trivial none_swapped
  | leave executes | again executes => exact idle.move executes (by simp [OffFiber])
  | runEnds executes _ _ on_fiber =>
      obtain ⟨v, on_thread⟩ := (idle.places _ _ executes).1
      exact absurd on_thread (on_fiber v)
  | enterRoot executes entry | enter executes entry | enterNone executes entry =>
      exact absurd entry (at_place executes).1
  | @getThis w =>
      refine ⟨fun fiber => (getThis_state s w fiber).trans (idle.state fiber), ?_⟩
      rw [getThis_executing]
      exact idle.places
  | @yield w here executes =>
      have inside : some here.point = some .body := by
        rw [← served, point, executes, Option.map_some]
      exact absurd (Option.some.inj inside) (at_place executes).2.1
  | finish _ executes inside => exact absurd inside (at_place executes).2.1
  | endMain executes ended | endLost executes ended => exact absurd ended (at_place executes).2.2.1
  | fallOff executes behind => exact absurd behind (at_place executes).2.2.2
  | perform => exact served.elim
  | reset => exact ⟨idle.state, idle.places⟩

end States

section Lives

variable {s : Control n F} {e : Event n F} {trace : List (Control n F × Event n F)}

theorem life_snoc (fiber : F) : life fiber (trace ++ [(s, e)]) =
    (stage fiber s e).getD (life fiber trace) := by
  rw [life, List.foldl_append]
  rfl

/-- While no fiber is swapped in, no life goes on. -/
theorem Idle.stage (idle : Idle s) (none_swapped : ¬ Swaps e) (fiber : F) :
    stage fiber s e = none ∨ stage fiber s e = some .init := by
  have on_thread : ∀ w, s.stackOf w ≠ some (.task fiber) := by
    intro w same
    obtain ⟨here, executes, on_task⟩ := Option.map_eq_some_iff.mp same
    obtain ⟨v, on_main⟩ := (idle.places w here executes).1
    rw [on_main] at on_task
    cases on_task
  unfold Control.stage
  split
  · exact absurd trivial none_swapped
  · exact Or.inl (if_neg (on_thread _))
  · exact Or.inl (if_neg (on_thread _))
  · split
    · exact Or.inr rfl
    · exact Or.inl rfl
  · exact Or.inl rfl

theorem idle_truthful (run : Run (next false) Served (init false) trace s)
    (none_swapped : ∀ step ∈ trace, ¬ Swaps step.2) : Truthful trace s := by
  have both := run.invariant_trace (I := fun trace s => (∀ step ∈ trace, ¬ Swaps step.2) →
    Idle s ∧ ∀ fiber, life fiber trace = .init) (fun _ => ⟨init_idle, fun _ => rfl⟩) ?_
  · intro fiber
    rw [(both none_swapped).1.state, (both none_swapped).2]
  · intro trace s e t before served step quiet
    rw [List.forall_mem_append, List.forall_mem_singleton] at quiet
    obtain ⟨idle, lives⟩ := before quiet.1
    refine ⟨idle.step served quiet.2 (step_of_next step), fun fiber => ?_⟩
    rw [life_snoc, lives]
    rcases idle.stage quiet.2 fiber with same | same <;> rw [same] <;> rfl

/-- Behind `swapIn` the fiber is executing and its state is not EXEC. -/
theorem swapIn_untruthful {t : Control n F}
    (run : Run (next false) Served (init false) (trace ++ [(s, e)]) t) (swaps : Swaps e) :
    ¬ Truthful (trace ++ [(s, e)]) t := by
  intro truthful
  cases step_of_next run.of_snoc.2.2 with
  | walk executes walks =>
      cases walks with
      | owner _ _ calls =>
          simp only [List.mem_cons, List.not_mem_nil, or_false] at calls
          rcases calls with rfl | rfl | rfl | rfl | rfl | rfl | rfl <;> exact swaps
      | _ => exact swaps
  | @swapIn w here fiber executes held =>
      have at_place : s.point w = some (.popped fiber) := by
        rw [point, executes, Option.map_some, held]
      have executing : life fiber (trace ++ [(s, .thread w .swapIn)]) = .exec := by
        rw [life_snoc, Control.stage, if_pos at_place, Option.getD_some]
      exact never_exec run fiber ((truthful fiber).trans executing)
  | _ => exact swaps

end Lives

/-- In the states of a run each fiber is in the state that its life asks for just if no step of
the run swaps a fiber in. -/
theorem state_follows_life_iff {trace : List (Control n F × Event n F)} {s : Control n F}
    (run : Run (next false) Served (init false) trace s) :
    (∀ front middle, front <+: trace → Run (next false) Served (init false) front middle →
      Truthful front middle) ↔ ∀ step ∈ trace, ¬ Swaps step.2 := by
  constructor
  · intro truthful step member swaps
    obtain ⟨front, back, rfl⟩ := List.append_of_mem member
    rw [List.append_cons] at run
    obtain ⟨middle, before, _⟩ := run.split
    exact swapIn_untruthful before swaps (truthful _ _ ⟨back, by simp⟩ before)
  · intro none_swapped front middle earlier before
    exact idle_truthful before fun step member => none_swapped step (earlier.subset member)

instance (s : Control n F) (e : Event n F) : Decidable (Served s e) :=
  match e with
  | .outside _ => inferInstanceAs (Decidable True)
  | .thread _ (.perform _) => inferInstanceAs (Decidable False)
  | .thread w .yield => inferInstanceAs (Decidable (s.point w = some .body))
  | .thread _ (.reset fiber) => inferInstanceAs (Decidable (∀ w, s.stackOf w ≠ some fiber))
  | .thread _ .start | .thread _ .spawn | .thread _ .startReturns | .thread _ .stop
  | .thread _ .notifyAll | .thread _ .swapThreads | .thread _ .join | .thread _ .callRoot
  | .thread _ .stopReturns | .thread _ .begin | .thread _ .take | .thread _ .swapIn
  | .thread _ .loop | .thread _ .checkStopping | .thread _ .enter | .thread _ .getThis
  | .thread _ (.finish _) | .thread _ .endMain | .thread _ .fallOff | .thread _ (.schedule _) =>
    inferInstanceAs (Decidable True)

instance (e : Event n F) : Decidable (Swaps e) :=
  match e with
  | .thread _ .swapIn => inferInstanceAs (Decidable True)
  | .outside _ | .thread _ .start | .thread _ .spawn | .thread _ .startReturns | .thread _ .stop
  | .thread _ .notifyAll | .thread _ .swapThreads | .thread _ .join | .thread _ .callRoot
  | .thread _ .stopReturns | .thread _ .begin | .thread _ .take | .thread _ (.perform _)
  | .thread _ .loop | .thread _ .checkStopping | .thread _ .enter | .thread _ .getThis
  | .thread _ (.finish _) | .thread _ .endMain | .thread _ .fallOff | .thread _ (.schedule _)
  | .thread _ .yield | .thread _ (.reset _) => inferInstanceAs (Decidable False)

/-- A worker pops a fiber. -/
def popsOne : List (Event 1 Nat) :=
  [.thread none .start, .thread none .spawn, .thread none .startReturns, .outside (some 7),
    .thread soleWorker .begin, .thread soleWorker .take]

theorem state_follows_life_popped : ∃ (trace : List (Control 1 Nat × Event 1 Nat))
    (s : Control 1 Nat), s.point soleWorker = some (.popped 7) ∧ Truthful trace s := by
  have run := Run.of_replay (show replay (guarded (next false) Served) (init false) popsOne =
    some (_, _) from rfl)
  exact ⟨_, _, rfl, (state_follows_life_iff run).mpr (by decide) _ _ List.prefix_rfl run⟩

/-- A fiber that is executing is in state INIT. -/
theorem executing_in_init : ∃ (trace : List (Control 1 Nat × Event 1 Nat)) (s : Control 1 Nat),
    Run (next false) Served (init false) trace s ∧ s.stackOf soleWorker = some (.task 7) ∧
      life 7 trace = .exec ∧ s.state (.task 7) = .init := by
  have run := Run.of_replay (show replay (guarded (next false) Served) (init false)
    (popsOne ++ [.thread soleWorker .swapIn]) = some (_, _) from rfl)
  exact ⟨_, _, run, rfl, by decide, by decide⟩

end ZnetServer.Scheduler.Control
