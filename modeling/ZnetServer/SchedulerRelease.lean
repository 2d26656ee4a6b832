import ZnetServer.SchedulerCalls

set_option autoImplicit false

/- The reference counts against the owners, and the fibers that are never destroyed. -/
namespace ZnetServer.Scheduler.Owned

open ZnetServer.Fiber ReferenceCount Transition

variable {n : Nat} {F : Type}

section Tallies

variable [DecidableEq F] {s t : Owned n F} {w v : WorkerId n} {fiber : F}
  {here : Context (FiberId n F) (Point F)}

/-- The reference counts are the numbers of the owners. -/
def Tallied (s : Owned n F) : Prop := s.counts.Exact s.owners

theorem Tallied.setControl {control : Control n F} (tallied : s.Tallied)
    (fibers : control.fibers = s.control.fibers) : (s.setControl control).Tallied := by
  apply tallied.same
  intro other
  show control.fibers.count (some other) + _ + _ + _ = _
  rw [fibers]
  rfl

theorem Tallied.held_alive (tallied : s.Tallied) (full : s.held w = some fiber) :
    s.counts.freed fiber = false := by
  have held := holding_pos full
  apply (tallied.alive _).2
  unfold owners
  omega

theorem Tallied.handle_alive (tallied : s.Tallied) (handles : 0 < s.handles fiber) :
    s.counts.freed fiber = false := by
  apply (tallied.alive _).2
  unfold owners
  omega

theorem Tallied.addHandle (tallied : s.Tallied) (alive : s.counts.freed fiber = false) :
    (s.addHandle fiber).Tallied := by
  apply tallied.acquire alive
  intro other
  have handles : (s.addHandle fiber).handles other = s.handles other + one fiber other := by
    show Function.update s.handles fiber (s.handles fiber + 1) other = _
    rw [Function.update_apply, one]
    split
    · rename_i same
      rw [same]
    · rfl
  show s.control.fibers.count (some other) + holding s.held other +
    (s.addHandle fiber).handles other + (s.frames.map Prod.snd).count other = _
  rw [handles]
  unfold owners
  omega

theorem Tallied.unwind (tallied : s.Tallied) (frame : Frame n F) : (s.unwind frame).Tallied := by
  unfold Owned.unwind
  split
  · rename_i entry found
    apply tallied.release
    intro other
    have fewer := count_erase (List.mem_of_find?_eq_some found) other
    unfold owners
    dsimp only
    omega
  · exact tallied

/-- A pointer joins the queue. -/
theorem Tallied.queued {control : Control n F} (tallied : s.Tallied)
    (alive : s.counts.freed fiber = false)
    (fibers : control.fibers = s.control.fibers ++ [some fiber]) :
    (({ s with counts := s.counts.acquire fiber } : Owned n F).setControl control).Tallied := by
  apply tallied.acquire alive
  intro other
  show control.fibers.count (some other) + holding s.held other + s.handles other +
    (s.frames.map Prod.snd).count other = _
  rw [fibers, count_snoc, ones_some]
  unfold owners
  omega

theorem Tallied.call {i : Fin n} (tallied : s.Tallied) (carries : s.Carries i fiber)
    (executes : s.control.machine.executing (some i) = some here)
    (on_task : here.stack = .task fiber) (frame : FiberId n F → Frame n F) :
    (s.call (some i) frame).Tallied := by
  rw [carries.call executes on_task]
  apply tallied.acquire (tallied.held_alive carries.full)
  intro other
  show s.control.fibers.count (some other) + holding s.held other + s.handles other +
    (fiber :: s.frames.map Prod.snd).count other = _
  rw [count_cons]
  unfold owners
  omega

theorem Tallied.drop (tallied : s.Tallied) (handles : 0 < s.handles fiber) :
    Tallied { s with
      counts := s.counts.release fiber
      handles := Function.update s.handles fiber (s.handles fiber - 1) } := by
  apply tallied.release
  intro other
  have fewer : Function.update s.handles fiber (s.handles fiber - 1) other + one fiber other =
      s.handles other := by
    rw [Function.update_apply, one]
    split
    · rename_i same
      rw [same]
      omega
    · rfl
  show s.control.fibers.count (some other) + holding s.held other +
    Function.update s.handles fiber (s.handles fiber - 1) other +
    (s.frames.map Prod.snd).count other + _ = _
  unfold owners
  omega

/-- The worker copies the last pointer of the queue into its local. -/
theorem Tallied.popped {control : Control n F} {rest : List (Option F)} (tallied : s.Tallied)
    (empty : s.held w = none) (back : s.control.fibers = rest ++ [some fiber])
    (fibers : control.fibers = rest) :
    ((s.account (.thread w .take)).setControl control).Tallied := by
  rw [account_pop back]
  have queued : ∀ other, s.control.fibers.count (some other) =
      rest.count (some other) + one fiber other := by
    intro other
    rw [back, count_snoc, ones_some]
  apply tallied.handOver
  · have mine := queued fiber
    rw [one_same] at mine
    unfold owners
    omega
  · intro other
    have taken := holding_update s.held w (some fiber) other
    have moved := queued other
    rw [empty, ones_none, ones_some] at taken
    show control.fibers.count (some other) +
      holding (Function.update s.held w (some fiber)) other + s.handles other +
      (s.frames.map Prod.snd).count other = _
    rw [fibers]
    unfold owners
    omega

/-- The local goes at the end of an iteration. -/
theorem Tallied.loops {control : Control n F} (tallied : s.Tallied)
    (fibers : control.fibers = s.control.fibers) :
    ((s.account (.thread w .loop)).setControl control).Tallied := by
  apply Tallied.setControl _
  · rw [fibers]
    simp only [account]
    split <;> rfl
  · simp only [account]
    split
    · rename_i fiber full
      apply tallied.release
      intro other
      have left := holding_update s.held w none other
      rw [full, ones_none, ones_some] at left
      show s.control.fibers.count (some other) +
        holding (Function.update s.held w none) other + s.handles other +
        (s.frames.map Prod.snd).count other + _ = _
      unfold owners
      omega
    · exact tallied

/-- A call of `schedule` by a user that has the pointer. -/
theorem Tallied.schedules {control : Control n F} (tallied : s.Tallied) (scheduled : Option F)
    (permitted : scheduled.all (fun fiber => 0 < s.handles fiber))
    (fibers : control.fibers = s.control.fibers ++ [scheduled]) :
    ((s.account (.outside scheduled)).setControl control).Tallied := by
  cases scheduled with
  | some fiber =>
      exact tallied.queued (tallied.handle_alive (of_decide_eq_true permitted)) fibers
  | none =>
      apply tallied.same
      intro other
      show control.fibers.count (some other) + holding s.held other + s.handles other +
        (s.frames.map Prod.snd).count other = _
      rw [fibers, count_snoc, ones_none]
      rfl

theorem Tallied.walk {act : Control.Act n F} {fibers : List (Option F)} {stopping : Bool}
    {point : Point F} (tallied : s.Tallied) (coherent : s.Coherent)
    (permitted : (passed (.thread w act)).all fun fiber => 0 < s.handles fiber)
    (executes : s.control.machine.executing w = some here)
    (walks : Control.Walk s.control here.point act fibers stopping point) :
    Tallied ((s.account (.thread w act)).setControl
      ({ s.control with fibers := fibers, stopping := stopping }.move w point)) := by
  cases walks with
  | owner _ _ calls =>
      simp only [List.mem_cons, List.not_mem_nil, or_false] at calls
      rcases calls with rfl | rfl | rfl | rfl | rfl | rfl | rfl <;> exact tallied.setControl rfl
  | pop at_lock back =>
      obtain ⟨i, _, _, inside, _⟩ := coherent.in_run executes (by simp [at_lock])
      rw [at_lock] at inside
      cases inside with
      | locking _ empty => exact tallied.popped empty back rfl
  | popNull at_lock back =>
      rw [account_popNull (by simp [back])]
      apply tallied.same
      intro other
      unfold owners
      rw [back, count_snoc, ones_none]
      rfl
  | nothing at_lock empty =>
      rw [account_popNull (by simp [empty])]
      exact tallied.setControl rfl
  | loop => exact tallied.loops rfl
  | @push scheduled =>
      have same : s.account (.thread w (.schedule scheduled)) = s.account (.outside scheduled) := by
        cases scheduled <;> rfl
      rw [same]
      exact tallied.schedules scheduled permitted rfl

@[simp] theorem unwind_control (frame : Frame n F) : (s.unwind frame).control = s.control := by
  unfold Owned.unwind
  split <;> rfl

theorem callbackEnds_fibers (c : Control n F) (w : WorkerId n) (stack : FiberId n F)
    (threw : Bool) : (c.callbackEnds w stack threw).fibers = c.fibers := by
  unfold Control.callbackEnds
  split <;> rfl

theorem getThis_fibers (c : Control n F) (w : WorkerId n) : (c.getThis w).1.fibers = c.fibers := by
  simp only [Control.getThis]

theorem Tallied.swapsIn {control : Control n F} (tallied : s.Tallied)
    (fibers : control.fibers = s.control.fibers) :
    ((s.account (.thread w .swapIn)).setControl control).Tallied := by
  simp only [account]
  split
  · split
    · exact (tallied.unwind _).setControl (by rw [unwind_control, fibers])
    · exact tallied.setControl fibers
  · exact tallied.setControl fibers

theorem Tallied.getsThis (tallied : s.Tallied) (coherent : s.Coherent)
    (executes : s.control.machine.executing w = some here) (user : here.point.user = true) :
    ((s.account (.thread w .getThis)).setControl (s.control.getThis w).1).Tallied := by
  cases place : here.point with
  | body =>
      obtain ⟨i, other, rfl, _, carries, _⟩ := coherent.in_main executes (by simp [place])
      have handed : s.account (.thread (some i) .getThis) = s.addHandle other := by
        simp [account, carries.this.2]
      rw [carries.this.1, handed]
      exact (tallied.addHandle (tallied.held_alive carries.full)).setControl rfl
  | owner pc =>
      obtain ⟨rfl, _, current⟩ := coherent.owner_at executes place
      have kept : s.account (.thread none .getThis) = s := by
        simp [account, Owned.this, (getThis_main current).1]
      rw [kept]
      exact tallied.setControl (getThis_fibers _ _)
  | _ =>
      rw [place] at user
      cases user

theorem Tallied.step {e : Control.Event n F} {control : Control n F} (tallied : s.Tallied)
    (coherent : s.Coherent) (served : Control.Served s.control e)
    (permitted : (passed e).all fun fiber => 0 < s.handles fiber)
    (step : Control.Step false s.control e control) :
    ((s.account e).setControl control).Tallied := by
  cases step with
  | outside scheduled => exact tallied.schedules scheduled permitted rfl
  | walk executes walks => exact tallied.walk coherent permitted executes walks
  | spawn | callRoot | beginRoot | leave | again | endMain | endLost | perform | reset =>
      exact tallied.setControl rfl
  | @begin w => exact tallied.setControl (getThis_fibers s.control w)
  | finish | runEnds => exact tallied.setControl (callbackEnds_fibers ..)
  | swapIn executes held => exact tallied.swapsIn rfl
  | enterRoot executes entry this | enterNone executes entry this =>
      obtain ⟨i, other, rfl, _, carries, _⟩ := coherent.in_main executes (by simp [entry])
      rw [carries.this.1] at this
      cases this
  | @enter w here fiber executes entry this =>
      obtain ⟨i, other, rfl, on_task, carries, _⟩ := coherent.in_main executes (by simp [entry])
      apply (tallied.call carries executes on_task .mainFunc).setControl
      rw [carries.call executes on_task, carries.this.1]
      rfl
  | getThis executes user => exact tallied.getsThis coherent executes user
  | @yield w here executes =>
      obtain ⟨i, other, rfl, on_task, carries, _⟩ :=
        coherent.in_main executes (by simp [body_of_yield served executes])
      apply (tallied.call carries executes on_task .yield).setControl
      rw [carries.call executes on_task, carries.this.1]
      rfl
  | @fallOff w here executes behind =>
      have returned : s.account (.thread w .fallOff) = s.unwind (.mainFunc here.stack) := by
        simp [account, Control.stackOf, executes]
      rw [returned]
      exact (tallied.unwind _).setControl (by rw [unwind_control]; rfl)

theorem tallied_next {e : Event n F} (tallied : s.Tallied) (coherent : s.Coherent)
    (served : Served s e) (step : s.next e = some t) : t.Tallied ∧ t.Coherent := by
  cases e with
  | create fiber =>
      simp only [next] at step
      split at step
      · rename_i fresh
        obtain rfl := Option.some.inj step
        exact ⟨tallied.addHandle fresh.2, coherent.apart rfl rfl rfl⟩
      · cases step
  | copy fiber =>
      simp only [next] at step
      split at step
      · rename_i handles
        obtain rfl := Option.some.inj step
        exact ⟨tallied.addHandle (tallied.handle_alive handles), coherent.apart rfl rfl rfl⟩
      · cases step
  | drop fiber =>
      simp only [next] at step
      split at step
      · rename_i handles
        obtain rfl := Option.some.inj step
        exact ⟨tallied.drop handles, coherent.apart rfl rfl rfl⟩
      · cases step
  | step e =>
      simp only [next] at step
      split at step
      · rename_i permitted
        obtain ⟨control, stepped, rfl⟩ := Option.map_eq_some_iff.mp step
        exact ⟨tallied.step coherent served permitted (Control.step_of_next stepped),
          coherent.step served stepped⟩
      · cases step

omit [DecidableEq F] in
theorem init_coherent : (init : Owned n F).Coherent := by
  refine ⟨fun w here executes => ?_, fun fiber => ⟨rfl, Or.inl rfl⟩, .built, rfl, fun i _ => ?_⟩
  · cases w with
    | none =>
        obtain rfl := Option.some.inj executes
        exact .owner fun fiber known => by cases known
    | some i => cases executes
  · exact ⟨rfl, rfl, rfl⟩

theorem init_tallied : (init : Owned n F).Tallied := by
  apply Counts.none_exact.same
  intro fiber
  simp [owners, init, Control.init, holding]

theorem run_tallied {trace : List (Owned n F × Event n F)} (run : Run next Served init trace s) :
    s.Tallied ∧ s.Coherent :=
  run.invariant ⟨init_tallied, init_coherent⟩
    fun _ _ _ before served step => tallied_next before.1 before.2 served step

omit [DecidableEq F] in
/-- The `cur` of `MainFunc` is never destroyed on the stack of a fiber that has switched away
at its end. -/
theorem Over.called (done : s.Over fiber) (coherent : s.Coherent) :
    (Frame.mainFunc (.task fiber), fiber) ∈ s.frames := by
  rcases (coherent.saved fiber).point with entry | ⟨_, _, called | ⟨w, _, full⟩⟩
  · rw [done.behind] at entry
    cases entry
  · exact called
  · exact absurd full (done.unheld w)

end Tallies

/-- A finished fiber that nobody can reach is never destroyed. -/
theorem never_released [DecidableEq F] {trace : List (Owned n F × Event n F)} {s : Owned n F}
    (run : Run next Served init trace s) {fiber : F} (done : s.Over fiber) :
    s.counts.count fiber ≠ 0 ∧ s.counts.freed fiber = false := by
  obtain ⟨tallied, coherent⟩ := run_tallied run
  have called : fiber ∈ s.frames.map Prod.snd := List.mem_map_of_mem (done.called coherent)
  have counted := List.count_pos_iff.mpr called
  apply tallied.alive
  unfold owners
  omega

/-- A fiber is scheduled, the user drops its pointer, and the worker executes it to its end. -/
def finishesOne : List (Event 1 Nat) :=
  [.create 7, .step (.thread none .start), .step (.thread none .spawn),
    .step (.thread none .startReturns), .step (.outside (some 7)), .drop 7,
    .step (.thread soleWorker .begin), .step (.thread soleWorker .take),
    .step (.thread soleWorker .swapIn), .step (.thread soleWorker .enter),
    .step (.thread soleWorker (.finish false)), .step (.thread soleWorker .endMain),
    .step (.thread soleWorker .loop)]

theorem never_released_one : ∃ s : Owned 1 Nat, s.Over 7 ∧
    s.counts.count 7 ≠ 0 ∧ s.counts.freed 7 = false := by
  have run := Run.of_replay (show replay (guarded next Served) init finishesOne = some (_, _)
    from rfl)
  refine ⟨_, ?done, never_released run ?done⟩
  exact ⟨rfl, rfl, by decide, by decide, by decide, rfl⟩

/-- Its count stays at one. -/
theorem finished_fiber_leaks : ∃ (trace : List (Owned 1 Nat × Event 1 Nat)) (s : Owned 1 Nat),
    Run next Served init trace s ∧ s.Over 7 ∧ s.counts.count 7 = 1 := by
  have run := Run.of_replay (show replay (guarded next Served) init finishesOne = some (_, _)
    from rfl)
  exact ⟨_, _, run, ⟨rfl, rfl, by decide, by decide, by decide, rfl⟩, rfl⟩

end ZnetServer.Scheduler.Owned
