import ZnetServer.SchedulerFrames

set_option autoImplicit false

/- Each step of the program keeps the places of the threads and the calls together. -/
namespace ZnetServer.Scheduler.Owned

open ZnetServer.Fiber ReferenceCount

variable {n : Nat} {F : Type} {s t : Owned n F} {w v : WorkerId n} {fiber : F}
  {here : Context (FiberId n F) (Point F)}

/-- `GetThis` on a thread that is not in a fiber. -/
structure Knows (c d : Control n F) (w : WorkerId n) : Prop where
  executing : d.machine.executing = c.machine.executing
  current : d.machine.current = Function.update c.machine.current w (some (.main w))
  scheduler : d.machine.scheduler = c.machine.scheduler
  saved : ∀ other, other ≠ .main w → d.machine.saved other = c.machine.saved other
  cur : d.cur = c.cur

theorem Coherent.begins {i : Fin n} {c : Control n F} (coherent : s.Coherent)
    (executes : s.control.machine.executing (some i) = some here)
    (on_main : here.stack = .main (some i)) (empty : s.held (some i) = none)
    (knows : Knows s.control c (some i)) :
    Coherent (s.setControl
      ({ c with machine := c.machine.setScheduler (some i) (.main (some i)) }.move (some i)
        .locking)) := by
  have there := (congrFun knows.executing (some i)).trans executes
  have moved := move_executing (c.machine.setScheduler (some i) (.main (some i))) (some i)
    (.locking : Point F) there
  have acts : Acts s (s.setControl
      ({ c with machine := c.machine.setScheduler (some i) (.main (some i)) }.move (some i)
        .locking)) (some i) := by
    constructor
    · exact fun _ => empty
    · intro v apart
      exact (congrFun moved v).trans ((Function.update_of_ne apart ..).trans
        (congrFun knows.executing v))
    · intro v apart
      exact (congrFun knows.current v).trans (Function.update_of_ne apart ..)
    · intro v apart
      exact (Function.update_of_ne apart ..).trans (congrFun knows.scheduler v)
    · exact fun _ _ => rfl
    · exact fun v apart => knows.saved _ (by simpa using apart)
    · exact fun fiber entered => (congrFun knows.cur _).trans entered
    · exact fun _ called => Or.inl called
  apply coherent.acts acts (by simp [executes])
  · exact fun fiber => acts.saved (coherent.saved fiber) (knows.saved _ (by simp))
  · intro now executing
    have same := executing.symm.trans ((congrFun moved (some i)).trans (Function.update_self ..))
    obtain rfl := Option.some.inj same
    rw [on_main]
    apply Placed.run
    · exact .locking (Function.update_self ..) empty
    · intro fiber known
      have own := (congrFun knows.current (some i)).trans (Function.update_self ..)
      exact Option.some.inj (known.symm.trans own)

/-- A worker that is in `run` is on the stack of its thread. -/
theorem Coherent.in_run (coherent : s.Coherent)
    (executes : s.control.machine.executing w = some here)
    (place : here.point = .begins ∨ here.point = .locking ∨ (∃ fiber, here.point = .popped fiber) ∨
      here.point = .swapped ∨ here.point = .null) :
    ∃ i, w = some i ∧ here.stack = .main w ∧ InRun s w here.point ∧
      ∀ fiber, s.control.machine.current w = some fiber → fiber = .main w := by
  cases coherent.threads w here executes with
  | owner => simp at place
  | run inside current => exact ⟨_, rfl, rfl, inside, current⟩
  | task carries there =>
      rcases there with rfl | ⟨rfl | rfl | rfl, _⟩ <;> simp at place

/-- Only the owner's thread is at the places of the owner. -/
theorem Coherent.owner_at {pc : OwnerPc} (coherent : s.Coherent)
    (executes : s.control.machine.executing w = some here) (at_owner : here.point = .owner pc) :
    w = none ∧ here.stack = .main none ∧
      ∀ fiber, s.control.machine.current none = some fiber → fiber = .main none := by
  cases coherent.threads w here executes with
  | owner current => exact ⟨rfl, rfl, current⟩
  | run inside => cases inside <;> cases at_owner
  | task carries there => rcases there with rfl | ⟨rfl | rfl | rfl, _⟩ <;> cases at_owner

/-- A thread that is in `MainFunc` is on the stack of the fiber that it carries. -/
theorem Coherent.in_main (coherent : s.Coherent)
    (executes : s.control.machine.executing w = some here)
    (place : here.point = .entry ∨ here.point = .body ∨ here.point = .ended ∨
      here.point = .behind) :
    ∃ i fiber, w = some i ∧ here.stack = .task fiber ∧ s.Carries i fiber ∧
      (here.point ≠ .entry → s.Entered fiber) := by
  cases coherent.threads w here executes with
  | owner => simp at place
  | run inside => cases inside <;> simp at place
  | task carries there =>
      refine ⟨_, _, rfl, rfl, carries, fun later => ?_⟩
      rcases there with entry | ⟨_, entered⟩
      · exact absurd entry later
      · exact entered

variable [DecidableEq F]

theorem unwind_called {frame : Frame n F} {called : Frame n F × F} (apart : called.1 ≠ frame)
    (member : called ∈ s.frames) : called ∈ (s.unwind frame).frames := by
  unfold unwind
  split
  · rename_i entry found
    have tagged : entry.1 = frame := by simpa using List.find?_some found
    apply (List.mem_erase_of_ne _).mpr member
    rintro rfl
    exact apart tagged
  · exact member

@[simp] theorem unwind_held (frame : Frame n F) : (s.unwind frame).held = s.held := by
  unfold unwind
  split <;> rfl

@[simp] theorem call_held (frame : FiberId n F → Frame n F) : (s.call w frame).held = s.held := by
  unfold call
  split <;> rfl

theorem call_called {frame : FiberId n F → Frame n F} {called : Frame n F × F}
    (member : called ∈ s.frames) : called ∈ (s.call w frame).frames := by
  unfold call
  split
  · exact List.mem_cons_of_mem _ member
  · exact member

/-- Only the end of `MainFunc` takes its `cur` away. -/
theorem account_called {e : Control.Event n F} (going : ∀ w, e ≠ .thread w .fallOff)
    (member : (Frame.mainFunc (.task fiber), fiber) ∈ s.frames) :
    (Frame.mainFunc (.task fiber), fiber) ∈ (s.account e).frames := by
  unfold account
  split
  · exact member
  · exact member
  · split <;> exact member
  · split
    · dsimp only
      split
      · exact unwind_called (by simp) member
      · exact member
    · exact member
  · split <;> exact member
  · exact call_called member
  · exact call_called member
  · split <;> exact member
  · exact absurd rfl (going _)
  · exact member

/-- Only its own steps change the local of a worker. -/
theorem account_held {act : Control.Act n F} (apart : v ≠ w) :
    (s.account (.thread w act)).held v = s.held v := by
  unfold account
  split
  · rfl
  · rfl
  · rename_i same
    obtain ⟨rfl, _⟩ := Control.Event.thread.inj same
    split
    · exact Function.update_of_ne apart ..
    · rfl
  · split
    · dsimp only
      split
      · rw [unwind_held]
      · rfl
    · rfl
  · rename_i same
    obtain ⟨rfl, _⟩ := Control.Event.thread.inj same
    split
    · exact Function.update_of_ne apart ..
    · rfl
  · rw [call_held]
  · rw [call_held]
  · split <;> rfl
  · split
    · rw [unwind_held]
    · rfl
  · rfl

/-- The thread goes on at `point`, and nothing but its local changes. -/
theorem account_moves {act : Control.Act n F} {control : Control n F} {point : Point F}
    (going : act ≠ .fallOff) (machine : control.machine = s.control.machine.move w point)
    (cur : ∀ fiber, s.control.cur (.task fiber) = some (.task fiber) →
      control.cur (.task fiber) = some (.task fiber)) :
    Moves s ((s.account (.thread w act)).setControl control) w point where
  machine := machine
  held _ apart := account_held apart
  cur := cur
  frames _ member := account_called (fun _ same => going (Control.Event.thread.inj same).2) member

theorem account_pop {rest : List (Option F)} (back : s.control.fibers = rest ++ [some fiber]) :
    s.account (.thread w .take) =
      { s with
        counts := (s.counts.acquire fiber).release fiber
        held := Function.update s.held w (some fiber) } := by
  have last : s.control.fibers.getLast? = some (some fiber) := by simp [back]
  simp [account, last]

theorem account_popNull (back : ∀ fiber, s.control.fibers.getLast? ≠ some (some fiber)) :
    s.account (.thread w .take) = s := by
  unfold account
  split <;> simp_all

theorem account_loop_held : (s.account (.thread w .loop)).held w = none := by
  simp only [account]
  split
  · exact Function.update_self ..
  · assumption

theorem Coherent.walk {act : Control.Act n F} {fibers : List (Option F)} {stopping : Bool}
    {point : Point F} (coherent : s.Coherent)
    (executes : s.control.machine.executing w = some here)
    (walks : Control.Walk s.control here.point act fibers stopping point) :
    Coherent ((s.account (.thread w act)).setControl
      ({ s.control with fibers := fibers, stopping := stopping }.move w point)) := by
  have going : act ≠ .fallOff := by
    rintro rfl
    cases walks
    simp at *
  have moves : Moves s ((s.account (.thread w act)).setControl
      ({ s.control with fibers := fibers, stopping := stopping }.move w point)) w point :=
    account_moves going rfl fun _ entered => entered
  cases walks with
  | @owner _ pc after stopping at_owner calls apart created =>
      obtain ⟨rfl, on_main, current⟩ := coherent.owner_at executes at_owner
      have acts := moves.acts executes
      apply coherent.owns acts _ _ created current
      · exact fun other => acts.saved (coherent.saved other) rfl
      · exact here.number
      · rw [Control.point, executes, ← at_owner]
        rfl
      · rw [moves.machine, move_executing _ _ _ executes, Function.update_self, on_main]
  | @pop rest fiber at_lock back =>
      obtain ⟨i, rfl, _, inside, _⟩ := coherent.in_run executes (by simp [at_lock])
      apply coherent.runs moves executes inside
      rw [at_lock] at inside
      cases inside with
      | locking serves empty =>
          refine .popped serves ?_
          rw [account_pop back]
          exact Function.update_self ..
  | popNull at_lock back | nothing at_lock back stops =>
      obtain ⟨i, rfl, _, inside, _⟩ := coherent.in_run executes (by simp [at_lock])
      apply coherent.runs moves executes inside
      rw [at_lock] at inside
      cases inside with
      | locking serves empty =>
          rw [account_popNull (by simp [back])]
          exact .null serves empty
  | loop behind =>
      obtain ⟨i, rfl, _, inside, _⟩ := coherent.in_run executes (by simp [behind])
      apply coherent.runs moves executes inside
      rw [behind] at inside
      cases inside with
      | swapped serves => exact .locking serves account_loop_held
  | @push scheduled inside =>
      obtain ⟨i, other, rfl, on_task, _, entered⟩ :=
        coherent.in_main executes (by simp [inside])
      apply coherent.proceeds moves executes on_task
      · cases scheduled <;> rfl
      · exact ⟨Or.inl rfl, (moves.acts executes).entered (entered (by simp [inside]))⟩

theorem account_swaps {e : Control.Event n F} {control : Control n F}
    {stack save load : FiberId n F} {after : Point F}
    (machine : control.machine =
      (s.control.machine.setCurrent w (some load)).swapcontext w stack after save load)
    (cur : control.cur = s.control.cur) (held : (s.account e).held = s.held)
    (going : ∀ w, e ≠ .thread w .fallOff) :
    Swaps s ((s.account e).setControl control) w stack after save load where
  machine := machine
  cur := cur
  held := held
  frames _ member := account_called going member

theorem account_swapIn_held : (s.account (.thread w .swapIn)).held = s.held := by
  simp only [account]
  split
  · split
    · exact unwind_held _
    · rfl
  · rfl

theorem getThis_main {c : Control n F}
    (current : ∀ fiber, c.machine.current w = some fiber → fiber = .main w) :
    (c.getThis w).2 = .main w ∧ Knows c (c.getThis w).1 w := by
  cases known : c.machine.current w with
  | some fiber =>
      obtain rfl := current fiber known
      rw [Control.getThis_known known]
      refine ⟨rfl, rfl, ?_, rfl, fun _ _ => rfl, rfl⟩
      rw [← known, Function.update_eq_self]
  | none =>
      rw [Control.getThis_fresh known]
      exact ⟨rfl, rfl, rfl, rfl, fun _ apart => Function.update_of_ne apart .., rfl⟩

/-- What `GetThis` returns to the code of a fiber. -/
theorem Carries.this {i : Fin n} (carries : s.Carries i fiber) :
    s.control.getThis (some i) = (s.control, .task fiber) ∧ s.this (some i) = some fiber := by
  have known := Control.getThis_known carries.current
  rw [Owned.this, known]
  exact ⟨rfl, rfl⟩

theorem Carries.call {i : Fin n} (carries : s.Carries i fiber)
    (executes : s.control.machine.executing (some i) = some here)
    (on_task : here.stack = .task fiber) (frame : FiberId n F → Frame n F) :
    s.call (some i) frame =
      { s with
        counts := s.counts.acquire fiber
        frames := (frame (.task fiber), fiber) :: s.frames } := by
  simp [Owned.call, Control.stackOf, executes, on_task, carries.this.2]

theorem Coherent.enters {i : Fin n} (coherent : s.Coherent)
    (executes : s.control.machine.executing (some i) = some here)
    (on_task : here.stack = .task fiber) (carries : s.Carries i fiber) :
    Coherent ((s.account (.thread (some i) .enter)).setControl
      ({ s.control with
        cur := Function.update s.control.cur (.task fiber) (some (.task fiber)) }.move (some i)
          .body)) := by
  have cur : ∀ other, s.control.cur (.task other) = some (.task other) →
      Function.update s.control.cur (.task fiber) (some (.task fiber)) (.task other) =
        some (.task other) := by
    intro other entered
    by_cases same : other = fiber
    · rw [same, Function.update_self]
    · rw [Function.update_of_ne (by simp [same]), entered]
  have called : s.account (.thread (some i) .enter) = _ := carries.call executes on_task .mainFunc
  refine coherent.proceeds (account_moves (by simp) rfl cur) executes on_task ?_ ?_
  · rw [called]
    rfl
  · refine ⟨Or.inl rfl, Function.update_self .., Or.inl ?_⟩
    rw [called]
    exact List.mem_cons_self

/-- `GetThis` in the body of a fiber or on the owner's thread. -/
theorem Coherent.getsThis (coherent : s.Coherent)
    (executes : s.control.machine.executing w = some here) (user : here.point.user = true) :
    Coherent ((s.account (.thread w .getThis)).setControl (s.control.getThis w).1) := by
  cases place : here.point with
  | body =>
      obtain ⟨i, other, rfl, _, carries, _⟩ := coherent.in_main executes (by simp [place])
      have handed : s.account (.thread (some i) .getThis) = s.addHandle other := by
        simp [account, carries.this.2]
      rw [carries.this.1, handed]
      exact coherent.apart rfl rfl rfl
  | owner pc =>
      obtain ⟨rfl, on_main, current⟩ := coherent.owner_at executes place
      obtain ⟨this, knows⟩ := getThis_main current
      have kept : s.account (.thread none .getThis) = s := by
        simp [account, Owned.this, this]
      rw [kept]
      have acts : Acts s (s.setControl (s.control.getThis none).1) none := by
        constructor
        · simp [executes]
        · exact fun v _ => congrFun knows.executing v
        · exact fun v apart => (congrFun knows.current v).trans (Function.update_of_ne apart ..)
        · exact fun v _ => congrFun knows.scheduler v
        · exact fun _ _ => rfl
        · exact fun v apart => knows.saved _ (by simpa using apart)
        · exact fun fiber entered => (congrFun knows.cur _).trans entered
        · exact fun _ called => Or.inl called
      have at_owner : s.control.point none = some (.owner pc) := by
        rw [Control.point, executes, ← place]
        rfl
      have stays : here = ⟨.main none, .owner pc, here.number⟩ := by rw [← on_main, ← place]
      apply coherent.owns acts at_owner _ (fun _ late => late)
      · intro fiber known
        have own := (congrFun knows.current none).trans (Function.update_self ..)
        exact Option.some.inj (known.symm.trans own)
      · exact fun fiber => acts.saved (coherent.saved fiber) (knows.saved _ (by simp))
      · exact here.number
      · exact (congrFun knows.executing none).trans (executes.trans (congrArg some stays))
  | _ =>
      rw [place] at user
      cases user

/-- The thread of a fiber that is resumed behind its end falls off the stack. -/
theorem Coherent.fallsOff {i : Fin n} (coherent : s.Coherent)
    (executes : s.control.machine.executing (some i) = some here)
    (on_task : here.stack = .task fiber) (carries : s.Carries i fiber) :
    Coherent ((s.account (.thread (some i) .fallOff)).setControl (s.control.exit (some i))) := by
  have returned : s.account (.thread (some i) .fallOff) = s.unwind (.mainFunc (.task fiber)) := by
    simp [account, Control.stackOf, executes, on_task]
  have dead : (s.control.exit (some i)).machine.executing (some i) = none :=
    Function.update_self ..
  have held := unwind_held (s := s) (.mainFunc (.task fiber))
  rw [returned]
  have acts : Acts s ((s.unwind (.mainFunc (.task fiber))).setControl
      (s.control.exit (some i))) (some i) := by
    constructor
    · simp [executes]
    · exact fun v apart => Function.update_of_ne apart ..
    · exact fun _ _ => rfl
    · exact fun _ _ => rfl
    · exact fun v _ => congrFun held v
    · exact fun _ _ => rfl
    · exact fun _ entered => entered
    · intro other called
      by_cases same : other = fiber
      · rw [same]
        exact Or.inr ⟨some i, dead, (congrFun held _).trans carries.full⟩
      · exact Or.inl (unwind_called (by simp [same]) called)
  apply coherent.acts acts (by simp [executes])
  · exact fun other => acts.saved (coherent.saved other) rfl
  · intro now executing
    cases dead.symm.trans executing

omit [DecidableEq F] in
theorem body_of_yield (served : Control.Served s.control (.thread w .yield))
    (executes : s.control.machine.executing w = some here) : here.point = .body := by
  rw [Control.Served, Control.point, executes] at served
  exact Option.some.inj served

theorem Coherent.step {e : Control.Event n F} {control : Control n F} (coherent : s.Coherent)
    (served : Control.Served s.control e) (step : Control.next false s.control e = some control) :
    Coherent ((s.account e).setControl control) := by
  cases Control.step_of_next step with
  | outside fiber =>
      cases fiber <;>
        exact coherent.stays rfl rfl rfl rfl rfl rfl (fun _ => rfl) fun _ => Or.inl rfl
  | walk executes walks => exact coherent.walk executes walks
  | @spawn w here created executes at_owner inside =>
      obtain ⟨rfl, on_main, current⟩ := coherent.owner_at executes at_owner
      have at_point : s.control.point none = some (.owner (.starting created)) := by
        rw [Control.point, executes, ← at_owner]
        rfl
      obtain ⟨_, there, unborn⟩ := coherent.owner
      rw [at_point, Option.some.injEq, Point.owner.injEq] at there
      subst there
      have absent := unborn ⟨created, inside⟩ (Nat.le_refl created)
      have moves : Moves s ((s.account (.thread none .spawn)).setControl
          (s.control.move none (.owner (.starting (created + 1))))) none _ :=
        account_moves (by simp) rfl fun _ entered => entered
      have acts := moves.acts executes
      have arrived : (s.control.machine.move none
          (.owner (.starting (created + 1)))).executing none =
            some ⟨.main none, .owner (.starting (created + 1)), here.number⟩ := by
        rw [move_executing _ _ _ executes, Function.update_self, on_main]
      have moved := coherent.owns acts at_point arrived (fun i late => Nat.le_of_succ_le late)
        current fun other => acts.saved (coherent.saved other) rfl
      have after := congrArg (Option.map Context.point) arrived
      exact moved.born after (acts.unborn (by simp) absent) (Nat.lt_succ_self created) rfl rfl rfl
  | callRoot _ _ caller => cases caller
  | beginRoot _ _ caller => cases caller
  | @begin w here executes begins =>
      obtain ⟨i, rfl, on_main, inside, current⟩ := coherent.in_run executes (by simp [begins])
      obtain ⟨this, knows⟩ := getThis_main current
      rw [this]
      rw [begins] at inside
      cases inside with
      | begins empty => exact coherent.begins executes on_main empty knows
  | @swapIn w here fiber executes held =>
      obtain ⟨i, rfl, on_main, inside, _⟩ := coherent.in_run executes (by simp [held])
      rw [held] at inside
      cases inside with
      | popped serves full =>
      have ends : s.control.machine.ends (some i) (.swapIn (.task fiber)) =
          some (.main (some i), .task fiber) := by
        simp [Machine.ends, serves]
      apply coherent.swapsIn (by simp [executes]) serves full
      apply account_swaps _ _ account_swapIn_held
      · simp
      · rw [on_main]
        exact perform_ends _ _ _ _ ends
      · rfl
  | @leave w v here executes null =>
      obtain ⟨i, rfl, _, inside, _⟩ := coherent.in_run executes (by simp [null])
      exact coherent.runs (account_moves (by simp) rfl fun _ cur => cur) executes inside .left
  | @again w here executes null =>
      obtain ⟨i, rfl, _, inside, _⟩ := coherent.in_run executes (by simp [null])
      refine coherent.runs (account_moves (by simp) rfl fun _ cur => cur) executes inside ?_
      rw [null] at inside
      cases inside with
      | null serves empty => exact .locking serves empty
  | runEnds executes null _ on_fiber =>
      obtain ⟨i, _, on_main, _⟩ := coherent.in_run executes (by simp [null])
      exact absurd on_main (on_fiber _)
  | enterRoot executes entry this | enterNone executes entry this =>
      obtain ⟨i, other, rfl, _, carries, _⟩ := coherent.in_main executes (by simp [entry])
      rw [carries.this.1] at this
      cases this
  | @enter w here fiber executes entry this =>
      obtain ⟨i, other, rfl, on_task, carries, _⟩ := coherent.in_main executes (by simp [entry])
      rw [carries.this.1] at this ⊢
      cases this
      rw [on_task]
      exact coherent.enters executes on_task carries
  | getThis executes user => exact coherent.getsThis executes user
  | @yield w here executes =>
      have inside := body_of_yield served executes
      obtain ⟨i, fiber, rfl, on_task, carries, entered⟩ :=
        coherent.in_main executes (by simp [inside])
      rw [carries.this.1, inside, on_task]
      have ends : s.control.machine.ends (some i) (.swapOut (.task fiber)) =
          some (.task fiber, .main (some i)) := by
        simp [Machine.ends, carries.serves]
      apply coherent.swapsOut (by simp [executes]) carries (entered (by simp [inside]))
        (Or.inl rfl)
      exact account_swaps (perform_ends _ _ _ _ ends) rfl (call_held _) (by simp)
  | finish threw executes inside =>
      obtain ⟨i, fiber, rfl, on_task, carries, entered⟩ :=
        coherent.in_main executes (by simp [inside])
      have known := (entered (by simp [inside])).1
      rw [Control.callbackEnds, on_task, known]
      have moves : Moves s ((s.account (.thread (some i) (.finish threw))).setControl
          ({ s.control with
            state := Function.update s.control.state (.task fiber)
              (if threw then .except else .term) }.move (some i) .ended)) (some i) .ended :=
        account_moves (by simp) rfl fun _ cur => cur
      have inside := (moves.acts executes).entered (entered (by simp [inside]))
      exact coherent.proceeds moves executes on_task rfl ⟨Or.inr (Or.inl rfl), inside⟩
  | endMain executes ended cur =>
      obtain ⟨i, fiber, rfl, on_task, carries, entered⟩ :=
        coherent.in_main executes (by simp [ended])
      have inside := entered (by simp [ended])
      rw [on_task, inside.1] at cur
      cases cur
      have ends : s.control.machine.ends (some i) (.swapOut (.task fiber)) =
          some (.task fiber, .main (some i)) := by
        simp [Machine.ends, carries.serves]
      apply coherent.swapsOut (by simp [executes]) carries inside (Or.inr rfl)
      rw [on_task]
      exact account_swaps (perform_ends _ _ _ _ ends) rfl rfl (by simp)
  | endLost executes ended cur =>
      obtain ⟨i, fiber, rfl, on_task, _, entered⟩ := coherent.in_main executes (by simp [ended])
      rw [on_task, (entered (by simp [ended])).1] at cur
      cases cur
  | fallOff executes behind =>
      obtain ⟨i, fiber, rfl, on_task, carries, _⟩ := coherent.in_main executes (by simp [behind])
      exact coherent.fallsOff executes on_task carries
  | perform => exact served.elim
  | @reset w here fiber executes user =>
      have made : ∀ other, other ≠ fiber →
          (s.control.machine.make fiber .entry).saved other = s.control.machine.saved other :=
        fun other apart => Function.update_of_ne apart ..
      cases fiber with
      | main v => simp [Control.next, Control.act, executes, user] at step
      | root =>
          exact coherent.stays rfl rfl rfl rfl rfl rfl (fun v => made _ (by simp))
            fun other => Or.inl (made _ (by simp))
      | task fiber =>
          refine coherent.stays rfl rfl rfl rfl rfl rfl (fun v => made _ (by simp)) fun other => ?_
          by_cases same : other = fiber
          · rw [same]
            exact Or.inr (Function.update_self ..)
          · exact Or.inl (made _ (by simp [same]))

end ZnetServer.Scheduler.Owned
