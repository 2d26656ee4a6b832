import ZnetServer.SchedulerCurrent

set_option autoImplicit false

/- Where control goes at the end of `MainFunc`. A fiber is resumed by `call`, which saves the
main fiber of the thread, or by `swapIn`, which saves its scheduler fiber, but it always ends
with `swapOut`, which loads the scheduler fiber. -/
namespace ZnetServer.Scheduler.Control

open ZnetServer.Fiber Transition

variable {n : Nat} {F : Type} [DecidableEq F]

/-- The thread is at the end of `MainFunc` of the fiber, in front of the last `swapOut` or
behind it. -/
structure Ends (s : Control n F) (w : WorkerId n) (action : Act n F) (fiber : FiberId n F)
    (here : Context (FiberId n F) (Point F)) : Prop where
  executes : s.machine.executing w = some here
  cur : s.cur here.stack = some fiber
  last : action = .endMain ∧ here.point = .ended ∨ action = .fallOff ∧ here.point = .behind

/-- The thread goes on in the context that the last `call` or `swapIn` of the fiber saved. -/
def GivesBack (trace : List (Control n F × Event n F)) (t : Control n F) (w : WorkerId n)
    (fiber : FiberId n F) : Prop :=
  ∃ number there, lastResume trace fiber = some number ∧
    t.machine.executing w = some there ∧ there.number = some number

/-- The scheduler fiber of the thread is another one, and the context in it is still the one
that the last `call` or `swapIn` of the fiber saved. -/
def StillSaved (trace : List (Control n F × Event n F)) (s : Control n F) (w : WorkerId n)
    (fiber : FiberId n F) : Prop :=
  ∃ own number, s.machine.scheduler w = some own ∧ own ≠ fiber ∧
    lastResume trace fiber = some number ∧ (s.machine.saved own).number = some number

section Numbers

variable {userCaller : Bool} {s t : Control n F} {e : Event n F}

theorem getThis_swaps (s : Control n F) (w : WorkerId n) :
    (s.getThis w).1.machine.swaps = s.machine.swaps :=
  Fiber.getThis_swaps ..

theorem callbackEnds_swaps (s : Control n F) (w : WorkerId n) (stack : FiberId n F)
    (threw : Bool) : (s.callbackEnds w stack threw).machine.swaps = s.machine.swaps := by
  unfold callbackEnds
  split <;> rfl

/-- Calls of `swapcontext` are counted, those that resume a fiber among them. -/
theorem swaps_step (step : Step userCaller s e t) :
    s.machine.swaps + (resumed s e).isSome.toNat ≤ t.machine.swaps := by
  have performs : ∀ (w : WorkerId n) (stack : FiberId n F) (after : Point F)
      (switch : Switch (FiberId n F)), resumption s e = some (w, switch) →
      s.machine.swaps + (resumed s e).isSome.toNat ≤
        (s.perform w stack after switch).machine.swaps := by
    intro w stack after switch at_switch
    change _ ≤ (s.machine.perform w stack after switch).swaps
    rw [perform_swaps]
    simp only [resumed, at_switch, Option.bind_some]
    split
    · have bound := Bool.toNat_le switch.resumed.isSome
      omega
    · exact Nat.le_refl _
  cases step
  case callRoot => exact performs _ _ _ _ rfl
  case swapIn w here fiber executes held =>
    exact performs _ _ _ _ (by simp [resumption, point, executes, held])
  case perform switch executes user => exact performs _ _ _ _ rfl
  case walk w here action fibers stopping point executes walks =>
    rw [(walks.quiet w).1]
    exact Nat.le_refl _
  case yield w here executes user =>
    change _ ≤ ((s.getThis w).1.machine.perform w here.stack here.point _).swaps
    rw [perform_swaps, getThis_swaps]
    split
    · exact Nat.le_succ _
    · exact Nat.le_refl _
  case endMain w here fiber executes ended cur =>
    change _ ≤ (s.machine.perform w here.stack .behind _).swaps
    rw [perform_swaps]
    split
    · exact Nat.le_succ _
    · exact Nat.le_refl _
  case runEnds w here executes null _ on_fiber =>
    rw [callbackEnds_swaps]
    exact Nat.le_refl _
  case finish w here threw executes inside =>
    rw [callbackEnds_swaps]
    exact Nat.le_refl _
  case enterNone w v here executes entry this =>
    rw [callbackEnds_swaps]
    exact (getThis_swaps s w).ge
  case begin w here executes begins other => exact (getThis_swaps s w).ge
  case enterRoot w here executes entry this => exact (getThis_swaps s w).ge
  case enter w here fiber executes entry this => exact (getThis_swaps s w).ge
  case getThis w here executes user => exact (getThis_swaps s w).ge
  all_goals exact Nat.le_refl _

/-- The last `call` or `swapIn` of a fiber lies behind. -/
theorem lastResume_lt {trace : List (Control n F × Event n F)}
    (run : Run (next userCaller) anyStep (init userCaller) trace s) (fiber : FiberId n F) :
    ∀ number, lastResume trace fiber = some number → number < s.machine.swaps := by
  refine run.invariant_trace (I := fun trace s => ∀ number, lastResume trace fiber = some number →
    number < s.machine.swaps) nofun ?_
  intro trace s e t before _ step number last
  have counted := swaps_step (step_of_next step)
  rw [lastResume, lastSwap_snoc] at last
  split at last
  · rename_i resumes
    rw [resumes] at counted
    cases last
    exact counted
  · exact Nat.lt_of_lt_of_le (before number last) (Nat.le_of_add_right_le counted)

end Numbers

section Runs

variable {userCaller : Bool} {trace : List (Control n F × Event n F)} {s t : Control n F}
  {w : WorkerId n} {action : Act n F} {fiber : FiberId n F}
  {here : Context (FiberId n F) (Point F)}

theorem givesBack_exit (s : Control n F) : ¬ GivesBack trace (s.exit w) w fiber := by
  rintro ⟨_, there, _, executes, _⟩
  simp [Control.exit] at executes

/-- `swapOut` loads the scheduler fiber of the thread. -/
theorem swapOut_givesBack (run : Run (next userCaller) anyStep (init userCaller) trace s)
    (stack : FiberId n F) (after : Point F) :
    GivesBack trace (s.perform w stack after (.swapOut fiber)) w fiber ↔
      StillSaved trace s w fiber := by
  cases scheduler : s.machine.scheduler w with
  | none =>
    have ends : s.machine.ends w (.swapOut fiber) = none := by simp [Machine.ends, scheduler]
    obtain ⟨current, null⟩ := perform_null s.machine w stack after ends
    constructor
    · rintro ⟨_, there, _, executes, _⟩
      change (s.machine.perform w stack after _).executing w = _ at executes
      simp [null] at executes
    · rintro ⟨own, _, known, _⟩
      rw [scheduler] at known
      cases known
  | some own =>
    have ends : s.machine.ends w (.swapOut fiber) = some (fiber, own) := by
      simp [Machine.ends, scheduler]
    have switched := perform_switched stack after ends
    generalize s.perform w stack after (.swapOut fiber) = t at switched
    have executing : t.machine.executing w = some (t.machine.saved own) := by
      rw [switched.executing, Function.update_self]
    by_cases itself : own = fiber
    · -- The context that has just been saved is newer than every resumption.
      subst itself
      constructor
      · rintro ⟨number, there, last, executes, same⟩
        rw [executing, switched.saved, Function.update_self] at executes
        cases executes
        cases same
        exact absurd (lastResume_lt run own _ last) (Nat.lt_irrefl _)
      · rintro ⟨other, _, known, apart, _⟩
        rw [scheduler] at known
        exact absurd (Option.some.inj known).symm apart
    · have kept : t.machine.saved own = s.machine.saved own := by
        rw [switched.saved, Function.update_of_ne itself]
      rw [kept] at executing
      constructor
      · rintro ⟨number, there, last, executes, same⟩
        rw [executing] at executes
        cases executes
        exact ⟨own, number, scheduler, itself, last, same⟩
      · rintro ⟨other, number, known, _, last, same⟩
        rw [scheduler] at known
        cases known
        exact ⟨number, _, last, executing, same⟩

/-- At the end of `MainFunc` control goes back if and only if the thread is not behind the last
`swapOut` already and the scheduler fiber still holds what the last resumption saved. -/
theorem ends_givesBack (run : Run (next userCaller) anyStep (init userCaller) trace s)
    (ends : Ends s w action fiber here) (step : next userCaller s (.thread w action) = some t) :
    GivesBack trace t w fiber ↔ action = .endMain ∧ StillSaved trace s w fiber := by
  simp only [next, ends.executes] at step
  rcases ends.last with ⟨rfl, ended⟩ | ⟨rfl, behind⟩
  · simp only [act, ended, ends.cur, Option.some.injEq] at step
    subst step
    rw [swapOut_givesBack run]
    exact ⟨fun still => ⟨rfl, still⟩, fun still => still.2⟩
  · simp only [act, behind, Option.some.injEq] at step
    subst step
    exact ⟨fun gives => absurd gives (givesBack_exit s), fun both => absurd both.1 (by simp)⟩

/-- Used through the scheduler only, every fiber but the root fiber finds the context that its
`swapIn` has saved. -/
theorem Inv.stillSaved_iff (inv : Inv userCaller trace s) (ends : Ends s w action fiber here) :
    (action = .endMain ∧ StillSaved trace s w fiber) ↔ fiber ≠ .root := by
  have stack := inv.cur _ _ ends.cur
  have root : here.stack = home none → Serves userCaller s none → w = none →
      ((action = .endMain ∧ StillSaved trace s w fiber) ↔ fiber ≠ .root) := by
    rintro on serves rfl
    constructor
    · rintro ⟨_, own, _, known, apart, _⟩
      rw [serves.scheduler] at known
      rw [stack, on] at apart
      exact absurd (Option.some.inj known).symm apart
    · intro apart
      exact absurd (stack.trans on) apart
  rcases ends.last with ⟨rfl, ended⟩ | ⟨rfl, behind⟩
  · rcases inv.at_end ends.executes ended with ⟨rfl, on, serves⟩ | ⟨own, on, _, _, carries⟩
    · exact root on serves rfl
    · obtain rfl : fiber = .task own := stack.trans on
      obtain ⟨number, last⟩ := Option.isSome_iff_exists.mp carries.swapped
      have away := (task_ne_home own w).symm
      refine ⟨fun _ => nofun, fun _ => ⟨rfl, home w, number, carries.scheduler, away, ?_, ?_⟩⟩
      · rw [carries.resume, last]
      · rw [carries.waits, last]
  · obtain ⟨rfl, on, serves⟩ := inv.behind_end ends.executes behind
    exact root on serves rfl

/-- In every run, whatever operations on fibers it uses, a fiber at the end of `MainFunc` gives
control back to the context that its last `call` or `swapIn` saved if and only if the scheduler
fiber of its thread still holds that context; when fibers are used through the scheduler only,
if and only if it is not the root fiber. -/
theorem end_gives_back_iff (run : Run (next userCaller) anyStep (init userCaller) trace s)
    (ends : Ends s w action fiber here) (step : next userCaller s (.thread w action) = some t) :
    (GivesBack trace t w fiber ↔ action = .endMain ∧ StillSaved trace s w fiber) ∧
      ((∀ step ∈ trace, Disciplined step.1 step.2) →
        (GivesBack trace t w fiber ↔ fiber ≠ .root)) := by
  refine ⟨ends_givesBack run ends step, fun disciplined => ?_⟩
  rw [ends_givesBack run ends step]
  exact (run_inv (run.restrict disciplined)).stillSaved_iff ends

end Runs

/-- `stop` of a scheduler with `user_caller` and no threads of its own calls the root fiber,
which finds the queue as the fibers scheduled before have left it. -/
def callsRoot (scheduled : List Nat) : List (Event 0 Nat) :=
  [.thread none .start, .thread none .startReturns] ++
    scheduled.map (fun fiber => .outside (some fiber)) ++
    [.thread none .stop, .thread none .notifyAll, .thread none .swapThreads,
      .thread none .callRoot, .thread none .enter, .thread none .begin, .thread none .take]

/-- The root fiber resumes a fiber, which gives control back to it. -/
theorem end_gives_back_task : ∃ (trace : List (Control 0 Nat × Event 0 Nat)) (t : Control 0 Nat),
    GivesBack trace t none (.task 7) := by
  have run := Run.of_replay (show replay (guarded (next true) Disciplined) (init true)
    (callsRoot [7] ++ [.thread none .swapIn, .thread none .enter, .thread none (.finish false)]) =
      some (_, _) from rfl)
  have gives : ∀ {trace : List (Control 0 Nat × Event 0 Nat)} {s t : Control 0 Nat} {here},
      Run (next true) Disciplined (init true) trace s → Ends s none .endMain (.task 7) here →
      next true s (.thread none .endMain) = some t → GivesBack trace t none (.task 7) :=
    fun run ends step =>
      ((end_gives_back_iff (run.mono fun _ _ _ => trivial) ends step).2 run.allowed).mpr nofun
  exact ⟨_, _, gives run ⟨rfl, rfl, Or.inl ⟨rfl, rfl⟩⟩ rfl⟩

/-- At its own end the root fiber loads itself and falls off the end of its context. -/
theorem root_falls_off : ∃ (trace : List (Control 0 Nat × Event 0 Nat)) (s t u : Control 0 Nat),
    Run (next true) anyStep (init true) trace s ∧ (∃ here, Ends s none .endMain .root here) ∧
      next true s (.thread none .endMain) = some t ∧ ¬ GivesBack trace t none .root ∧
      next true t (.thread none .fallOff) = some u ∧ u.machine.executing none = none := by
  have run := Run.of_replay (show replay (guarded (next true) anyStep) (init true)
    (callsRoot [] ++ [.thread none .checkStopping]) = some (_, _) from rfl)
  refine ⟨_, _, _, _, run, ⟨_, rfl, rfl, Or.inl ⟨rfl, rfl⟩⟩, rfl, ?_, rfl, rfl⟩
  rintro ⟨number, there, last, executes, same⟩
  cases executes
  cases same
  cases last

end ZnetServer.Scheduler.Control
