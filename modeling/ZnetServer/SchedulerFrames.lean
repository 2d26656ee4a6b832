import ZnetServer.SchedulerOwners

set_option autoImplicit false

/- The places of the threads and the calls on the stacks of the fibers: a fiber that has been
entered stays in the hands of its `MainFunc`, until a thread falls off its stack. -/
namespace ZnetServer.Scheduler.Owned

open ZnetServer.Fiber ReferenceCount

variable {n : Nat} {F : Type}

section Coherence

variable {s t : Owned n F} {w v : WorkerId n} {fiber : F}

/-- A call of `MainFunc` holds the fiber, or a thread that has ended in it does. -/
def Kept (s : Owned n F) (fiber : F) : Prop :=
  (Frame.mainFunc (.task fiber), fiber) ∈ s.frames ∨
    ∃ w, s.control.machine.executing w = none ∧ s.held w = some fiber

def Entered (s : Owned n F) (fiber : F) : Prop :=
  s.control.cur (.task fiber) = some (.task fiber) ∧ s.Kept fiber

/-- The local `fiber` at the places of `run`. -/
inductive InRun (s : Owned n F) (w : WorkerId n) : Point F → Prop
  | begins (empty : s.held w = none) : InRun s w .begins
  | locking (serves : s.control.machine.scheduler w = some (.main w)) (empty : s.held w = none) :
      InRun s w .locking
  | popped {fiber : F} (serves : s.control.machine.scheduler w = some (.main w))
      (full : s.held w = some fiber) : InRun s w (.popped fiber)
  | swapped (serves : s.control.machine.scheduler w = some (.main w)) : InRun s w .swapped
  | null (serves : s.control.machine.scheduler w = some (.main w)) (empty : s.held w = none) :
      InRun s w .null
  | left : InRun s w .left

/-- The worker `i` executes the fiber. -/
structure Carries (s : Owned n F) (i : Fin n) (fiber : F) : Prop where
  current : s.control.machine.current (some i) = some (.task fiber)
  full : s.held (some i) = some fiber
  serves : s.control.machine.scheduler (some i) = some (.main (some i))
  returns : ∃ number, s.control.machine.saved (.main (some i)) =
    ⟨.main (some i), .swapped, number⟩

/-- What the stack of a thread and the place on it tell. -/
inductive Placed (s : Owned n F) : WorkerId n → Context (FiberId n F) (Point F) → Prop
  | owner {pc : OwnerPc} {number : Option Nat}
      (current : ∀ fiber, s.control.machine.current none = some fiber → fiber = .main none) :
      Placed s none ⟨.main none, .owner pc, number⟩
  | run {i : Fin n} {point : Point F} {number : Option Nat} (inside : InRun s (some i) point)
      (current : ∀ fiber, s.control.machine.current (some i) = some fiber →
        fiber = .main (some i)) : Placed s (some i) ⟨.main (some i), point, number⟩
  | task {i : Fin n} {fiber : F} {point : Point F} {number : Option Nat}
      (carries : s.Carries i fiber)
      (inside : point = .entry ∨ (point = .body ∨ point = .ended ∨ point = .behind) ∧
        s.Entered fiber) : Placed s (some i) ⟨.task fiber, point, number⟩

/-- Where a fiber goes on when it is swapped in. -/
structure Saved (s : Owned n F) (fiber : F) : Prop where
  stack : (s.control.machine.saved (.task fiber)).stack = .task fiber
  point : (s.control.machine.saved (.task fiber)).point = .entry ∨
    ((s.control.machine.saved (.task fiber)).point = .body ∨
      (s.control.machine.saved (.task fiber)).point = .behind) ∧ s.Entered fiber

structure Unborn (s : Owned n F) (w : WorkerId n) : Prop where
  executing : s.control.machine.executing w = none
  current : s.control.machine.current w = none
  held : s.held w = none

structure Coherent (s : Owned n F) : Prop where
  threads : ∀ w here, s.control.machine.executing w = some here → s.Placed w here
  saved : ∀ fiber, s.Saved fiber
  owner : ∃ pc, s.control.point none = some (.owner pc) ∧
    ∀ i : Fin n, pc.created n ≤ i → s.Unborn (some i)

/-- What the other threads see of a step of one thread. -/
structure Acts (s t : Owned n F) (w : WorkerId n) : Prop where
  alive : s.control.machine.executing w = none → s.held w = none
  executing : ∀ v, v ≠ w → t.control.machine.executing v = s.control.machine.executing v
  current : ∀ v, v ≠ w → t.control.machine.current v = s.control.machine.current v
  scheduler : ∀ v, v ≠ w → t.control.machine.scheduler v = s.control.machine.scheduler v
  held : ∀ v, v ≠ w → t.held v = s.held v
  returns : ∀ v, v ≠ w → t.control.machine.saved (.main v) = s.control.machine.saved (.main v)
  cur : ∀ fiber, s.control.cur (.task fiber) = some (.task fiber) →
    t.control.cur (.task fiber) = some (.task fiber)
  frames : ∀ fiber, (Frame.mainFunc (.task fiber), fiber) ∈ s.frames → t.Kept fiber

theorem Acts.entered (acts : Acts s t w) (entered : s.Entered fiber) : t.Entered fiber := by
  refine ⟨acts.cur fiber entered.1, ?_⟩
  rcases entered.2 with called | ⟨v, dead, full⟩
  · exact acts.frames fiber called
  · have apart : v ≠ w := by
      rintro rfl
      rw [acts.alive dead] at full
      cases full
    exact Or.inr ⟨v, (acts.executing v apart).trans dead, (acts.held v apart).trans full⟩

theorem InRun.frame {point : Point F} (inside : InRun s w point)
    (scheduler : t.control.machine.scheduler w = s.control.machine.scheduler w)
    (held : t.held w = s.held w) : InRun t w point := by
  cases inside with
  | begins empty => exact .begins (held.trans empty)
  | locking serves empty => exact .locking (scheduler.trans serves) (held.trans empty)
  | popped serves full => exact .popped (scheduler.trans serves) (held.trans full)
  | swapped serves => exact .swapped (scheduler.trans serves)
  | null serves empty => exact .null (scheduler.trans serves) (held.trans empty)
  | left => exact .left

theorem Unborn.frame (unborn : s.Unborn w)
    (executing : t.control.machine.executing w = s.control.machine.executing w)
    (current : t.control.machine.current w = s.control.machine.current w)
    (held : t.held w = s.held w) : t.Unborn w :=
  ⟨executing.trans unborn.executing, current.trans unborn.current, held.trans unborn.held⟩

theorem Acts.unborn (acts : Acts s t w) (apart : v ≠ w) (unborn : s.Unborn v) : t.Unborn v :=
  unborn.frame (acts.executing v apart) (acts.current v apart) (acts.held v apart)

theorem Carries.frame {i : Fin n} (carries : s.Carries i fiber)
    (current : t.control.machine.current (some i) = s.control.machine.current (some i))
    (scheduler : t.control.machine.scheduler (some i) = s.control.machine.scheduler (some i))
    (held : t.held (some i) = s.held (some i))
    (saved : t.control.machine.saved (.main (some i)) = s.control.machine.saved (.main (some i))) :
    t.Carries i fiber where
  current := current.trans carries.current
  full := held.trans carries.full
  serves := scheduler.trans carries.serves
  returns := by
    rw [saved]
    exact carries.returns

theorem Acts.placed {here : Context (FiberId n F) (Point F)} (acts : Acts s t w) (apart : v ≠ w)
    (placed : s.Placed v here) : t.Placed v here := by
  have current := acts.current v apart
  have scheduler := acts.scheduler v apart
  have held := acts.held v apart
  have saved := acts.returns v apart
  cases placed with
  | owner known =>
      rw [← current] at known
      exact .owner known
  | run inside known =>
      rw [← current] at known
      exact .run (inside.frame scheduler held) known
  | task carries inside =>
      apply Placed.task (carries.frame current scheduler held saved)
      exact inside.imp_right fun later => ⟨later.1, acts.entered later.2⟩

theorem Acts.saved (acts : Acts s t w) (saved : s.Saved fiber)
    (same : t.control.machine.saved (.task fiber) = s.control.machine.saved (.task fiber)) :
    t.Saved fiber := by
  constructor
  · rw [same]
    exact saved.stack
  · rw [same]
    exact saved.point.imp_right fun later => ⟨later.1, acts.entered later.2⟩

/-- A step of a worker keeps what it does not reach. -/
theorem Coherent.acts {i : Fin n} (coherent : s.Coherent) (acts : Acts s t (some i))
    (alive : s.control.machine.executing (some i) ≠ none) (saved : ∀ fiber, t.Saved fiber)
    (placed : ∀ here, t.control.machine.executing (some i) = some here → t.Placed (some i) here) :
    t.Coherent := by
  refine ⟨fun v here executes => ?_, saved, ?_⟩
  · by_cases same : v = some i
    · subst same
      exact placed here executes
    · rw [acts.executing v same] at executes
      exact acts.placed same (coherent.threads v here executes)
  · obtain ⟨pc, at_owner, unborn⟩ := coherent.owner
    have elsewhere : (none : WorkerId n) ≠ some i := by simp
    refine ⟨pc, ?_, fun j late => ?_⟩
    · rw [Control.point, acts.executing none elsewhere]
      exact at_owner
    · have before := unborn j late
      exact acts.unborn (fun same => alive (same ▸ before.executing)) before

/-- A step of the owner's thread. -/
theorem Coherent.owns {pc after : OwnerPc} {number : Option Nat} (coherent : s.Coherent)
    (acts : Acts s t none) (at_owner : s.control.point none = some (.owner pc))
    (executes : t.control.machine.executing none = some ⟨.main none, .owner after, number⟩)
    (created : ∀ i : Fin n, after.created n ≤ i → pc.created n ≤ i)
    (current : ∀ fiber, t.control.machine.current none = some fiber → fiber = .main none)
    (saved : ∀ fiber, t.Saved fiber) : t.Coherent := by
  refine ⟨fun v here there => ?_, saved, after, ?_, fun i late => ?_⟩
  · by_cases same : v = none
    · subst same
      rw [executes] at there
      obtain rfl := Option.some.inj there
      exact .owner current
    · rw [acts.executing v same] at there
      exact acts.placed same (coherent.threads v here there)
  · rw [Control.point, executes]
    rfl
  · obtain ⟨before, there, unborn⟩ := coherent.owner
    rw [at_owner, Option.some.injEq, Point.owner.injEq] at there
    subst there
    exact acts.unborn (by simp) (unborn i (created i late))

/-- The threads stay where they are. -/
theorem Coherent.stays (coherent : s.Coherent)
    (executing : t.control.machine.executing = s.control.machine.executing)
    (current : t.control.machine.current = s.control.machine.current)
    (scheduler : t.control.machine.scheduler = s.control.machine.scheduler)
    (cur : t.control.cur = s.control.cur) (held : t.held = s.held) (frames : t.frames = s.frames)
    (returns : ∀ v, t.control.machine.saved (.main v) = s.control.machine.saved (.main v))
    (saved : ∀ fiber, t.control.machine.saved (.task fiber) = s.control.machine.saved (.task fiber)
      ∨ t.control.machine.saved (.task fiber) = ⟨.task fiber, .entry, none⟩) : t.Coherent := by
  have entered : ∀ fiber, s.Entered fiber → t.Entered fiber := by
    intro fiber before
    unfold Entered Kept
    rw [cur, frames, executing, held]
    exact before
  refine ⟨fun v here executes => ?_, fun fiber => ?_, ?_⟩
  · rw [executing] at executes
    cases coherent.threads v here executes with
    | owner known => exact .owner (current ▸ known)
    | run inside known =>
        exact .run (inside.frame (congrFun scheduler _) (congrFun held _)) (current ▸ known)
    | task carries inside =>
        apply Placed.task (carries.frame (congrFun current _) (congrFun scheduler _)
          (congrFun held _) (returns _))
        exact inside.imp_right fun later => ⟨later.1, entered _ later.2⟩
  · have before := coherent.saved fiber
    rcases saved fiber with same | again
    · constructor
      · rw [same]
        exact before.stack
      · rw [same]
        exact before.point.imp_right fun later => ⟨later.1, entered _ later.2⟩
    · constructor
      · rw [again]
      · rw [again]
        exact Or.inl rfl
  · obtain ⟨pc, at_owner, unborn⟩ := coherent.owner
    refine ⟨pc, ?_, fun i late => ?_⟩
    · rw [Control.point, executing]
      exact at_owner
    · exact (unborn i late).frame (congrFun executing _) (congrFun current _) (congrFun held _)

/-- The user makes and ends pointers. -/
theorem Coherent.apart (coherent : s.Coherent) (control : t.control = s.control)
    (held : t.held = s.held) (frames : t.frames = s.frames) : t.Coherent := by
  apply coherent.stays _ _ _ _ held frames
  · intro v
    rw [control]
  · intro other
    rw [control]
    exact Or.inl rfl
  all_goals rw [control]

/-- `start` creates a thread. -/
theorem Coherent.born {pc : OwnerPc} {i : Fin n} (coherent : s.Coherent)
    (at_owner : s.control.point none = some (.owner pc)) (unborn : s.Unborn (some i))
    (created : (i : Nat) < pc.created n)
    (control : t.control = { s.control with
      machine := s.control.machine.setExecuting (some i) (some ⟨.main (some i), .begins, none⟩) })
    (held : t.held = s.held) (frames : t.frames = s.frames) : t.Coherent := by
  have executing : t.control.machine.executing = Function.update s.control.machine.executing
      (some i) (some ⟨.main (some i), .begins, none⟩) := by
    rw [control]
    rfl
  have current : t.control.machine.current = s.control.machine.current := by
    rw [control]
    rfl
  have acts : Acts s t (some i) := by
    constructor
    · exact fun _ => unborn.held
    · intro v apart
      rw [executing, Function.update_of_ne apart]
    · intro v _
      rw [current]
    · intro v _
      rw [control]
      rfl
    · intro v _
      rw [held]
    · intro v _
      rw [control]
      rfl
    · intro other entered
      rw [control]
      exact entered
    · intro other called
      rw [← frames] at called
      exact Or.inl called
  refine ⟨fun v here executes => ?_, fun fiber => ?_, pc, ?_, fun j late => ?_⟩
  · by_cases same : v = some i
    · subst same
      rw [executing, Function.update_self] at executes
      obtain rfl := Option.some.inj executes
      apply Placed.run
      · apply InRun.begins
        rw [held]
        exact unborn.held
      · intro fiber known
        rw [current, unborn.current] at known
        cases known
    · rw [acts.executing v same] at executes
      exact acts.placed same (coherent.threads v here executes)
  · apply acts.saved (coherent.saved fiber)
    rw [control]
    rfl
  · rw [Control.point, acts.executing none (by simp)]
    exact at_owner
  · obtain ⟨before, there, absent⟩ := coherent.owner
    rw [at_owner, Option.some.injEq, Point.owner.injEq] at there
    subst there
    have apart : some j ≠ some i := by
      intro same
      obtain rfl := Option.some.inj same
      omega
    exact acts.unborn apart (absent j late)

/-- The thread `w` goes on at `point`, on the stack that it was on. -/
structure Moves (s t : Owned n F) (w : WorkerId n) (point : Point F) : Prop where
  machine : t.control.machine = s.control.machine.move w point
  held : ∀ v, v ≠ w → t.held v = s.held v
  cur : ∀ fiber, s.control.cur (.task fiber) = some (.task fiber) →
    t.control.cur (.task fiber) = some (.task fiber)
  frames : ∀ fiber, (Frame.mainFunc (.task fiber), fiber) ∈ s.frames →
    (Frame.mainFunc (.task fiber), fiber) ∈ t.frames

theorem Moves.acts {here : Context (FiberId n F) (Point F)} {point : Point F}
    (moves : Moves s t w point) (executes : s.control.machine.executing w = some here) :
    Acts s t w where
  alive := by simp [executes]
  executing v apart := by
    rw [moves.machine, move_executing _ _ _ executes, Function.update_of_ne apart]
  current v _ := by
    rw [moves.machine]
    rfl
  scheduler v _ := by
    rw [moves.machine]
    rfl
  held := moves.held
  returns v _ := by
    rw [moves.machine]
    rfl
  cur := moves.cur
  frames fiber called := Or.inl (moves.frames fiber called)

theorem Coherent.moved {i : Fin n} {here : Context (FiberId n F) (Point F)} {point : Point F}
    (coherent : s.Coherent) (moves : Moves s t (some i) point)
    (executes : s.control.machine.executing (some i) = some here)
    (placed : t.Placed (some i) { here with point := point }) : t.Coherent := by
  have acts := moves.acts executes
  apply coherent.acts acts (by simp [executes])
  · intro fiber
    apply acts.saved (coherent.saved fiber)
    rw [moves.machine]
    rfl
  · intro there now
    rw [moves.machine, move_executing _ _ _ executes, Function.update_self] at now
    obtain rfl := Option.some.inj now
    exact placed

/-- The worker goes on in `run`. -/
theorem Coherent.runs {i : Fin n} {here : Context (FiberId n F) (Point F)} {point : Point F}
    (coherent : s.Coherent) (moves : Moves s t (some i) point)
    (executes : s.control.machine.executing (some i) = some here)
    (was : InRun s (some i) here.point) (inside : InRun t (some i) point) : t.Coherent := by
  apply coherent.moved moves executes
  cases coherent.threads _ _ executes with
  | run _ known =>
      apply Placed.run inside
      rw [moves.machine]
      exact known
  | task _ there =>
      rcases there with rfl | ⟨rfl | rfl | rfl, _⟩ <;> cases was

/-- The worker goes on in `MainFunc`. -/
theorem Coherent.proceeds {i : Fin n} {here : Context (FiberId n F) (Point F)} {point : Point F}
    (coherent : s.Coherent) (moves : Moves s t (some i) point)
    (executes : s.control.machine.executing (some i) = some here)
    (on_task : here.stack = .task fiber) (same : t.held (some i) = s.held (some i))
    (inside : (point = .body ∨ point = .ended ∨ point = .behind) ∧ t.Entered fiber) :
    t.Coherent := by
  apply coherent.moved moves executes
  cases coherent.threads _ _ executes with
  | run _ known => cases on_task
  | task carries there =>
      cases on_task
      apply Placed.task _ (Or.inr inside)
      apply carries.frame _ _ same _ <;> rw [moves.machine] <;> rfl

/-- Where a worker that swaps a fiber in goes on. -/
theorem Saved.placed {i : Fin n} (saved : t.Saved fiber) (carries : t.Carries i fiber) :
    t.Placed (some i) (t.control.machine.saved (.task fiber)) := by
  have on_stack := saved.stack
  have at_point := saved.point
  generalize t.control.machine.saved (.task fiber) = there at on_stack at_point
  obtain ⟨stack, point, number⟩ := there
  obtain rfl : stack = .task fiber := on_stack
  apply Placed.task carries
  apply at_point.imp_right
  rintro ⟨body | behind, entered⟩
  · exact ⟨Or.inl body, entered⟩
  · exact ⟨Or.inr (Or.inr behind), entered⟩

section Switches

variable [DecidableEq F] {i : Fin n} {stack save load : FiberId n F} {after : Point F}

/-- A switch of the thread `w`. -/
structure Swaps (s t : Owned n F) (w : WorkerId n) (stack : FiberId n F) (after : Point F)
    (save load : FiberId n F) : Prop where
  machine : t.control.machine =
    (s.control.machine.setCurrent w (some load)).swapcontext w stack after save load
  cur : t.control.cur = s.control.cur
  held : t.held = s.held
  frames : ∀ fiber, (Frame.mainFunc (.task fiber), fiber) ∈ s.frames →
    (Frame.mainFunc (.task fiber), fiber) ∈ t.frames

namespace Swaps

variable (swaps : Swaps s t w stack after save load)
include swaps

theorem executing : t.control.machine.executing w = some (t.control.machine.saved load) := by
  rw [swaps.machine]
  exact Function.update_self ..

theorem current : t.control.machine.current w = some load := by
  rw [swaps.machine]
  exact Function.update_self ..

theorem scheduler : t.control.machine.scheduler = s.control.machine.scheduler := by
  rw [swaps.machine]
  rfl

theorem stored : t.control.machine.saved save = ⟨stack, after, some s.control.machine.swaps⟩ := by
  rw [swaps.machine]
  exact Function.update_self ..

theorem untouched {other : FiberId n F} (apart : other ≠ save) :
    t.control.machine.saved other = s.control.machine.saved other := by
  rw [swaps.machine]
  exact Function.update_of_ne apart ..

theorem acts (alive : s.control.machine.executing w ≠ none)
    (own : ∀ v, v ≠ w → FiberId.main v ≠ save) : Acts s t w where
  alive dead := absurd dead alive
  executing v apart := by
    rw [swaps.machine]
    exact Function.update_of_ne apart ..
  current v apart := by
    rw [swaps.machine]
    exact Function.update_of_ne apart ..
  scheduler v _ := by rw [swaps.scheduler]
  held v _ := by rw [swaps.held]
  returns v apart := swaps.untouched (own v apart)
  cur fiber entered := by rw [swaps.cur, entered]
  frames fiber called := Or.inl (swaps.frames fiber called)

end Swaps

theorem Coherent.swapsIn (coherent : s.Coherent)
    (alive : s.control.machine.executing (some i) ≠ none)
    (serves : s.control.machine.scheduler (some i) = some (.main (some i)))
    (full : s.held (some i) = some fiber)
    (swaps : Swaps s t (some i) (.main (some i)) .swapped (.main (some i)) (.task fiber)) :
    t.Coherent := by
  have acts := swaps.acts alive (by simp)
  have saved : ∀ other, t.Saved other := fun other =>
    acts.saved (coherent.saved other) (swaps.untouched (by simp))
  apply coherent.acts acts alive saved
  intro here executes
  rw [swaps.executing] at executes
  obtain rfl := Option.some.inj executes
  apply (saved fiber).placed
  constructor
  · exact swaps.current
  · rw [swaps.held]
    exact full
  · rw [swaps.scheduler]
    exact serves
  · exact ⟨_, swaps.stored⟩

/-- A fiber that switches away leaves its place behind, and its worker goes on in `run`. -/
theorem Coherent.swapsOut (coherent : s.Coherent)
    (alive : s.control.machine.executing (some i) ≠ none) (carries : s.Carries i fiber)
    (entered : s.Entered fiber) (resumable : after = .body ∨ after = .behind)
    (swaps : Swaps s t (some i) (.task fiber) after (.task fiber) (.main (some i))) :
    t.Coherent := by
  obtain ⟨mark, returns⟩ := carries.returns
  have acts := swaps.acts alive (by simp)
  apply coherent.acts acts alive
  · intro other
    by_cases same : other = fiber
    · subst same
      constructor
      · rw [swaps.stored]
      · rw [swaps.stored]
        exact Or.inr ⟨resumable, acts.entered entered⟩
    · exact acts.saved (coherent.saved other) (swaps.untouched (by simp [same]))
  · intro here executes
    rw [swaps.executing, swaps.untouched (by simp), returns] at executes
    obtain rfl := Option.some.inj executes
    apply Placed.run
    · apply InRun.swapped
      rw [swaps.scheduler]
      exact carries.serves
    · intro other known
      rw [swaps.current] at known
      exact (Option.some.inj known).symm

end Switches

end Coherence

end ZnetServer.Scheduler.Owned
