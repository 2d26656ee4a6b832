import ZnetServer.SchedulerContext
import ZnetServer.SchedulerDrain

set_option autoImplicit false

/- Where control is when fibers are used through the scheduler only: what each thread
executes, its pointers and the context in which its `run` waits. -/
namespace ZnetServer.Scheduler.Control

open ZnetServer.Fiber Transition
open TaskPool (Slot Pool)

variable {n : Nat} {F : Type}

/-- Between the first statement of `run` and its end. -/
def InRun : Point F → Prop
  | .locking | .popped _ | .swapped | .null => True
  | _ => False

/-- The fiber in whose `m_ctx` the `run` of a thread waits. -/
def home : WorkerId n → FiberId n F
  | some i => .main (some i)
  | none => .root

/-- The fiber that a thread has popped or executes. -/
def slotOf : Context (FiberId n F) (Point F) → Slot F
  | ⟨.task fiber, _, _⟩ => .begun fiber
  | ⟨_, .popped fiber, _⟩ => .given fiber
  | _ => .free

/-- The fibers as tasks: queued, or in the hands of a thread. -/
def pool (s : Control n F) : Pool (WorkerId n) F :=
  ⟨↑(s.fibers.filterMap id), fun w => ((s.machine.executing w).map slotOf).getD .free⟩

def closed (s : Control n F) (fiber : F) : Bool := (s.state (.task fiber)).finished

/-- The bodies only use `schedule`, `GetThis` and `Yield`, and a fiber is scheduled only
when it is neither queued nor popped nor executing nor finished. -/
def Disciplined (s : Control n F) : Event n F → Prop
  | .outside fiber | .thread _ (.schedule fiber) =>
    ∀ own ∈ fiber, TaskPool.Resting s.pool s.closed own
  | .thread _ (.perform _) | .thread _ (.reset _) => False
  | .thread w .yield => s.point w = some .body
  | _ => True

/-- The number of the last `swapcontext` in a trace whose step meets `matching`. -/
def lastSwap (matching : Control n F → Event n F → Prop) [∀ s e, Decidable (matching s e)]
    (trace : List (Control n F × Event n F)) : Option Nat :=
  trace.foldl (fun last step => if matching step.1 step.2 then some step.1.machine.swaps else last)
    none

theorem lastSwap_snoc (matching : Control n F → Event n F → Prop)
    [∀ s e, Decidable (matching s e)] (trace : List (Control n F × Event n F)) (s : Control n F)
    (e : Event n F) :
    lastSwap matching (trace ++ [(s, e)]) =
      if matching s e then some s.machine.swaps else lastSwap matching trace := by
  simp [lastSwap, List.foldl_append]

/-- The `call` or `swapIn` of a step, with its thread. -/
def resumption (s : Control n F) : Event n F → Option (WorkerId n × Switch (FiberId n F))
  | .thread w .swapIn => match s.point w with
    | some (.popped fiber) => some (w, .swapIn (.task fiber))
    | _ => none
  | .thread w .callRoot => some (w, .call .root)
  | .thread w (.perform switch) => some (w, switch)
  | _ => none

/-- The fiber that a step resumes by `call` or `swapIn`. -/
def resumed (s : Control n F) (e : Event n F) : Option (FiberId n F) :=
  (resumption s e).bind fun switch =>
    if (s.machine.ends switch.1 switch.2).isSome then switch.2.resumed else none

/-- A thread in `run`, on the stack of its scheduler fiber. -/
structure Serves (userCaller : Bool) (s : Control n F) (w : WorkerId n) : Prop where
  current : s.machine.current w = some (home w)
  scheduler : s.machine.scheduler w = some (home w)
  caller : w = none → userCaller = true

/-- The caller of the scheduler, who has not called the root fiber. -/
structure Owns (userCaller : Bool) (s : Control n F) : Prop where
  pointers : userCaller = true → s.machine.current none = some (.main none) ∧
    s.machine.main none = some (.main none) ∧ s.machine.scheduler none = some .root
  uncalled : userCaller = true → s.machine.saved .root = ⟨.root, .entry, none⟩

/-- The context in which a fiber is resumed next. -/
structure Suspended (s : Control n F) (fiber : F) : Prop where
  stack : (s.machine.saved (.task fiber)).stack = .task fiber
  place : (s.machine.saved (.task fiber)).point = .entry ∨
    (s.machine.saved (.task fiber)).point = .body ∧ s.cur (.task fiber) = some (.task fiber) ∨
    s.closed fiber = true

/-- What a step leaves as it is for a thread. -/
structure Same (s t : Control n F) (v : WorkerId n) : Prop where
  current : t.machine.current v = s.machine.current v
  main : t.machine.main v = s.machine.main v
  scheduler : t.machine.scheduler v = s.machine.scheduler v
  saved : t.machine.saved (home v) = s.machine.saved (home v)

theorem Walk.quiet {s : Control n F} {action : Act n F} {fibers : List (Option F)}
    {stopping : Bool} {point place : Point F} (w : WorkerId n)
    (walks : Walk s place action fibers stopping point) :
    resumed s (.thread w action) = none ∧ action ≠ .swapIn := by
  cases walks with
  | owner _ _ calls =>
    simp only [List.mem_cons, List.not_mem_nil, or_false] at calls
    rcases calls with rfl | rfl | rfl | rfl | rfl | rfl | rfl <;> exact ⟨rfl, nofun⟩
  | pop | popNull | nothing | loop | push => exact ⟨rfl, nofun⟩

section Frame

variable {userCaller : Bool} {s t : Control n F} {v w : WorkerId n}

theorem Serves.frame (serves : Serves userCaller s v) (same : Same s t v) :
    Serves userCaller t v :=
  ⟨same.current.trans serves.current, same.scheduler.trans serves.scheduler, serves.caller⟩

theorem Owns.frame (owns : Owns userCaller s) (same : Same s t none) : Owns userCaller t := by
  refine ⟨fun caller => ?_, fun caller => ?_⟩
  · rw [same.current, same.main, same.scheduler]
    exact owns.pointers caller
  · exact same.saved.trans (owns.uncalled caller)

theorem Suspended.frame {fiber : F} (suspended : Suspended s fiber)
    (saved : t.machine.saved (.task fiber) = s.machine.saved (.task fiber))
    (cur : ∀ stack, s.cur stack = some stack → t.cur stack = some stack)
    (closed : s.closed fiber = true → t.closed fiber = true) : Suspended t fiber := by
  refine ⟨by rw [saved]; exact suspended.stack, ?_⟩
  rw [saved]
  rcases suspended.place with entry | ⟨body, entered⟩ | ran
  · exact Or.inl entry
  · exact Or.inr (Or.inl ⟨body, cur _ entered⟩)
  · exact Or.inr (Or.inr (closed ran))

theorem Same.of_move {point : Point F} (machine : t.machine = s.machine.move w point)
    (v : WorkerId n) : Same s t v := by
  constructor <;> rw [machine] <;> rfl

theorem pool_slot {here : Context (FiberId n F) (Point F)}
    (executes : s.machine.executing w = some here) : s.pool.slot w = slotOf here := by
  simp [pool, executes]

theorem pool_update {there : Context (FiberId n F) (Point F)}
    (executing : t.machine.executing = Function.update s.machine.executing w (some there)) :
    t.pool = ⟨↑(t.fibers.filterMap id), Function.update s.pool.slot w (slotOf there)⟩ := by
  simp only [pool, executing, TaskPool.Pool.mk.injEq, true_and]
  funext v
  rw [Function.update_apply, Function.update_apply]
  split <;> rfl

theorem task_ne_home (fiber : F) (w : WorkerId n) : (.task fiber : FiberId n F) ≠ home w := by
  cases w <;> simp [home]

theorem slotOf_main {here : Context (FiberId n F) (Point F)} (on : here.stack = .main w)
    (calm : ∀ fiber, here.point ≠ .popped fiber) : slotOf here = .free := by
  obtain ⟨stack, point, number⟩ := here
  obtain rfl : stack = .main w := on
  cases point <;> first | rfl | exact absurd rfl (calm _)

/-- On the stack of `run` only the local `fiber` is in the hands of the thread. -/
theorem slotOf_home {here : Context (FiberId n F) (Point F)} (on : here.stack = home w)
    (calm : ∀ fiber, here.point ≠ .popped fiber) : slotOf here = .free := by
  obtain ⟨stack, point, number⟩ := here
  obtain rfl : stack = home w := on
  cases w <;> cases point <;> first | rfl | exact absurd rfl (calm _)

theorem slotOf_popped {here : Context (FiberId n F) (Point F)} {fiber : F}
    (on : here.stack = home w) (held : here.point = .popped fiber) :
    slotOf here = .given fiber := by
  obtain ⟨stack, point, number⟩ := here
  obtain rfl : stack = home w := on
  obtain rfl : point = .popped fiber := held
  cases w <;> rfl

theorem slotOf_task {here : Context (FiberId n F) (Point F)} {fiber : F}
    (on : here.stack = .task fiber) : slotOf here = .begun fiber := by
  obtain ⟨stack, point, number⟩ := here
  obtain rfl : stack = .task fiber := on
  rfl

/-- The fiber on whose stack a thread executes is in its hands. -/
theorem pool_begun {here : Context (FiberId n F) (Point F)} {fiber : F}
    (executes : s.machine.executing w = some here) (on : here.stack = .task fiber) :
    s.pool.slot w = .begun fiber := by
  rw [pool_slot executes, slotOf_task on]

/-- Neither a move inside a fiber nor one in `run` around `popped` changes hands. -/
theorem slotOf_moved_task {here : Context (FiberId n F) (Point F)} {fiber : F} {place : Point F}
    (on : here.stack = .task fiber) : slotOf { here with point := place } = slotOf here := by
  rw [slotOf_task on]
  exact slotOf_task on

theorem slotOf_moved_main {here : Context (FiberId n F) (Point F)} {place : Point F}
    (on : here.stack = .main w) (calm : ∀ fiber, here.point ≠ .popped fiber)
    (quiet : ∀ fiber, place ≠ .popped fiber) :
    slotOf { here with point := place } = slotOf here := by
  rw [slotOf_main on calm]
  exact slotOf_main on quiet

theorem pool_push (fiber : Option F) (fibers : t.fibers = s.fibers ++ [fiber])
    (slot : t.pool.slot = s.pool.slot) :
    t.pool = { s.pool with pending := ↑fiber.toList + s.pool.pending } := by
  rw [← show (⟨t.pool.pending, t.pool.slot⟩ : Pool (WorkerId n) F) = t.pool from rfl, slot]
  simp only [pool, fibers, pending_append]

end Frame

variable [DecidableEq F]

/-- The number of the last `call` or `swapIn` of the fiber. -/
def lastResume (trace : List (Control n F × Event n F)) (fiber : FiberId n F) : Option Nat :=
  lastSwap (fun s e => resumed s e = some fiber) trace

/-- The number of the last `swapIn` in the `run` of a thread. -/
def lastSwapIn (trace : List (Control n F × Event n F)) (w : WorkerId n) : Option Nat :=
  lastSwap (fun _ e => e = .thread w .swapIn) trace

/-- A thread that executes a fiber, with its `run` behind its last `swapIn`. -/
structure Carries (userCaller : Bool) (trace : List (Control n F × Event n F)) (s : Control n F)
    (w : WorkerId n) (fiber : F) : Prop where
  current : s.machine.current w = some (.task fiber)
  scheduler : s.machine.scheduler w = some (home w)
  caller : w = none → userCaller = true
  waits : s.machine.saved (home w) = ⟨home w, .swapped, lastSwapIn trace w⟩
  swapped : (lastSwapIn trace w).isSome
  resume : lastResume trace (.task fiber) = lastSwapIn trace w

/-- What holds at each place that a thread can have reached. -/
def Placed (userCaller : Bool) (trace : List (Control n F × Event n F)) (s : Control n F)
    (w : WorkerId n) (here : Context (FiberId n F) (Point F)) : Prop :=
  match here.point with
  | .owner pc => w = none ∧ here.stack = .main none ∧ pc ≠ .calling ∧ Owns userCaller s
  | .begins =>
    (w ≠ none ∧ here.stack = home w ∧ s.machine.current w = none) ∨
      (w = none ∧ here.stack = home w ∧ Serves userCaller s w)
  | .locking | .popped _ | .swapped | .null => here.stack = home w ∧ Serves userCaller s w
  | .left => w ≠ none ∧ here.stack = home w ∧ Serves userCaller s w
  | .constructed => False
  | .entry =>
    (w = none ∧ here.stack = home w ∧ Serves userCaller s w) ∨
      ∃ fiber, here.stack = .task fiber ∧ Carries userCaller trace s w fiber
  | .body =>
    ∃ fiber, here.stack = .task fiber ∧ s.cur (.task fiber) = some (.task fiber) ∧
      Carries userCaller trace s w fiber
  | .ended =>
    (w = none ∧ here.stack = home w ∧ Serves userCaller s w) ∨
      ∃ fiber, here.stack = .task fiber ∧ s.cur (.task fiber) = some (.task fiber) ∧
        s.closed fiber = true ∧ Carries userCaller trace s w fiber
  | .behind => w = none ∧ here.stack = home w ∧ Serves userCaller s w

structure Inv (userCaller : Bool) (trace : List (Control n F × Event n F)) (s : Control n F) :
    Prop where
  placed : ∀ w here, s.machine.executing w = some here → Placed userCaller trace s w here
  unborn : ∀ w, s.machine.executing w = none → w = none ∨ s.machine.current w = none
  created : ∀ here pc, s.machine.executing none = some here → here.point = .owner pc →
    ∀ i : Fin n, pc.created n ≤ i → s.machine.executing (some i) = none
  suspended : ∀ fiber, Suspended s fiber
  cur : ∀ stack fiber, s.cur stack = some fiber → fiber = stack
  single : TaskPool.Single s.pool s.closed

section Reached

variable {userCaller : Bool} {trace : List (Control n F × Event n F)} {s : Control n F}
  {w : WorkerId n} {here : Context (FiberId n F) (Point F)}

theorem Inv.at_owner {pc : OwnerPc} (inv : Inv userCaller trace s)
    (executes : s.machine.executing w = some here) (at_owner : here.point = .owner pc) :
    w = none ∧ here.stack = .main none ∧ pc ≠ .calling ∧ Owns userCaller s := by
  have placed := inv.placed w here executes
  unfold Placed at placed
  rwa [at_owner] at placed

theorem Inv.at_begin (inv : Inv userCaller trace s) (executes : s.machine.executing w = some here)
    (begins : here.point = .begins) :
    (w ≠ none ∧ here.stack = home w ∧ s.machine.current w = none) ∨
      (w = none ∧ here.stack = home w ∧ Serves userCaller s w) := by
  have placed := inv.placed w here executes
  unfold Placed at placed
  rwa [begins] at placed

theorem Inv.in_run {place : Point F} (inv : Inv userCaller trace s)
    (executes : s.machine.executing w = some here) (at_place : here.point = place)
    (inside : InRun place) : here.stack = home w ∧ Serves userCaller s w := by
  have placed := inv.placed w here executes
  unfold Placed at placed
  rw [at_place] at placed
  cases place <;> first | exact inside.elim | exact placed

theorem Inv.at_entry (inv : Inv userCaller trace s) (executes : s.machine.executing w = some here)
    (entry : here.point = .entry) :
    (w = none ∧ here.stack = home w ∧ Serves userCaller s w) ∨
      ∃ fiber, here.stack = .task fiber ∧ Carries userCaller trace s w fiber := by
  have placed := inv.placed w here executes
  unfold Placed at placed
  rwa [entry] at placed

theorem Inv.in_body (inv : Inv userCaller trace s) (executes : s.machine.executing w = some here)
    (inside : here.point = .body) :
    ∃ fiber, here.stack = .task fiber ∧ s.cur (.task fiber) = some (.task fiber) ∧
      Carries userCaller trace s w fiber := by
  have placed := inv.placed w here executes
  unfold Placed at placed
  rwa [inside] at placed

theorem Inv.at_end (inv : Inv userCaller trace s) (executes : s.machine.executing w = some here)
    (ended : here.point = .ended) :
    (w = none ∧ here.stack = home w ∧ Serves userCaller s w) ∨
      ∃ fiber, here.stack = .task fiber ∧ s.cur (.task fiber) = some (.task fiber) ∧
        s.closed fiber = true ∧ Carries userCaller trace s w fiber := by
  have placed := inv.placed w here executes
  unfold Placed at placed
  rwa [ended] at placed

theorem Inv.behind_end (inv : Inv userCaller trace s)
    (executes : s.machine.executing w = some here) (behind : here.point = .behind) :
    w = none ∧ here.stack = home w ∧ Serves userCaller s w := by
  have placed := inv.placed w here executes
  unfold Placed at placed
  rwa [behind] at placed

end Reached

section Frame

variable {userCaller : Bool} {trace later : List (Control n F × Event n F)} {s t : Control n F}
  {e : Event n F} {v : WorkerId n} {here : Context (FiberId n F) (Point F)}

theorem lastResume_quiet {fiber : FiberId n F} (quiet : resumed s e ≠ some fiber) :
    lastResume (trace ++ [(s, e)]) fiber = lastResume trace fiber := by
  rw [lastResume, lastSwap_snoc, if_neg quiet]
  rfl

theorem lastResume_none {fiber : FiberId n F} (quiet : resumed s e = none) :
    lastResume (trace ++ [(s, e)]) fiber = lastResume trace fiber := by
  apply lastResume_quiet
  rw [quiet]
  nofun

theorem lastSwapIn_quiet (other : e ≠ .thread v .swapIn) :
    lastSwapIn (trace ++ [(s, e)]) v = lastSwapIn trace v := by
  rw [lastSwapIn, lastSwap_snoc, if_neg other]
  rfl

theorem Carries.frame {fiber : F} (carries : Carries userCaller trace s v fiber)
    (same : Same s t v) (resume : lastResume later (.task fiber) = lastResume trace (.task fiber))
    (swapIn : lastSwapIn later v = lastSwapIn trace v) : Carries userCaller later t v fiber := by
  refine ⟨same.current.trans carries.current, same.scheduler.trans carries.scheduler,
    carries.caller, ?_, ?_, ?_⟩
  · rw [same.saved, swapIn]
    exact carries.waits
  · rw [swapIn]
    exact carries.swapped
  · rw [resume, swapIn]
    exact carries.resume

/-- A thread to which nothing happens stays where it is. -/
theorem Placed.frame (placed : Placed userCaller trace s v here) (same : Same s t v)
    (cur : ∀ stack, s.cur stack = some stack → t.cur stack = some stack)
    (closed : ∀ fiber, s.closed fiber = true → t.closed fiber = true)
    (resume : ∀ fiber, here.stack = .task fiber →
      lastResume later (.task fiber) = lastResume trace (.task fiber))
    (swapIn : lastSwapIn later v = lastSwapIn trace v) : Placed userCaller later t v here := by
  unfold Placed at placed ⊢
  split at placed
  · obtain ⟨rfl, on, apart, owns⟩ := placed
    exact ⟨rfl, on, apart, owns.frame same⟩
  · rcases placed with ⟨worker, on, fresh⟩ | ⟨caller, on, serves⟩
    · exact Or.inl ⟨worker, on, same.current.trans fresh⟩
    · exact Or.inr ⟨caller, on, serves.frame same⟩
  · exact ⟨placed.1, placed.2.frame same⟩
  · exact ⟨placed.1, placed.2.frame same⟩
  · exact ⟨placed.1, placed.2.frame same⟩
  · exact ⟨placed.1, placed.2.frame same⟩
  · exact ⟨placed.1, placed.2.1, placed.2.2.frame same⟩
  · exact placed
  · rcases placed with ⟨caller, on, serves⟩ | ⟨fiber, on, carries⟩
    · exact Or.inl ⟨caller, on, serves.frame same⟩
    · exact Or.inr ⟨fiber, on, carries.frame same (resume fiber on) swapIn⟩
  · obtain ⟨fiber, on, entered, carries⟩ := placed
    exact ⟨fiber, on, cur _ entered, carries.frame same (resume fiber on) swapIn⟩
  · rcases placed with ⟨caller, on, serves⟩ | ⟨fiber, on, entered, ran, carries⟩
    · exact Or.inl ⟨caller, on, serves.frame same⟩
    · exact Or.inr ⟨fiber, on, cur _ entered, closed fiber ran,
        carries.frame same (resume fiber on) swapIn⟩
  · exact ⟨placed.1, placed.2.1, placed.2.2.frame same⟩

end Frame

section Steps

variable {userCaller : Bool} {trace : List (Control n F × Event n F)} {s t : Control n F}
  {e : Event n F} {w : WorkerId n} {here there : Context (FiberId n F) (Point F)}

/-- A step that only the queue can feel. -/
theorem Inv.queued (inv : Inv userCaller trace s) (machine : t.machine = s.machine)
    (state : t.state = s.state) (cur : t.cur = s.cur) (quiet : resumed s e = none)
    (other : ∀ v, e ≠ .thread v .swapIn) (single : TaskPool.Single t.pool t.closed) :
    Inv userCaller (trace ++ [(s, e)]) t := by
  have same : ∀ v, Same s t v := by
    intro v
    constructor <;> rw [machine]
  have known : ∀ stack, s.cur stack = some stack → t.cur stack = some stack := by
    intro stack entered
    rwa [cur]
  have closed : ∀ fiber, s.closed fiber = true → t.closed fiber = true := by
    intro fiber ran
    rwa [Control.closed, state]
  refine ⟨fun v place executes => ?_, ?_, ?_, fun fiber => ?_, ?_, single⟩
  · rw [machine] at executes
    exact (inv.placed v place executes).frame (same v) known closed
      (fun _ _ => lastResume_none quiet) (lastSwapIn_quiet (other v))
  · rw [machine]
    exact inv.unborn
  · rw [machine]
    exact inv.created
  · exact (inv.suspended fiber).frame (by rw [machine]) known (closed fiber)
  · rw [cur]
    exact inv.cur

/-- A step of one thread: the others keep their places. -/
theorem Inv.acted (inv : Inv userCaller trace s) (executes : s.machine.executing w = some here)
    (executing : t.machine.executing = Function.update s.machine.executing w (some there))
    (same : ∀ v, v ≠ w → Same s t v)
    (known : ∀ stack, s.cur stack = some stack → t.cur stack = some stack)
    (closed : ∀ fiber, s.closed fiber = true → t.closed fiber = true)
    (quiet : ∀ v, v ≠ w → ∀ fiber, s.pool.slot v = .begun fiber → resumed s e ≠ some (.task fiber))
    (other : ∀ v, v ≠ w → e ≠ .thread v .swapIn)
    (placed : Placed userCaller (trace ++ [(s, e)]) t w there)
    (owner : ∀ pc, there.point = .owner pc → ∃ before, here.point = .owner before ∧
      ∀ i : Fin n, pc.created n ≤ i → before.created n ≤ i)
    (suspended : ∀ fiber, Suspended t fiber)
    (cur : ∀ stack fiber, t.cur stack = some fiber → fiber = stack)
    (single : TaskPool.Single t.pool t.closed) : Inv userCaller (trace ++ [(s, e)]) t := by
  have elsewhere : ∀ v, v ≠ w → t.machine.executing v = s.machine.executing v := by
    intro v apart
    rw [executing, Function.update_of_ne apart]
  refine ⟨fun v place executes_v => ?_, fun v nothing => ?_, fun place pc first at_owner => ?_,
    suspended, cur, single⟩
  · by_cases here_v : v = w
    · subst here_v
      rw [executing, Function.update_self] at executes_v
      exact Option.some.inj executes_v ▸ placed
    · rw [elsewhere v here_v] at executes_v
      apply (inv.placed v place executes_v).frame (same v here_v) known closed _
        (lastSwapIn_quiet (other v here_v))
      intro fiber on
      apply lastResume_quiet
      apply quiet v here_v fiber
      rw [pool_slot executes_v]
      obtain ⟨stack, point, number⟩ := place
      subst on
      rfl
  · by_cases here_v : v = w
    · subst here_v
      rw [executing, Function.update_self] at nothing
      cases nothing
    · rw [elsewhere v here_v] at nothing
      rw [(same v here_v).current]
      exact inv.unborn v nothing
  · intro i late
    by_cases caller : w = none
    · subst caller
      rw [executing, Function.update_self] at first
      obtain rfl := Option.some.inj first
      obtain ⟨before, at_before, earlier⟩ := owner pc at_owner
      rw [elsewhere (some i) nofun]
      exact inv.created here before executes at_before i (earlier i late)
    · rw [elsewhere none (Ne.symm caller)] at first
      have nothing := inv.created place pc first at_owner i late
      by_cases worker : some i = w
      · rw [worker, executes] at nothing
        cases nothing
      · rw [elsewhere (some i) worker]
        exact nothing

/-- A thread moves inside its code, and nothing is resumed. -/
theorem Inv.moved {point : Point F} (inv : Inv userCaller trace s)
    (executes : s.machine.executing w = some here) (machine : t.machine = s.machine.move w point)
    (known : ∀ stack, s.cur stack = some stack → t.cur stack = some stack)
    (closed : ∀ fiber, s.closed fiber = true → t.closed fiber = true)
    (quiet : resumed s e = none) (other : ∀ v, e ≠ .thread v .swapIn)
    (placed : Placed userCaller (trace ++ [(s, e)]) t w { here with point := point })
    (owner : ∀ pc, point = .owner pc → ∃ before, here.point = .owner before ∧
      ∀ i : Fin n, pc.created n ≤ i → before.created n ≤ i)
    (cur : ∀ stack fiber, t.cur stack = some fiber → fiber = stack)
    (single : TaskPool.Single t.pool t.closed) : Inv userCaller (trace ++ [(s, e)]) t := by
  have executing : t.machine.executing =
      Function.update s.machine.executing w (some { here with point := point }) := by
    rw [machine, move_executing _ _ _ executes]
  apply inv.acted executes executing (fun v _ => Same.of_move machine v) known closed
    (fun v _ fiber _ => by rw [quiet]; nofun) (fun v _ => other v) placed owner _ cur single
  intro fiber
  exact (inv.suspended fiber).frame (by rw [machine]; rfl) known (closed fiber)

/-- The caller leaves a context that has no successor. -/
theorem Inv.exited (inv : Inv userCaller trace s) (quiet : resumed s e = none)
    (other : ∀ v, e ≠ .thread v .swapIn) :
    Inv userCaller (trace ++ [(s, e)]) (s.exit none) := by
  have elsewhere : ∀ v, v ≠ none → (s.exit none).machine.executing v = s.machine.executing v :=
    fun v apart => Function.update_of_ne apart ..
  have gone : (s.exit none).machine.executing none = none := by
    simp [Control.exit]
  refine ⟨fun v place executes => ?_, fun v nothing => ?_, fun place pc first => ?_,
    fun fiber => ?_, inv.cur, ?_⟩
  · have apart : v ≠ none := by
      rintro rfl
      rw [gone] at executes
      cases executes
    rw [elsewhere v apart] at executes
    exact (inv.placed v place executes).frame ⟨rfl, rfl, rfl, rfl⟩ (fun _ known => known)
      (fun _ ran => ran) (fun _ _ => lastResume_none quiet) (lastSwapIn_quiet (other v))
  · by_cases caller : v = none
    · exact Or.inl caller
    · rw [elsewhere v caller] at nothing
      exact inv.unborn v nothing
  · rw [gone] at first
    cases first
  · exact (inv.suspended fiber).frame rfl (fun _ known => known) (fun ran => ran)
  · have slots : (s.exit none).pool =
        { s.pool with slot := Function.update s.pool.slot none .free } := by
      simp only [pool, Control.exit, exit_executing, TaskPool.Pool.mk.injEq, true_and]
      funext v
      rw [Function.update_apply, Function.update_apply]
      split <;> rfl
    rw [slots]
    exact inv.single.setSlot (fun _ holds => holds.elim) nofun

/-- A thread that leaves the queue alone takes nothing new into its hands. -/
theorem Inv.keeps (inv : Inv userCaller trace s)
    (pending : (↑(t.fibers.filterMap id) : Multiset F) = ↑(s.fibers.filterMap id))
    (executing : t.machine.executing = Function.update s.machine.executing w (some there))
    (state : t.closed = s.closed) (less : slotOf there = .free ∨ slotOf there = s.pool.slot w) :
    TaskPool.Single t.pool t.closed := by
  rw [pool_update executing, pending, state]
  apply inv.single.setSlot
  · intro fiber holds
    rcases less with free | same
    · rw [free] at holds
      exact holds.elim
    · rwa [same] at holds
  · intro fiber given
    rcases less with free | same
    · rw [free] at given
      cases given
    · exact inv.single.given w fiber (same.symm.trans given)

/-- A call of `schedule` with a fiber that rests, or with a null pointer. -/
theorem Inv.pushes (inv : Inv userCaller trace s) {fiber : Option F}
    (resting : ∀ own ∈ fiber, TaskPool.Resting s.pool s.closed own)
    (fibers : t.fibers = s.fibers ++ [fiber]) (slot : t.pool.slot = s.pool.slot)
    (state : t.closed = s.closed) : TaskPool.Single t.pool t.closed := by
  rw [pool_push fiber fibers slot, state]
  cases fiber with
  | none => simpa using inv.single
  | some own => exact inv.single.next (e := .submit own) (resting own rfl) rfl

/-- A new thread begins. -/
theorem Inv.born (inv : Inv userCaller trace s) {i : Fin n}
    (nothing : s.machine.executing (some i) = none)
    (later : ∀ place pc, s.machine.executing none = some place → place.point = .owner pc →
      ¬ pc.created n ≤ i) :
    Inv userCaller trace { s with
      machine := s.machine.setExecuting (some i) (some ⟨.main (some i), .begins, none⟩) } := by
  have elsewhere : ∀ v, v ≠ some i → (s.machine.setExecuting (some i)
      (some ⟨.main (some i), .begins, none⟩)).executing v = s.machine.executing v :=
    fun v apart => Function.update_of_ne apart ..
  refine ⟨fun v place executes => ?_, fun v absent => ?_, fun place pc first at_owner j late => ?_,
    fun fiber => ?_, inv.cur, ?_⟩
  · by_cases new : v = some i
    · subst new
      simp only [Machine.setExecuting, Function.update_self] at executes
      cases executes
      left
      refine ⟨by simp, rfl, ?_⟩
      rcases inv.unborn (some i) nothing with caller | fresh
      · cases caller
      · exact fresh
    · rw [elsewhere v new] at executes
      exact (inv.placed v place executes).frame ⟨rfl, rfl, rfl, rfl⟩ (fun _ known => known)
        (fun _ ran => ran) (fun _ _ => rfl) rfl
  · by_cases new : v = some i
    · subst new
      simp [Machine.setExecuting] at absent
    · rw [elsewhere v new] at absent
      exact inv.unborn v absent
  · rw [elsewhere none (by simp)] at first
    have apart : some j ≠ some i := by
      intro same
      rw [Option.some.inj same] at late
      exact later place pc first at_owner late
    rw [elsewhere (some j) apart]
    exact inv.created place pc first at_owner j late
  · exact (inv.suspended fiber).frame rfl (fun _ known => known) (fun ran => ran)
  · exact inv.keeps rfl rfl rfl (Or.inl rfl)

/-- What a switch does to the state. -/
structure Switched (s t : Control n F) (w : WorkerId n) (stack : FiberId n F) (after : Point F)
    (save load : FiberId n F) : Prop where
  fibers : t.fibers = s.fibers
  state : t.state = s.state
  cur : t.cur = s.cur
  current : t.machine.current = Function.update s.machine.current w (some load)
  main : t.machine.main = s.machine.main
  scheduler : t.machine.scheduler = s.machine.scheduler
  saved : t.machine.saved =
    Function.update s.machine.saved save ⟨stack, after, some s.machine.swaps⟩
  executing : t.machine.executing =
    Function.update s.machine.executing w (some (t.machine.saved load))
  swaps : t.machine.swaps = s.machine.swaps + 1

theorem perform_switched {save load : FiberId n F} {switch : Switch (FiberId n F)}
    (stack : FiberId n F) (after : Point F) (ends : s.machine.ends w switch = some (save, load)) :
    Switched s (s.perform w stack after switch) w stack after save load := by
  have machine : (s.perform w stack after switch).machine =
      (s.machine.setCurrent w (some load)).swapcontext w stack after save load :=
    perform_ends _ _ _ _ ends
  constructor <;> first | rfl | (rw [machine]; rfl)

theorem Switched.same {stack save load : FiberId n F} {after : Point F}
    (switched : Switched s t w stack after save load) {v : WorkerId n} (apart : v ≠ w)
    (other : home v ≠ save) : Same s t v := by
  constructor
  · rw [switched.current, Function.update_of_ne apart]
  · rw [switched.main]
  · rw [switched.scheduler]
  · rw [switched.saved, Function.update_of_ne other]

theorem Switched.closed {stack save load : FiberId n F} {after : Point F}
    (switched : Switched s t w stack after save load) : t.closed = s.closed := by
  funext fiber
  rw [Control.closed, switched.state]
  rfl

theorem Switched.loaded {stack save load : FiberId n F} {after : Point F}
    (switched : Switched s t w stack after save load) (apart : load ≠ save) :
    t.machine.saved load = s.machine.saved load := by
  rw [switched.saved, Function.update_of_ne apart]

/-- A switch between two fibers goes on where the second one was left. -/
theorem Switched.loads {stack save load : FiberId n F} {after : Point F}
    (switched : Switched s t w stack after save load) (apart : load ≠ save) :
    t.machine.executing = Function.update s.machine.executing w (some (s.machine.saved load)) := by
  rw [switched.executing, switched.loaded apart]

/-- A switch that leaves the contexts alone in which the other threads wait. -/
theorem Inv.switched {save load : FiberId n F} {after : Point F} (inv : Inv userCaller trace s)
    (executes : s.machine.executing w = some here)
    (switched : Switched s t w here.stack after save load)
    (apart : ∀ v, v ≠ w → home v ≠ save)
    (quiet : ∀ v, v ≠ w → ∀ fiber, s.pool.slot v = .begun fiber → resumed s e ≠ some (.task fiber))
    (other : ∀ v, v ≠ w → e ≠ .thread v .swapIn)
    (placed : Placed userCaller (trace ++ [(s, e)]) t w (t.machine.saved load))
    (owner : ∀ pc, (t.machine.saved load).point ≠ .owner pc)
    (suspended : ∀ fiber, save = .task fiber → Suspended t fiber)
    (single : TaskPool.Single t.pool t.closed) : Inv userCaller (trace ++ [(s, e)]) t := by
  have known : ∀ stack, s.cur stack = some stack → t.cur stack = some stack := by
    rw [switched.cur]
    exact fun _ entered => entered
  have closed : ∀ fiber, s.closed fiber = true → t.closed fiber = true := by
    rw [switched.closed]
    exact fun _ ran => ran
  apply inv.acted executes switched.executing
    (fun v elsewhere => switched.same elsewhere (apart v elsewhere)) known closed quiet other
    placed (fun pc at_pc => absurd at_pc (owner pc)) _ _ single
  · intro fiber
    by_cases mine : save = .task fiber
    · exact suspended fiber mine
    · apply (inv.suspended fiber).frame _ known (closed fiber)
      rw [switched.saved, Function.update_of_ne (Ne.symm mine)]
  · rw [switched.cur]
    exact inv.cur

end Steps

end ZnetServer.Scheduler.Control
