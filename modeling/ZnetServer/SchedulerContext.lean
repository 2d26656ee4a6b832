import ZnetServer.Fiber
import ZnetServer.Scheduler

set_option autoImplicit false

/- `server/scheduler.cpp` over `server/fiber.cpp`: each thread executes what the last
`swapcontext` has loaded, so where a fiber gives control to is not built in. A wait may end
at any time, so that the notifications decide nothing here. -/
namespace ZnetServer.Scheduler

open ZnetServer.Fiber

/-- The main fiber of a thread, the root fiber of a scheduler with `user_caller`, and the
fibers with a callback of their own. -/
inductive FiberId (n : Nat) (F : Type) where
  | main (w : WorkerId n)
  | root
  | task (fiber : F)
  deriving DecidableEq

/-- Places in the code. -/
inductive Point (F : Type) where
  /-- The caller of the scheduler, around `start` and `stop` and in them. -/
  | owner (pc : OwnerPc)
  /-- In front of the first statement of `run`. -/
  | begins
  /-- In front of the lock. -/
  | locking
  /-- In front of `swapIn`, with the local `fiber`. -/
  | popped (fiber : F)
  /-- Behind `swapIn`. -/
  | swapped
  /-- The local `fiber` is null. -/
  | null
  /-- Out of the function of the thread. -/
  | left
  /-- Behind the `getcontext` in the constructor of a main fiber. -/
  | constructed
  /-- In front of `MainFunc`. -/
  | entry
  | body
  /-- The callback is over and the last `swapOut` of `MainFunc` is next. -/
  | ended
  /-- Behind that `swapOut`. -/
  | behind
  deriving DecidableEq

/-- Code of the user: a callback, or the caller outside `start` and `stop`. -/
def Point.user {F : Type} : Point F → Bool
  | .body | .owner .built | .owner .started | .owner .returned => true
  | _ => false

structure Control (n : Nat) (F : Type) where
  /-- `m_fibers` -/
  fibers : List (Option F)
  /-- `m_stopping` -/
  stopping : Bool
  machine : Machine (WorkerId n) (FiberId n F) (Point F)
  /-- `m_state` -/
  state : FiberId n F → FiberState
  /-- The local `cur` of `MainFunc` on the stack of the fiber. -/
  cur : FiberId n F → Option (FiberId n F)

namespace Control

/-- What a thread does next. -/
inductive Act (n : Nat) (F : Type) where
  | start
  | spawn
  | startReturns
  | stop
  | notifyAll
  | swapThreads
  | join
  | callRoot
  | stopReturns
  | begin
  | take
  | swapIn
  | loop
  | checkStopping
  | enter
  | schedule (fiber : Option F)
  | getThis
  | yield
  | finish (threw : Bool)
  | endMain
  | fallOff
  | perform (switch : Switch (FiberId n F))
  | reset (fiber : FiberId n F)
  deriving DecidableEq

/-- A thread outside the scheduler calls `schedule`, or one of the threads goes on. -/
inductive Event (n : Nat) (F : Type) where
  | outside (fiber : Option F)
  | thread (w : WorkerId n) (act : Act n F)
  deriving DecidableEq

variable {n : Nat} {F : Type}

def point (s : Control n F) (w : WorkerId n) : Option (Point F) :=
  (s.machine.executing w).map Context.point

def move (s : Control n F) (w : WorkerId n) (point : Point F) : Control n F :=
  { s with machine := s.machine.move w point }

def exit (s : Control n F) (w : WorkerId n) : Control n F :=
  { s with machine := s.machine.exit w }

/-- `join` returns when the function of the thread has returned, or the thread has ended
elsewhere. -/
def exited (s : Control n F) (w : WorkerId n) : Bool :=
  match s.machine.executing w with
  | none => true
  | some here => match here.point with
    | .left => true
    | _ => false

/-- The steps that neither switch contexts nor touch the pointers: the queue, `m_stopping`
and the next place of the thread. -/
def walk (userCaller : Bool) (s : Control n F) (here : Context (FiberId n F) (Point F)) :
    Act n F → Option (List (Option F) × Bool × Point F)
  | .start => match here.point with
    | .owner .built => some (s.fibers, false, .owner (.starting 0))
    | _ => none
  | .startReturns => match here.point with
    | .owner (.starting created) =>
      if created < n then none else some (s.fibers, s.stopping, .owner .started)
    | _ => none
  | .stop => match here.point with
    | .owner .started => some (s.fibers, true, .owner .flagged)
    | _ => none
  | .notifyAll => match here.point with
    | .owner .flagged => some (s.fibers, s.stopping, .owner .notified)
    | _ => none
  | .swapThreads => match here.point with
    | .owner .notified => some (s.fibers, s.stopping, .owner (.joining 0))
    | _ => none
  | .join => match here.point with
    | .owner (.joining joined) =>
      if inside : joined < n then
        if s.exited (some ⟨joined, inside⟩) then
          some (s.fibers, s.stopping, .owner (.joining (joined + 1)))
        else none
      else none
    | _ => none
  | .stopReturns => match here.point with
    | .owner (.joining joined) =>
      if n ≤ joined ∧ userCaller = false then some (s.fibers, s.stopping, .owner .returned)
      else none
    | .owner .calling => some (s.fibers, s.stopping, .owner .returned)
    | _ => none
  | .take => match here.point with
    | .locking =>
      if s.fibers.isEmpty && !s.stopping then none
      else match s.fibers.getLast? with
        | some (some fiber) => some (s.fibers.dropLast, s.stopping, .popped fiber)
        | some none => some (s.fibers.dropLast, s.stopping, .null)
        | none => some (s.fibers, s.stopping, .null)
    | _ => none
  | .loop => match here.point with
    | .swapped => some (s.fibers, s.stopping, .locking)
    | _ => none
  | .schedule fiber => match here.point with
    | .body => some (s.fibers ++ [fiber], s.stopping, .body)
    | _ => none
  | _ => none

variable [DecidableEq F]

/-- The constructor, on the thread `none`. -/
def init (userCaller : Bool) : Control n F where
  fibers := []
  stopping := true
  machine := {
    current := fun w => if userCaller && w.isNone then some (.main none) else none
    main := fun w => if userCaller && w.isNone then some (.main none) else none
    scheduler := fun w => if userCaller && w.isNone then some .root else none
    saved := fun fiber => match fiber with
      | .main _ => ⟨fiber, .constructed, none⟩
      | .root | .task _ => ⟨fiber, .entry, none⟩
    executing := fun w => if w.isNone then some ⟨.main none, .owner .built, none⟩ else none
    swaps := 0 }
  state := fun fiber => match fiber with
    | .main _ => .exec
    | .root | .task _ => .init
  cur := fun _ => none

def perform (s : Control n F) (w : WorkerId n) (stack : FiberId n F) (after : Point F)
    (switch : Switch (FiberId n F)) : Control n F :=
  { s with machine := s.machine.perform w stack after switch }

/-- `Fiber::GetThis`; the main fiber of a thread is in state EXEC. -/
def getThis (s : Control n F) (w : WorkerId n) : Control n F × FiberId n F :=
  let (machine, fiber) := s.machine.getThis w (.main w) .constructed
  let state := if (s.machine.current w).isNone then Function.update s.state (.main w) .exec
    else s.state
  ({ s with machine := machine, state := state }, fiber)

section GetThis

variable {s : Control n F} {w : WorkerId n}

theorem getThis_known {fiber : FiberId n F} (known : s.machine.current w = some fiber) :
    s.getThis w = (s, fiber) := by
  simp [Control.getThis, Fiber.getThis_known _ _ known, known]

/-- `GetThis` makes a main fiber when the thread has no current one. -/
theorem getThis_fresh (fresh : s.machine.current w = none) :
    s.getThis w = ({ s with
      machine := { s.machine with
        main := Function.update s.machine.main w (some (.main w))
        current := Function.update s.machine.current w (some (.main w))
        saved := Function.update s.machine.saved (.main w) ⟨.main w, .constructed, none⟩ }
      state := Function.update s.state (.main w) .exec }, .main w) := by
  simp [Control.getThis, Machine.getThis, fresh]

end GetThis

/-- The callback of `MainFunc` returns or throws. -/
def callbackEnds (s : Control n F) (w : WorkerId n) (stack : FiberId n F) (threw : Bool) :
    Control n F :=
  match s.cur stack with
  | some fiber =>
    { s with state := Function.update s.state fiber (if threw then .except else .term) }.move w
      .ended
  | none => s.exit w

/-- The other steps. -/
def act (userCaller : Bool) (s : Control n F) (w : WorkerId n)
    (here : Context (FiberId n F) (Point F)) : Act n F → Option (Control n F)
  | .spawn => match here.point with
    | .owner (.starting created) =>
      if inside : created < n then
        let thread : WorkerId n := some ⟨created, inside⟩
        let s := s.move w (.owner (.starting (created + 1)))
        some { s with
          machine := s.machine.setExecuting thread (some ⟨.main thread, .begins, none⟩) }
      else none
    | _ => none
  | .callRoot => match here.point with
    | .owner (.joining joined) =>
      if n ≤ joined ∧ userCaller then
        some (s.perform w here.stack (.owner .calling) (.call .root))
      else none
    | _ => none
  -- The thread of the caller is the only one with the id `m_rootThreadId`.
  | .begin => match here.point with
    | .begins =>
      if userCaller && w.isNone then some (s.move w .locking)
      else
        let (t, fiber) := s.getThis w
        some ({ t with machine := t.machine.setScheduler w fiber }.move w .locking)
    | _ => none
  | .swapIn => match here.point with
    | .popped fiber => some (s.perform w here.stack .swapped (.swapIn (.task fiber)))
    | _ => none
  -- On the stack of a fiber `run` is the callback.
  | .checkStopping => match here.point with
    | .null =>
      if s.stopping then
        match here.stack with
        | .main _ => some (s.move w .left)
        | .root | .task _ => some (s.callbackEnds w here.stack false)
      else some (s.move w .locking)
    | _ => none
  | .enter => match here.point with
    | .entry =>
      let (t, fiber) := s.getThis w
      let t := { t with cur := Function.update t.cur here.stack (some fiber) }
      match fiber with
      | .root => some (t.move w .begins)
      | .task _ => some (t.move w .body)
      -- A main fiber has no callback, and calling none throws.
      | .main _ => some (t.callbackEnds w here.stack true)
    | _ => none
  | .getThis => if here.point.user then some (s.getThis w).1 else none
  | .yield =>
    if here.point.user then
      let (t, fiber) := s.getThis w
      some (t.perform w here.stack here.point (.swapOut fiber))
    else none
  | .finish threw => match here.point with
    | .body => some (s.callbackEnds w here.stack threw)
    | _ => none
  | .endMain => match here.point with
    | .ended => match s.cur here.stack with
      | some fiber => some (s.perform w here.stack .behind (.swapOut fiber))
      | none => some (s.exit w)
    | _ => none
  | .fallOff => match here.point with
    | .behind => some (s.exit w)
    | _ => none
  | .perform switch =>
    if here.point.user then some (s.perform w here.stack here.point switch) else none
  | .reset fiber =>
    if here.point.user then
      match fiber with
      | .main _ => none
      | .root | .task _ => some { s with machine := s.machine.make fiber .entry }
    else none
  | other => (walk userCaller s here other).map fun after =>
    { s with fibers := after.1, stopping := after.2.1 }.move w after.2.2

/-- One step of the program. -/
def next (userCaller : Bool) (s : Control n F) : Event n F → Option (Control n F)
  | .outside fiber => some { s with fibers := s.fibers ++ [fiber] }
  | .thread w action => match s.machine.executing w with
    | some here => act userCaller s w here action
    | none => none

/-- What a walk can do, from the place of the thread. -/
inductive Walk (s : Control n F) (place : Point F) :
    Act n F → List (Option F) → Bool → Point F → Prop
  | owner {action : Act n F} {pc after : OwnerPc} (stopping : Bool) (at_owner : place = .owner pc)
      (calls : action ∈
        [.start, .startReturns, .stop, .notifyAll, .swapThreads, .join, .stopReturns])
      (apart : after ≠ .calling)
      (created : ∀ i : Fin n, after.created n ≤ i → pc.created n ≤ i) :
      Walk s place action s.fibers stopping (.owner after)
  | pop {rest : List (Option F)} {fiber : F} (at_lock : place = .locking)
      (back : s.fibers = rest ++ [some fiber]) : Walk s place .take rest s.stopping (.popped fiber)
  | popNull {rest : List (Option F)} (at_lock : place = .locking)
      (back : s.fibers = rest ++ [none]) : Walk s place .take rest s.stopping .null
  | nothing (at_lock : place = .locking) (empty : s.fibers = []) (stops : s.stopping = true) :
      Walk s place .take s.fibers s.stopping .null
  | loop (behind : place = .swapped) : Walk s place .loop s.fibers s.stopping .locking
  | push {fiber : Option F} (inside : place = .body) :
      Walk s place (.schedule fiber) (s.fibers ++ [fiber]) s.stopping .body

/-- What each event does, with the guard under which it can happen. -/
inductive Step (userCaller : Bool) (s : Control n F) : Event n F → Control n F → Prop
  | outside (fiber : Option F) :
      Step userCaller s (.outside fiber) { s with fibers := s.fibers ++ [fiber] }
  | walk {w : WorkerId n} {here : Context (FiberId n F) (Point F)} {action : Act n F}
      {fibers : List (Option F)} {stopping : Bool} {point : Point F}
      (executes : s.machine.executing w = some here)
      (walks : Walk s here.point action fibers stopping point) :
      Step userCaller s (.thread w action)
        ({ s with fibers := fibers, stopping := stopping }.move w point)
  | spawn {w : WorkerId n} {here : Context (FiberId n F) (Point F)} {created : Nat}
      (executes : s.machine.executing w = some here)
      (at_owner : here.point = .owner (.starting created)) (inside : created < n) :
      Step userCaller s (.thread w .spawn)
        { s with
          machine := (s.machine.move w (.owner (.starting (created + 1)))).setExecuting
            (some ⟨created, inside⟩) (some ⟨.main (some ⟨created, inside⟩), .begins, none⟩) }
  | callRoot {w : WorkerId n} {here : Context (FiberId n F) (Point F)} {joined : Nat}
      (executes : s.machine.executing w = some here)
      (at_owner : here.point = .owner (.joining joined)) (caller : userCaller = true) :
      Step userCaller s (.thread w .callRoot)
        (s.perform w here.stack (.owner .calling) (.call .root))
  | beginRoot {here : Context (FiberId n F) (Point F)}
      (executes : s.machine.executing none = some here) (begins : here.point = .begins)
      (caller : userCaller = true) : Step userCaller s (.thread none .begin) (s.move none .locking)
  | begin {w : WorkerId n} {here : Context (FiberId n F) (Point F)}
      (executes : s.machine.executing w = some here) (begins : here.point = .begins)
      (other : userCaller = true → w ≠ none) :
      Step userCaller s (.thread w .begin)
        ({ (s.getThis w).1 with
          machine := (s.getThis w).1.machine.setScheduler w (s.getThis w).2 }.move w .locking)
  | swapIn {w : WorkerId n} {here : Context (FiberId n F) (Point F)} {fiber : F}
      (executes : s.machine.executing w = some here) (held : here.point = .popped fiber) :
      Step userCaller s (.thread w .swapIn)
        (s.perform w here.stack .swapped (.swapIn (.task fiber)))
  | leave {w v : WorkerId n} {here : Context (FiberId n F) (Point F)}
      (executes : s.machine.executing w = some here) (null : here.point = .null)
      (stops : s.stopping = true) (on_thread : here.stack = .main v) :
      Step userCaller s (.thread w .checkStopping) (s.move w .left)
  | again {w : WorkerId n} {here : Context (FiberId n F) (Point F)}
      (executes : s.machine.executing w = some here) (null : here.point = .null)
      (going : s.stopping = false) :
      Step userCaller s (.thread w .checkStopping) (s.move w .locking)
  | runEnds {w : WorkerId n} {here : Context (FiberId n F) (Point F)}
      (executes : s.machine.executing w = some here) (null : here.point = .null)
      (stops : s.stopping = true) (on_fiber : ∀ v, here.stack ≠ .main v) :
      Step userCaller s (.thread w .checkStopping) (s.callbackEnds w here.stack false)
  | enterRoot {w : WorkerId n} {here : Context (FiberId n F) (Point F)}
      (executes : s.machine.executing w = some here) (entry : here.point = .entry)
      (this : (s.getThis w).2 = .root) :
      Step userCaller s (.thread w .enter)
        ({ (s.getThis w).1 with
          cur := Function.update (s.getThis w).1.cur here.stack (some .root) }.move w .begins)
  | enter {w : WorkerId n} {here : Context (FiberId n F) (Point F)} {fiber : F}
      (executes : s.machine.executing w = some here) (entry : here.point = .entry)
      (this : (s.getThis w).2 = .task fiber) :
      Step userCaller s (.thread w .enter)
        ({ (s.getThis w).1 with
          cur := Function.update (s.getThis w).1.cur here.stack (some (.task fiber)) }.move w .body)
  | enterNone {w v : WorkerId n} {here : Context (FiberId n F) (Point F)}
      (executes : s.machine.executing w = some here) (entry : here.point = .entry)
      (this : (s.getThis w).2 = .main v) :
      Step userCaller s (.thread w .enter)
        (callbackEnds { (s.getThis w).1 with
          cur := Function.update (s.getThis w).1.cur here.stack (some (.main v)) } w
            here.stack true)
  | getThis {w : WorkerId n} {here : Context (FiberId n F) (Point F)}
      (executes : s.machine.executing w = some here) (user : here.point.user = true) :
      Step userCaller s (.thread w .getThis) (s.getThis w).1
  | yield {w : WorkerId n} {here : Context (FiberId n F) (Point F)}
      (executes : s.machine.executing w = some here) (user : here.point.user = true) :
      Step userCaller s (.thread w .yield)
        ((s.getThis w).1.perform w here.stack here.point (.swapOut (s.getThis w).2))
  | finish {w : WorkerId n} {here : Context (FiberId n F) (Point F)} (threw : Bool)
      (executes : s.machine.executing w = some here) (inside : here.point = .body) :
      Step userCaller s (.thread w (.finish threw)) (s.callbackEnds w here.stack threw)
  | endMain {w : WorkerId n} {here : Context (FiberId n F) (Point F)} {fiber : FiberId n F}
      (executes : s.machine.executing w = some here) (ended : here.point = .ended)
      (cur : s.cur here.stack = some fiber) :
      Step userCaller s (.thread w .endMain) (s.perform w here.stack .behind (.swapOut fiber))
  | endLost {w : WorkerId n} {here : Context (FiberId n F) (Point F)}
      (executes : s.machine.executing w = some here) (ended : here.point = .ended)
      (cur : s.cur here.stack = none) : Step userCaller s (.thread w .endMain) (s.exit w)
  | fallOff {w : WorkerId n} {here : Context (FiberId n F) (Point F)}
      (executes : s.machine.executing w = some here) (behind : here.point = .behind) :
      Step userCaller s (.thread w .fallOff) (s.exit w)
  | perform {w : WorkerId n} {here : Context (FiberId n F) (Point F)}
      (switch : Switch (FiberId n F)) (executes : s.machine.executing w = some here)
      (user : here.point.user = true) :
      Step userCaller s (.thread w (.perform switch)) (s.perform w here.stack here.point switch)
  | reset {w : WorkerId n} {here : Context (FiberId n F) (Point F)} (fiber : FiberId n F)
      (executes : s.machine.executing w = some here) (user : here.point.user = true) :
      Step userCaller s (.thread w (.reset fiber)) { s with machine := s.machine.make fiber .entry }

omit [DecidableEq F] in
theorem walk_walks {userCaller : Bool} {s : Control n F} {here : Context (FiberId n F) (Point F)}
    {action : Act n F} {fibers : List (Option F)} {stopping : Bool} {point : Point F}
    (walks : walk userCaller s here action = some (fibers, stopping, point)) :
    Walk s here.point action fibers stopping point := by
  have all_created : ∀ {pc : OwnerPc} (i : Fin n), n ≤ i → pc.created n ≤ i :=
    fun i late => absurd i.isLt (Nat.not_lt_of_le late)
  cases action <;> simp only [walk] at walks
  case start =>
    split at walks
    · rename_i at_owner
      cases walks
      exact .owner _ at_owner (by simp) nofun fun i _ => Nat.zero_le i
    · cases walks
  case stop | notifyAll | swapThreads =>
    split at walks
    · rename_i at_owner
      cases walks
      exact .owner _ at_owner (by simp) nofun all_created
    · cases walks
  case startReturns =>
    split at walks
    · rename_i at_owner
      split at walks <;> cases walks
      exact .owner _ at_owner (by simp) nofun all_created
    · cases walks
  case join =>
    split at walks
    · rename_i at_owner
      split at walks
      · split at walks <;> cases walks
        exact .owner _ at_owner (by simp) nofun all_created
      · cases walks
    · cases walks
  case stopReturns =>
    split at walks
    · rename_i at_owner
      split at walks <;> cases walks
      exact .owner _ at_owner (by simp) nofun all_created
    · rename_i at_owner
      cases walks
      exact .owner _ at_owner (by simp) nofun all_created
    · cases walks
  case take =>
    split at walks
    · rename_i at_lock
      split at walks
      · cases walks
      · rename_i open_
        split at walks
        · rename_i fiber back
          obtain ⟨rest, shape⟩ := List.getLast?_eq_some_iff.mp back
          cases walks
          rw [show s.fibers.dropLast = rest by simp [shape]]
          exact .pop at_lock shape
        · rename_i back
          obtain ⟨rest, shape⟩ := List.getLast?_eq_some_iff.mp back
          cases walks
          rw [show s.fibers.dropLast = rest by simp [shape]]
          exact .popNull at_lock shape
        · rename_i back
          have empty : s.fibers = [] := List.getLast?_eq_none_iff.mp back
          cases walks
          exact .nothing at_lock empty (by simpa [empty] using open_)
    · cases walks
  case loop =>
    split at walks
    · rename_i behind
      cases walks
      exact .loop behind
    · cases walks
  case schedule =>
    split at walks
    · rename_i inside
      cases walks
      exact .push inside
    · cases walks
  all_goals cases walks

/-- Every step of the program is one of the listed effects. -/
theorem step_of_next {userCaller : Bool} {s t : Control n F} {e : Event n F}
    (step : next userCaller s e = some t) : Step userCaller s e t := by
  cases e with
  | outside fiber =>
    cases step
    exact .outside fiber
  | thread w action =>
    simp only [next] at step
    split at step
    · rename_i here executes
      cases action <;> simp only [act] at step
      case start | startReturns | stop | notifyAll | swapThreads | join | stopReturns | take |
          loop | schedule =>
        obtain ⟨⟨fibers, stopping, point⟩, walks, rfl⟩ := Option.map_eq_some_iff.mp step
        exact .walk executes (walk_walks walks)
      case spawn =>
        split at step
        · rename_i created at_owner
          split at step <;> cases step
          rename_i inside
          exact .spawn executes at_owner inside
        · cases step
      case callRoot =>
        split at step
        · rename_i joined at_owner
          split at step <;> cases step
          rename_i guard
          exact .callRoot executes at_owner guard.2
        · cases step
      case begin =>
        split at step
        · rename_i begins
          split at step
          · rename_i root
            simp only [Bool.and_eq_true, Option.isNone_iff_eq_none] at root
            obtain ⟨caller, rfl⟩ := root
            cases step
            exact .beginRoot executes begins caller
          · rename_i other
            cases step
            refine .begin executes begins fun caller root => other ?_
            simp [caller, root]
        · cases step
      case swapIn =>
        split at step <;> cases step
        rename_i fiber held
        exact .swapIn executes held
      case checkStopping =>
        split at step
        · rename_i null
          split at step
          · rename_i stops
            split at step
            · rename_i v on_thread
              cases step
              exact .leave executes null stops on_thread
            · rename_i on_root
              cases step
              exact .runEnds executes null stops (by simp [on_root])
            · rename_i on_task
              cases step
              exact .runEnds executes null stops (by simp [on_task])
          · rename_i going
            cases step
            exact .again executes null (by simpa using going)
        · cases step
      case enter =>
        split at step
        · rename_i entry
          split at step
          · rename_i this
            cases step
            rw [this]
            exact .enterRoot executes entry this
          · rename_i this
            cases step
            rw [this]
            exact .enter executes entry this
          · rename_i this
            cases step
            rw [this]
            exact .enterNone executes entry this
        · cases step
      case getThis =>
        split at step <;> cases step
        rename_i user
        exact .getThis executes user
      case yield =>
        split at step <;> cases step
        rename_i user
        exact .yield executes user
      case finish threw =>
        split at step <;> cases step
        rename_i inside
        exact .finish threw executes inside
      case endMain =>
        split at step
        · rename_i ended
          split at step
          · rename_i fiber cur
            cases step
            exact .endMain executes ended cur
          · rename_i cur
            cases step
            exact .endLost executes ended cur
        · cases step
      case fallOff =>
        split at step <;> cases step
        rename_i behind
        exact .fallOff executes behind
      case perform switch =>
        split at step <;> cases step
        rename_i user
        exact .perform switch executes user
      case reset fiber =>
        split at step
        · rename_i user
          split at step <;> cases step
          · exact .reset _ executes user
          · exact .reset _ executes user
        · cases step
    · cases step

end Control

end ZnetServer.Scheduler
