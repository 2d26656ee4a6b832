import ZnetServer.ReferenceCount
import ZnetServer.SchedulerLife

set_option autoImplicit false

/- Who owns a fiber: the queue, the local of `run`, the user, and the calls of `GetThis` whose
results live on the stacks of the fibers. The reference counts are explicit. -/
namespace ZnetServer.Scheduler

open ZnetServer.Fiber ReferenceCount Transition

/-- A call with a local `cur`. -/
inductive Frame (n : Nat) (F : Type) where
  | mainFunc (stack : FiberId n F)
  | yield (stack : FiberId n F)
  deriving DecidableEq

/-- A null pointer in the queue owns nothing, and main fibers are not counted here. -/
structure Owned (n : Nat) (F : Type) where
  control : Control n F
  counts : Counts F
  /-- Pointers of the user. -/
  handles : F → Nat
  /-- The local `fiber` of `run`. -/
  held : WorkerId n → Option F
  /-- The calls that have not returned, the latest first, with their `cur`. -/
  frames : List (Frame n F × F)

namespace Owned

inductive Event (n : Nat) (F : Type) where
  | create (fiber : F)
  | copy (fiber : F)
  | drop (fiber : F)
  | step (e : Control.Event n F)
  deriving DecidableEq

variable {n : Nat} {F : Type}

section Program

variable [DecidableEq F]

def init : Owned n F where
  control := Control.init false
  counts := Counts.none
  handles := fun _ => 0
  held := fun _ => none
  frames := []

def owners (s : Owned n F) (fiber : F) : Nat :=
  s.control.fibers.count (some fiber) + holding s.held fiber + s.handles fiber +
    (s.frames.map Prod.snd).count fiber

def setControl (s : Owned n F) (control : Control n F) : Owned n F := { s with control := control }

/-- What `GetThis` returns, unless it is a main fiber. -/
def this (s : Owned n F) (w : WorkerId n) : Option F :=
  match (s.control.getThis w).2 with
  | .task fiber => some fiber
  | .main _ | .root => none

/-- `Fiber::ptr cur = GetThis()` -/
def call (s : Owned n F) (w : WorkerId n) (frame : FiberId n F → Frame n F) : Owned n F :=
  match s.control.stackOf w, s.this w with
  | some stack, some fiber =>
    { s with counts := s.counts.acquire fiber, frames := (frame stack, fiber) :: s.frames }
  | _, _ => s

/-- The call returns. -/
def unwind (s : Owned n F) (frame : Frame n F) : Owned n F :=
  match s.frames.find? (·.1 = frame) with
  | some entry =>
    { s with counts := s.counts.release entry.2, frames := s.frames.erase entry }
  | none => s

def addHandle (s : Owned n F) (fiber : F) : Owned n F :=
  { s with
    counts := s.counts.acquire fiber
    handles := Function.update s.handles fiber (s.handles fiber + 1) }

/-- The owners that a step makes and ends. The stack of a fiber that is reset is given up as
it is. -/
def account (s : Owned n F) : Control.Event n F → Owned n F
  | .outside (some fiber) | .thread _ (.schedule (some fiber)) =>
    { s with counts := s.counts.acquire fiber }
  | .thread w .take => match s.control.fibers.getLast? with
    | some (some fiber) =>
      { s with
        counts := (s.counts.acquire fiber).release fiber
        held := Function.update s.held w (some fiber) }
    | _ => s
  -- A fiber that is resumed in its body returns from `Yield`.
  | .thread w .swapIn => match s.control.point w with
    | some (.popped fiber) =>
      let there := s.control.machine.saved (.task fiber)
      if there.point = .body then s.unwind (.yield there.stack) else s
    | _ => s
  | .thread w .loop => match s.held w with
    | some fiber =>
      { s with
        counts := s.counts.release fiber
        held := Function.update s.held w none }
    | none => s
  | .thread w .enter => s.call w .mainFunc
  | .thread w .yield => s.call w .yield
  | .thread w .getThis => match s.this w with
    | some fiber => s.addHandle fiber
    | none => s
  | .thread w .fallOff => match s.control.stackOf w with
    | some stack => s.unwind (.mainFunc stack)
    | none => s
  | _ => s

/-- The fiber whose pointer the user passes. -/
def passed : Control.Event n F → Option F
  | .outside fiber | .thread _ (.schedule fiber) => fiber
  | .thread _ (.reset (.task fiber)) => some fiber
  | _ => none

/-- One step of the program. -/
def next (s : Owned n F) : Event n F → Option (Owned n F)
  | .create fiber =>
    if s.counts.count fiber = 0 ∧ s.counts.freed fiber = false then some (s.addHandle fiber)
    else none
  | .copy fiber => if 0 < s.handles fiber then some (s.addHandle fiber) else none
  | .drop fiber =>
    if 0 < s.handles fiber then
      some { s with
        counts := s.counts.release fiber
        handles := Function.update s.handles fiber (s.handles fiber - 1) }
    else none
  | .step e =>
    if (passed e).all (fun fiber => 0 < s.handles fiber) then
      (Control.next false s.control e).map (s.account e).setControl
    else none

/-- The runs of fibers that only the workers swap in. -/
def Served (s : Owned n F) : Event n F → Prop
  | .step e => Control.Served s.control e
  | _ => True

instance (s : Owned n F) (e : Event n F) : Decidable (Served s e) :=
  match e with
  | .step e => inferInstanceAs (Decidable (Control.Served s.control e))
  | .create _ | .copy _ | .drop _ => inferInstanceAs (Decidable True)

/-- The fiber has finished and switched away, and nobody can reach it. -/
structure Over (s : Owned n F) (fiber : F) : Prop where
  finished : (s.control.state (.task fiber)).finished = true
  behind : (s.control.machine.saved (.task fiber)).point = .behind
  away : ∀ w, s.control.stackOf w ≠ some (.task fiber)
  unqueued : some fiber ∉ s.control.fibers
  unheld : ∀ w, s.held w ≠ some fiber
  dropped : s.handles fiber = 0

end Program

end Owned

end ZnetServer.Scheduler
