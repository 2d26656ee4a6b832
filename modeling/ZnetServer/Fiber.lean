import Mathlib.Logic.Function.Basic

set_option autoImplicit false

/- `server/fiber.cpp`: the thread-local pointers, the saved contexts and the operations that
pass control from one context to another. Threads, fibers and the places in the code are
parameters. -/
namespace ZnetServer.Fiber

/-- `Fiber::State` -/
inductive FiberState where
  | init
  | hold
  | exec
  | term
  | except
  deriving DecidableEq

/-- The callback has run to its end. -/
def FiberState.finished : FiberState → Bool
  | .term | .except => true
  | .init | .hold | .exec => false

/-- A `ucontext_t`: the fiber on whose stack the code runs and where it goes on. -/
structure Context (Φ P : Type) where
  stack : Φ
  point : P
  /-- Which call of `swapcontext` saved it, none after `getcontext` and `makecontext`. -/
  number : Option Nat
  deriving DecidableEq

structure Machine (T Φ P : Type) where
  /-- `t_fiber` -/
  current : T → Option Φ
  /-- `t_thread_main_fiber` -/
  main : T → Option Φ
  /-- `t_scheduler_fiber` -/
  scheduler : T → Option Φ
  /-- `m_ctx` -/
  saved : Φ → Context Φ P
  /-- What a thread executes, nothing before it is created and after it has exited. -/
  executing : T → Option (Context Φ P)
  /-- Calls of `swapcontext` so far. -/
  swaps : Nat

/-- The operations of a fiber that switch contexts. -/
inductive Switch (Φ : Type) where
  | call (fiber : Φ)
  | back (fiber : Φ)
  | swapIn (fiber : Φ)
  | swapOut (fiber : Φ)
  deriving DecidableEq

variable {T Φ P : Type}

/-- The fiber that is resumed by `call` and `swapIn`. -/
def Switch.resumed : Switch Φ → Option Φ
  | .call fiber | .swapIn fiber => some fiber
  | .back _ | .swapOut _ => none

variable [DecidableEq T]

def Machine.setCurrent (m : Machine T Φ P) (w : T) (fiber : Option Φ) : Machine T Φ P :=
  { m with current := Function.update m.current w fiber }

def Machine.setScheduler (m : Machine T Φ P) (w : T) (fiber : Φ) : Machine T Φ P :=
  { m with scheduler := Function.update m.scheduler w (some fiber) }

def Machine.setExecuting (m : Machine T Φ P) (w : T) (context : Option (Context Φ P)) :
    Machine T Φ P :=
  { m with executing := Function.update m.executing w context }

/-- The thread goes on elsewhere in its code. -/
def Machine.move (m : Machine T Φ P) (w : T) (point : P) : Machine T Φ P :=
  m.setExecuting w ((m.executing w).map fun here => { here with point := point })

/-- The thread ends: it leaves a context without `uc_link`, or uses a null pointer. -/
def Machine.exit (m : Machine T Φ P) (w : T) : Machine T Φ P := m.setExecuting w none

section Fields

variable (m : Machine T Φ P) (w : T) (point : P)

theorem move_executing {here : Context Φ P} (executes : m.executing w = some here) :
    (m.move w point).executing =
      Function.update m.executing w (some { here with point := point }) := by
  simp [Machine.move, Machine.setExecuting, executes]

@[simp] theorem exit_executing : (m.exit w).executing = Function.update m.executing w none := rfl

end Fields

variable [DecidableEq Φ]

/-- `makecontext` -/
def Machine.make (m : Machine T Φ P) (fiber : Φ) (entry : P) : Machine T Φ P :=
  { m with saved := Function.update m.saved fiber ⟨fiber, entry, none⟩ }

/-- `swapcontext(&save->m_ctx, &load->m_ctx)` on the stack `stack`, in front of `after`. -/
def Machine.swapcontext (m : Machine T Φ P) (w : T) (stack : Φ) (after : P) (save load : Φ) :
    Machine T Φ P :=
  let saved := Function.update m.saved save ⟨stack, after, some m.swaps⟩
  { m with
    saved := saved
    executing := Function.update m.executing w (some (saved load))
    swaps := m.swaps + 1 }

def Machine.call (m : Machine T Φ P) (w : T) (stack : Φ) (after : P) (fiber : Φ) :
    Machine T Φ P :=
  let m := m.setCurrent w (some fiber)
  match m.main w with
  | some own => m.swapcontext w stack after own fiber
  | none => m.exit w

def Machine.back (m : Machine T Φ P) (w : T) (stack : Φ) (after : P) (fiber : Φ) :
    Machine T Φ P :=
  let m := m.setCurrent w (m.main w)
  match m.main w with
  | some own => m.swapcontext w stack after fiber own
  | none => m.exit w

def Machine.swapIn (m : Machine T Φ P) (w : T) (stack : Φ) (after : P) (fiber : Φ) :
    Machine T Φ P :=
  let m := m.setCurrent w (some fiber)
  match m.scheduler w with
  | some own => m.swapcontext w stack after own fiber
  | none => m.exit w

def Machine.swapOut (m : Machine T Φ P) (w : T) (stack : Φ) (after : P) (fiber : Φ) :
    Machine T Φ P :=
  let m := m.setCurrent w (m.scheduler w)
  match m.scheduler w with
  | some own => m.swapcontext w stack after fiber own
  | none => m.exit w

def Machine.perform (m : Machine T Φ P) (w : T) (stack : Φ) (after : P) :
    Switch Φ → Machine T Φ P
  | .call fiber => m.call w stack after fiber
  | .back fiber => m.back w stack after fiber
  | .swapIn fiber => m.swapIn w stack after fiber
  | .swapOut fiber => m.swapOut w stack after fiber

/-- `GetThis` on the thread whose main fiber would be `own`; `built` is the place behind the
`getcontext` of the constructor. -/
def Machine.getThis (m : Machine T Φ P) (w : T) (own : Φ) (built : P) : Machine T Φ P × Φ :=
  match m.current w with
  | some fiber => (m, fiber)
  | none =>
    ({ m with
        main := Function.update m.main w (some own)
        current := Function.update m.current w (some own)
        saved := Function.update m.saved own ⟨own, built, none⟩ }, own)

/-- The fibers whose `m_ctx` a switch on the thread writes and loads, if no pointer is null. -/
def Machine.ends (m : Machine T Φ P) (w : T) : Switch Φ → Option (Φ × Φ)
  | .call fiber => (m.main w).map fun own => (own, fiber)
  | .back fiber => (m.main w).map fun own => (fiber, own)
  | .swapIn fiber => (m.scheduler w).map fun own => (own, fiber)
  | .swapOut fiber => (m.scheduler w).map fun own => (fiber, own)

section Rules

variable (m : Machine T Φ P) (w : T) (stack : Φ) (after : P)

theorem getThis_known {own fiber : Φ} {built : P} (known : m.current w = some fiber) :
    m.getThis w own built = (m, fiber) := by
  simp [Machine.getThis, known]

theorem getThis_swaps (own : Φ) (built : P) : (m.getThis w own built).1.swaps = m.swaps := by
  unfold Machine.getThis
  split <;> rfl

/-- In every switch `t_fiber` becomes the fiber whose context is loaded. -/
theorem perform_ends {switch : Switch Φ} {save load : Φ}
    (found : m.ends w switch = some (save, load)) :
    m.perform w stack after switch =
      (m.setCurrent w (some load)).swapcontext w stack after save load := by
  cases switch <;> simp only [Machine.ends, Option.map_eq_some_iff, Prod.mk.injEq] at found <;>
    obtain ⟨own, there, rfl, rfl⟩ := found
  case call => simp [Machine.perform, Machine.call, Machine.setCurrent, there]
  case back => simp [Machine.perform, Machine.back, Machine.setCurrent, there]
  case swapIn => simp [Machine.perform, Machine.swapIn, Machine.setCurrent, there]
  case swapOut => simp [Machine.perform, Machine.swapOut, Machine.setCurrent, there]

/-- A switch that uses a null pointer ends the thread and writes no context. -/
theorem perform_null {switch : Switch Φ} (null : m.ends w switch = none) :
    ∃ fiber, m.perform w stack after switch = (m.setCurrent w fiber).exit w := by
  cases switch <;> simp only [Machine.ends, Option.map_eq_none_iff] at null
  case call fiber =>
    exact ⟨some fiber, by simp [Machine.perform, Machine.call, Machine.setCurrent, null]⟩
  case back => exact ⟨m.main w, by simp [Machine.perform, Machine.back, Machine.setCurrent, null]⟩
  case swapIn fiber =>
    exact ⟨some fiber, by simp [Machine.perform, Machine.swapIn, Machine.setCurrent, null]⟩
  case swapOut =>
    exact ⟨m.scheduler w, by simp [Machine.perform, Machine.swapOut, Machine.setCurrent, null]⟩

theorem perform_swaps (switch : Switch Φ) :
    (m.perform w stack after switch).swaps =
      if (m.ends w switch).isSome then m.swaps + 1 else m.swaps := by
  cases found : m.ends w switch with
  | some pair =>
    rw [perform_ends m w stack after found]
    rfl
  | none =>
    obtain ⟨fiber, null⟩ := perform_null m w stack after found
    rw [null]
    rfl

end Rules

end ZnetServer.Fiber
