import Mathlib.Data.Fintype.Basic
import Mathlib.Data.Fintype.Defs
import ZnetServer.Transition

set_option autoImplicit false

/- `Mutex` and `ScopedLock` of `server/mutex.h`, used by any number of threads. The constructor
takes its mutex by value and keeps it by value, so every `ScopedLock` has a cell of its own. -/
namespace ZnetServer.ScopedLock

open Transition

inductive Life where
  /-- In its constructor; `m_locked` has no value yet. -/
  | building
  | alive
  /-- Its destructor has ended. -/
  | dead
  deriving DecidableEq

/-- A `ScopedLock`, with the address of `m_mutex`. -/
structure Lock where
  mutex : Nat
  locked : Bool
  life : Life
  deriving DecidableEq

/-- `m_locked = true`, with which the constructor ends. -/
def Lock.stored (lock : Lock) : Lock :=
  { lock with locked := true, life := if lock.life = .building then .alive else lock.life }

/-- `m_locked = false`, with which the destructor ends. -/
def Lock.cleared (lock : Lock) (destroys : Bool) : Lock :=
  { lock with locked := false, life := if destroys then .dead else lock.life }

/-- Where a thread is in the functions of the class. -/
inductive Frame where
  | outside
  /-- In the constructor, with the address of its parameter. -/
  | constructing (mutex : Nat)
  /-- In front of `m_mutex.lock()`, in the constructor or in `lock`. -/
  | locking (lock : Nat)
  /-- In front of `m_locked = true`. -/
  | acquired (lock : Nat)
  /-- In front of `m_mutex.unlock()`, in `unlock` or in the destructor. -/
  | unlocking (lock : Nat) (destroys : Bool)
  /-- In front of `m_locked = false`. -/
  | released (lock : Nat) (destroys : Bool)
  deriving DecidableEq

/-- The `ScopedLock` that the thread works on, once it has its place. -/
def Frame.lock? : Frame → Option Nat
  | outside | constructing _ => none
  | locking l | acquired l | unlocking l _ | released l _ => some l

/-- The cells of the mutexes by address, of which `m` is the first, `true` for a locked one; the
locks constructed from `m`; the threads. -/
structure Memory (T : Type) where
  cells : List Bool
  locks : List Lock
  frame : T → Frame

inductive Event (T : Type) where
  | construct (t : T)
  | copyMember (t : T)
  | acquire (t : T)
  | store (t : T)
  | lock (t : T) (lock : Nat)
  | unlock (t : T) (lock : Nat)
  | destroy (t : T) (lock : Nat)
  | release (t : T)
  | clear (t : T)
  deriving DecidableEq

namespace Memory

variable {T : Type}

/-- `m` as its constructor leaves it. -/
def init : Memory T where
  cells := [false]
  locks := []
  frame := fun _ => .outside

def alloc (s : Memory T) (contents : Bool) : Memory T :=
  { s with cells := s.cells ++ [contents] }

def write (s : Memory T) (address : Nat) (contents : Bool) : Memory T :=
  { s with cells := s.cells.set address contents }

def build (s : Memory T) (lock : Lock) : Memory T := { s with locks := s.locks ++ [lock] }

def goto [DecidableEq T] (s : Memory T) (t : T) (frame : Frame) : Memory T :=
  { s with frame := Function.update s.frame t frame }

def setLock (s : Memory T) (l : Nat) (lock : Lock) : Memory T :=
  { s with locks := s.locks.set l lock }

/-- One step of a thread. A call is one of a living object; it is not excluded that another
thread destroys the object meanwhile. -/
def next [DecidableEq T] (s : Memory T) : Event T → Option (Memory T)
  -- The parameter is a copy of `m`.
  | .construct t => match s.frame t, s.cells[0]? with
    | .outside, some contents =>
      some ((s.alloc contents).goto t (.constructing s.cells.length))
    | _, _ => none
  -- `m_mutex` is a copy of the parameter.
  | .copyMember t => match s.frame t with
    | .constructing param => s.cells[param]?.map fun contents =>
      ((s.alloc contents).build ⟨s.cells.length, false, .building⟩).goto t
        (.locking s.locks.length)
    | _ => none
  -- `pthread_mutex_lock` waits for the cell to be unlocked.
  | .acquire t => match s.frame t with
    | .locking l => s.locks[l]?.bind fun lock =>
      if s.cells[lock.mutex]? = some false then
        some ((s.write lock.mutex true).goto t (.acquired l))
      else none
    | _ => none
  | .store t => match s.frame t with
    | .acquired l => s.locks[l]?.map fun lock => (s.setLock l lock.stored).goto t .outside
    | _ => none
  | .lock t l => match s.frame t, s.locks[l]? with
    | .outside, some lock =>
      if lock.life ≠ .alive then none
      else if lock.locked then some s else some (s.goto t (.locking l))
    | _, _ => none
  | .unlock t l => match s.frame t, s.locks[l]? with
    | .outside, some lock =>
      if lock.life ≠ .alive then none
      else if lock.locked then some (s.goto t (.unlocking l false)) else some s
    | _, _ => none
  | .destroy t l => match s.frame t, s.locks[l]? with
    | .outside, some lock =>
      if lock.life ≠ .alive then none
      else if lock.locked then some (s.goto t (.unlocking l true))
      else some (s.setLock l { lock with life := .dead })
    | _, _ => none
  | .release t => match s.frame t with
    | .unlocking l destroys => s.locks[l]?.map fun lock =>
      (s.write lock.mutex false).goto t (.released l destroys)
    | _ => none
  | .clear t => match s.frame t with
    | .released l destroys => s.locks[l]?.map fun lock =>
      (s.setLock l (lock.cleared destroys)).goto t .outside
    | _ => none

/-- A `ScopedLock` with `m_locked` set. -/
def Held (s : Memory T) (l : Nat) : Prop :=
  ∃ lock, s.locks[l]? = some lock ∧ lock.life = .alive ∧ lock.locked = true

/-- At most one `ScopedLock` is locked, and `m` is not locked when none is. -/
structure Excludes (s : Memory T) : Prop where
  one : ∀ a b, s.Held a → s.Held b → a = b
  free : (∀ a, ¬ s.Held a) → s.cells[0]? = some false

/-- A `ScopedLock` that is locked, or that a thread has acquired and will mark as locked. -/
def Claimed (s : Memory T) (l : Nat) : Prop :=
  ∃ lock, s.locks[l]? = some lock ∧ lock.life ≠ .dead ∧
    (lock.life = .alive ∧ lock.locked = true ∨ ∃ t, s.frame t = .acquired l)

/-- A thread gets through `m_mutex.lock()` of one `ScopedLock` while another one is claimed. -/
def Overlaps (s : Memory T) : Event T → Prop
  | .acquire t => ∃ l lock, s.frame t = .locking l ∧ s.locks[l]? = some lock ∧
      lock.life ≠ .dead ∧ ∃ k, k ≠ l ∧ s.Claimed k
  | _ => False

/-- What the functions of the class keep about their addresses. -/
structure Formed (s : Memory T) : Prop where
  free : s.cells[0]? = some false
  apart : ∀ lock ∈ s.locks, lock.mutex ≠ 0
  known : ∀ t l, (s.frame t).lock? = some l → l < s.locks.length

/-- The addresses are right, and at most one lock is claimed. -/
structure Exclusive (s : Memory T) : Prop where
  formed : Formed s
  one : ∀ a b, s.Claimed a → s.Claimed b → a = b

section Operations

variable {s : Memory T}

theorem init_formed : Formed (init : Memory T) := ⟨rfl, nofun, nofun⟩

theorem init_exclusive : Exclusive (init : Memory T) := by
  refine ⟨init_formed, fun a b claimed _ => ?_⟩
  obtain ⟨lock, there, _⟩ := claimed
  cases there

theorem Held.claimed {k : Nat} (held : s.Held k) : s.Claimed k := by
  obtain ⟨lock, there, alive, locked⟩ := held
  exact ⟨lock, there, by simp [alive], .inl ⟨alive, locked⟩⟩

theorem Exclusive.excludes (exclusive : Exclusive s) : Excludes s where
  one a b first second := exclusive.one a b first.claimed second.claimed
  free _ := exclusive.formed.free

theorem Formed.alloc (formed : Formed s) (contents : Bool) : Formed (s.alloc contents) := by
  refine ⟨?_, formed.apart, formed.known⟩
  have inside := (List.getElem?_eq_some_iff.mp formed.free).1
  exact (List.getElem?_append_left inside).trans formed.free

theorem Formed.write (formed : Formed s) {address : Nat} (apart : address ≠ 0) (contents : Bool) :
    Formed (s.write address contents) := by
  refine ⟨?_, formed.apart, formed.known⟩
  exact (List.getElem?_set_ne apart).trans formed.free

theorem Formed.build (formed : Formed s) {lock : Lock} (apart : lock.mutex ≠ 0) :
    Formed (s.build lock) := by
  refine ⟨formed.free, fun other member => ?_, fun t l named => ?_⟩
  · rcases List.mem_append.mp member with old | new
    · exact formed.apart other old
    · rw [List.mem_singleton.mp new]
      exact apart
  · have before := formed.known t l named
    simp only [Memory.build, List.length_append]
    omega

theorem Formed.setLock (formed : Formed s) {l : Nat} {lock other : Lock}
    (found : s.locks[l]? = some lock) (same : other.mutex = lock.mutex) :
    Formed (s.setLock l other) := by
  refine ⟨formed.free, fun any member => ?_, fun t k named => ?_⟩
  · rcases List.mem_or_eq_of_mem_set member with old | rfl
    · exact formed.apart any old
    · rw [same]
      exact formed.apart lock (List.mem_of_getElem? found)
  · simp only [Memory.setLock, List.length_set]
    exact formed.known t k named

/-- A lock that is written to is claimed only if it was. -/
theorem claimed_of_setLock {l k : Nat} {lock after : Lock} (there : s.locks[l]? = some lock)
    (keeps : after.life ≠ .dead → lock.life ≠ .dead ∧
      (after.life = .alive ∧ after.locked = true →
        lock.life = .alive ∧ lock.locked = true ∨ ∃ t, s.frame t = .acquired l))
    (claimed : (s.setLock l after).Claimed k) : s.Claimed k := by
  obtain ⟨found, place, living, reason⟩ := claimed
  by_cases same : k = l
  · subst same
    have inside := (List.getElem?_eq_some_iff.mp there).1
    rw [setLock, List.getElem?_set_self inside, Option.some.injEq] at place
    subst place
    obtain ⟨before, marks⟩ := keeps living
    refine ⟨lock, there, before, ?_⟩
    rcases reason with marked | acquired
    · exact marks marked
    · exact .inr acquired
  · rw [setLock, List.getElem?_set_ne (Ne.symm same)] at place
    exact ⟨found, place, living, reason⟩

theorem claimed_of_build {lock : Lock} {k : Nat} (formed : Formed s) (fresh : lock.life = .building)
    (claimed : (s.build lock).Claimed k) : s.Claimed k := by
  obtain ⟨found, place, living, reason⟩ := claimed
  rw [build, List.getElem?_append] at place
  split at place
  · exact ⟨found, place, living, reason⟩
  · rename_i outside
    rcases reason with marked | acquired
    · obtain rfl := List.mem_singleton.mp (List.mem_of_getElem? place)
      rw [fresh] at marked
      cases marked.1
    · obtain ⟨u, here⟩ : ∃ u, s.frame u = .acquired k := acquired
      have named : (s.frame u).lock? = some k := by
        rw [here]
        rfl
      exact absurd (formed.known u k named) outside

@[simp] theorem goto_self [DecidableEq T] (t : T) (frame : Frame) :
    (s.goto t frame).frame t = frame := Function.update_self _ _ _

@[simp] theorem goto_other [DecidableEq T] {t u : T} (frame : Frame) (apart : u ≠ t) :
    (s.goto t frame).frame u = s.frame u := Function.update_of_ne apart _ _

theorem Formed.goto [DecidableEq T] (formed : Formed s) {t : T} {frame : Frame}
    (known : ∀ l, frame.lock? = some l → l < s.locks.length) : Formed (s.goto t frame) := by
  refine ⟨formed.free, formed.apart, fun u l named => ?_⟩
  by_cases same : u = t
  · rw [same, goto_self] at named
    exact known l named
  · rw [goto_other frame same] at named
    exact formed.known u l named

end Operations

section Steps

variable [DecidableEq T] {s t : Memory T} {e : Event T}

/-- What a step does, by its result. -/
inductive Effect (s : Memory T) : Event T → Memory T → Prop
  | construct {u : T} (contents : Bool) :
      Effect s (.construct u) ((s.alloc contents).goto u (.constructing s.cells.length))
  | copyMember {u : T} (contents : Bool) :
      Effect s (.copyMember u) (((s.alloc contents).build ⟨s.cells.length, false, .building⟩).goto u
        (.locking s.locks.length))
  | acquire {u : T} {l : Nat} {lock : Lock} (here : s.frame u = .locking l)
      (there : s.locks[l]? = some lock) :
      Effect s (.acquire u) ((s.write lock.mutex true).goto u (.acquired l))
  | store {u : T} {l : Nat} {lock : Lock} (here : s.frame u = .acquired l)
      (there : s.locks[l]? = some lock) :
      Effect s (.store u) ((s.setLock l lock.stored).goto u .outside)
  /-- A call of `lock`, `unlock` or the destructor that has something to do. -/
  | enter {e : Event T} {u : T} {l : Nat} {lock : Lock} {frame : Frame}
      (there : s.locks[l]? = some lock) (named : frame.lock? = some l)
      (before : ∀ k, frame ≠ .acquired k) (calm : ¬ s.Overlaps e) : Effect s e (s.goto u frame)
  | stay {e : Event T} (calm : ¬ s.Overlaps e) : Effect s e s
  | destroy {u : T} {l : Nat} {lock : Lock} (there : s.locks[l]? = some lock) :
      Effect s (.destroy u l) (s.setLock l { lock with life := .dead })
  | release {u : T} {l : Nat} {lock : Lock} {destroys : Bool}
      (there : s.locks[l]? = some lock) :
      Effect s (.release u) ((s.write lock.mutex false).goto u (.released l destroys))
  | clear {u : T} {l : Nat} {lock : Lock} {destroys : Bool} (there : s.locks[l]? = some lock) :
      Effect s (.clear u) ((s.setLock l (lock.cleared destroys)).goto u .outside)

theorem effect_of_next (step : s.next e = some t) : Effect s e t := by
  cases e with
  | construct u =>
      simp only [next] at step
      split at step
      · obtain rfl := Option.some.inj step
        exact .construct _
      · cases step
  | copyMember u =>
      simp only [next] at step
      split at step
      · obtain ⟨contents, _, rfl⟩ := Option.map_eq_some_iff.mp step
        exact .copyMember contents
      · cases step
  | acquire u =>
      simp only [next] at step
      split at step
      · rename_i here
        obtain ⟨lock, there, step⟩ := Option.bind_eq_some_iff.mp step
        split at step
        · obtain rfl := Option.some.inj step
          exact .acquire here there
        · cases step
      · cases step
  | store u =>
      simp only [next] at step
      split at step
      · rename_i here
        obtain ⟨lock, there, rfl⟩ := Option.map_eq_some_iff.mp step
        exact .store here there
      · cases step
  | lock u l =>
      simp only [next] at step
      split at step
      · rename_i there
        split at step
        · cases step
        · split at step
          · obtain rfl := Option.some.inj step
            exact .stay id
          · obtain rfl := Option.some.inj step
            exact .enter there rfl nofun id
      · cases step
  | unlock u l =>
      simp only [next] at step
      split at step
      · rename_i there
        split at step
        · cases step
        · split at step
          · obtain rfl := Option.some.inj step
            exact .enter there rfl nofun id
          · obtain rfl := Option.some.inj step
            exact .stay id
      · cases step
  | destroy u l =>
      simp only [next] at step
      split at step
      · rename_i there
        split at step
        · cases step
        · split at step
          · obtain rfl := Option.some.inj step
            exact .enter there rfl nofun id
          · obtain rfl := Option.some.inj step
            exact .destroy there
      · cases step
  | release u =>
      simp only [next] at step
      split at step
      · obtain ⟨lock, there, rfl⟩ := Option.map_eq_some_iff.mp step
        exact .release there
      · cases step
  | clear u =>
      simp only [next] at step
      split at step
      · obtain ⟨lock, there, rfl⟩ := Option.map_eq_some_iff.mp step
        exact .clear there
      · cases step

theorem Formed.step (formed : Formed s) (effect : Effect s e t) : Formed t := by
  have inside := (List.getElem?_eq_some_iff.mp formed.free).1
  have found {l k : Nat} {lock : Lock} (there : s.locks[l]? = some lock) (named : some l = some k) :
      k < s.locks.length := by
    obtain rfl := Option.some.inj named
    exact (List.getElem?_eq_some_iff.mp there).1
  have apart {l : Nat} {lock : Lock} (there : s.locks[l]? = some lock) : lock.mutex ≠ 0 :=
    formed.apart lock (List.mem_of_getElem? there)
  cases effect with
  | construct contents => exact (formed.alloc contents).goto nofun
  | copyMember contents =>
      refine ((formed.alloc contents).build (Nat.ne_of_gt (Nat.zero_lt_of_lt inside))).goto ?_
      intro l named
      obtain rfl := Option.some.inj named
      simp [Memory.build, Memory.alloc]
  | acquire here there => exact (formed.write (apart there) true).goto fun l => found there
  | @store u l lock here there =>
      have stored := formed.setLock there (show lock.stored.mutex = lock.mutex from rfl)
      exact stored.goto nofun
  | enter there named before calm =>
      refine formed.goto fun l same => ?_
      rw [named] at same
      exact found there same
  | stay => exact formed
  | destroy there => exact formed.setLock there rfl
  | release there => exact (formed.write (apart there) false).goto fun l => found there
  | @clear u l lock destroys there =>
      have cleared := formed.setLock there
        (show (lock.cleared destroys).mutex = lock.mutex from rfl)
      exact cleared.goto nofun

theorem claimed_of_goto {u : T} {frame : Frame} {k : Nat} (claimed : (s.goto u frame).Claimed k)
    (other : ∀ l, frame ≠ .acquired l) : s.Claimed k := by
  obtain ⟨lock, there, living, marked | ⟨v, here⟩⟩ := claimed
  · exact ⟨lock, there, living, .inl marked⟩
  · by_cases same : v = u
    · rw [same, goto_self] at here
      exact absurd here (other k)
    · rw [goto_other frame same] at here
      exact ⟨lock, there, living, .inr ⟨v, here⟩⟩

/-- No step but an acquisition claims anything, and an acquisition claims what it acquires. -/
theorem Effect.claims (effect : Effect s e t) (formed : Formed s) {k : Nat}
    (claimed : t.Claimed k) : s.Claimed k ∨
      ∃ u lock, e = .acquire u ∧ s.frame u = .locking k ∧ s.locks[k]? = some lock ∧
        lock.life ≠ .dead := by
  cases effect with
  | construct contents =>
      have before := claimed_of_goto claimed nofun
      exact .inl before
  | copyMember contents =>
      have built := claimed_of_goto claimed nofun
      have before := claimed_of_build (formed.alloc contents) rfl built
      exact .inl before
  | @acquire u l lock here there =>
      obtain ⟨found, place, living, marked | ⟨v, stands⟩⟩ := claimed
      · exact .inl ⟨found, place, living, .inl marked⟩
      · by_cases same : v = u
        · rw [same, goto_self] at stands
          obtain rfl := Frame.acquired.inj stands
          exact .inr ⟨u, found, rfl, here, place, living⟩
        · rw [goto_other _ same] at stands
          exact .inl ⟨found, place, living, .inr ⟨v, stands⟩⟩
  | @store u l lock here there =>
      have written := claimed_of_goto claimed nofun
      refine .inl (claimed_of_setLock there (fun living => ⟨?_, fun _ => .inr ⟨u, here⟩⟩) written)
      intro dead
      simp [Lock.stored, dead] at living
  | enter there named before calm => exact .inl (claimed_of_goto claimed before)
  | stay => exact .inl claimed
  | destroy there => exact .inl (claimed_of_setLock there (fun living => absurd rfl living) claimed)
  | release there =>
      have before := claimed_of_goto claimed nofun
      exact .inl before
  | @clear u l lock destroys there =>
      have written := claimed_of_goto claimed nofun
      refine .inl (claimed_of_setLock there (fun living => ⟨?_, fun marked => ?_⟩) written)
      · intro dead
        simp [Lock.cleared, dead] at living
      · cases marked.2

theorem Exclusive.step (exclusive : Exclusive s) (effect : Effect s e t)
    (calm : ¬ s.Overlaps e) : Exclusive t := by
  refine ⟨exclusive.formed.step effect, fun a b first second => ?_⟩
  rcases effect.claims exclusive.formed first with old | ⟨u, lock, rfl, here, there, living⟩
  · rcases effect.claims exclusive.formed second with other | ⟨u, lock, rfl, here, there, living⟩
    · exact exclusive.one a b old other
    · by_contra apart
      exact calm ⟨b, lock, here, there, living, a, apart, old⟩
  · rcases effect.claims exclusive.formed second with other | ⟨v, _, same, stands, _⟩
    · by_contra apart
      exact calm ⟨a, lock, here, there, living, b, Ne.symm apart, other⟩
    · obtain rfl := Event.acquire.inj same
      rw [here] at stands
      exact Frame.locking.inj stands

/-- The thread that has acquired a lock marks it, and nothing else changes. -/
theorem store_marks {u : T} {k : Nat} {lock : Lock} (here : s.frame u = .acquired k)
    (there : s.locks[k]? = some lock) (living : lock.life ≠ .dead) :
    ∃ t, s.next (.store u) = some t ∧ t.Held k ∧ (∀ j, s.Held j → t.Held j) ∧
      ∀ j, s.Claimed j → t.Claimed j := by
  have inside := (List.getElem?_eq_some_iff.mp there).1
  have marked : ((s.setLock k lock.stored).goto u .outside).Held k := by
    refine ⟨lock.stored, List.getElem?_set_self inside, ?_, rfl⟩
    cases life : lock.life <;> simp_all [Lock.stored]
  refine ⟨(s.setLock k lock.stored).goto u .outside, by simp [next, here, there], marked,
    fun j held => ?_, fun j claimed => ?_⟩
  · by_cases same : j = k
    · rw [same]
      exact marked
    · obtain ⟨other, place, flags⟩ := held
      exact ⟨other, (List.getElem?_set_ne (Ne.symm same)).trans place, flags⟩
  · by_cases same : j = k
    · rw [same]
      exact marked.claimed
    · obtain ⟨other, place, alive, flags | ⟨v, stands⟩⟩ := claimed
      · exact ⟨other, (List.getElem?_set_ne (Ne.symm same)).trans place, alive, .inl flags⟩
      · have apart : v ≠ u := by
          rintro rfl
          rw [here] at stands
          exact same (Frame.acquired.inj stands).symm
        refine ⟨other, (List.getElem?_set_ne (Ne.symm same)).trans place, alive, .inr ⟨v, ?_⟩⟩
        rw [goto_other _ apart]
        exact stands

/-- Threads that are let go on as far as `m_locked = true`. -/
def Stores (trace : List (Memory T × Event T)) : Prop := ∀ step ∈ trace, ∃ u, step.2 = .store u

theorem claimed_holds {k : Nat} (claimed : s.Claimed k) : ∃ trace t,
    Run next anyStep s trace t ∧ Stores trace ∧ t.Held k ∧ (∀ j, s.Held j → t.Held j) ∧
      ∀ j, s.Claimed j → t.Claimed j := by
  obtain ⟨lock, there, living, marked | ⟨u, here⟩⟩ := claimed
  · exact ⟨[], s, .nil, nofun, ⟨lock, there, marked⟩, fun _ => id, fun _ => id⟩
  · obtain ⟨t, step, held, holds, claims⟩ := store_marks here there living
    refine ⟨[(s, .store u)], t, Run.nil.snoc trivial step, ?_, held, holds, claims⟩
    intro step member
    rw [List.mem_singleton.mp member]
    exact ⟨u, rfl⟩

theorem overlaps_claims {u : T} (overlaps : s.Overlaps (.acquire u))
    (step : s.next (.acquire u) = some t) : ∃ l k, k ≠ l ∧ t.Claimed l ∧ t.Claimed k := by
  have clash := overlaps
  obtain ⟨l, lock, here, there, living, k, apart, other⟩ := overlaps
  refine ⟨l, k, apart, ?_⟩
  cases effect_of_next step with
  | enter _ _ _ calm | stay calm => exact absurd clash calm
  | acquire stands place =>
      rw [here] at stands
      obtain rfl := Frame.locking.inj stands
      refine ⟨⟨lock, there, living, .inr ⟨u, goto_self _ _⟩⟩, ?_⟩
      obtain ⟨found, stays, alive, marked | ⟨v, waits⟩⟩ := other
      · exact ⟨found, stays, alive, .inl marked⟩
      · have another : v ≠ u := by
          rintro rfl
          rw [here] at waits
          cases waits
        exact ⟨found, stays, alive, .inr ⟨v, (goto_other _ another).trans waits⟩⟩

/-- After an overlapping acquisition the threads that are about to mark their locks break the
exclusion. -/
theorem overlaps_breaks (overlaps : s.Overlaps e) (step : s.next e = some t) :
    ∃ trace last, Run next anyStep t trace last ∧ Stores trace ∧ ¬ Excludes last := by
  cases e with
  | acquire u =>
      obtain ⟨l, k, apart, one, other⟩ := overlaps_claims overlaps step
      obtain ⟨front, middle, first, stores, held, _, claims⟩ := claimed_holds other
      obtain ⟨back, last, second, later, holds, keeps, _⟩ := claimed_holds (claims l one)
      refine ⟨front ++ back, last, first.trans second, ?_, fun excludes => ?_⟩
      · exact List.forall_mem_append.mpr ⟨stores, later⟩
      · exact apart (excludes.one k l (keeps k held) holds)
  | construct | copyMember | store | lock | unlock | destroy | release | clear =>
      exact overlaps.elim

end Steps

/-- While no thread gets through `m_mutex.lock()` of one `ScopedLock` when another one is
claimed, at most one is locked; and wherever a thread does, the threads on their way to
`m_locked = true` come to a state with two locked ones. -/
theorem excludes_without_overlaps [DecidableEq T] {trace : List (Memory T × Event T)} {s : Memory T}
    (run : Run next anyStep init trace s) :
    ((∀ step ∈ trace, ¬ step.1.Overlaps step.2) →
      (∀ step ∈ trace, Excludes step.1) ∧ Excludes s) ∧
    ∀ e t, s.Overlaps e → s.next e = some t →
      ∃ further last, Run next anyStep t further last ∧ Stores further ∧ ¬ Excludes last := by
  refine ⟨fun calm => ?_, fun e t => overlaps_breaks⟩
  have strict : Run next (fun s e => ¬ s.Overlaps e) init trace s := run.restrict calm
  have both : (∀ step ∈ trace, Excludes step.1) ∧ Exclusive s := by
    refine strict.invariant_trace (I := fun trace s =>
      (∀ step ∈ trace, Excludes step.1) ∧ Exclusive s) ⟨nofun, init_exclusive⟩ ?_
    rintro trace s e t ⟨earlier, exclusive⟩ calm step
    rw [List.forall_mem_append, List.forall_mem_singleton]
    exact ⟨⟨earlier, exclusive.excludes⟩, exclusive.step (effect_of_next step) calm⟩
  exact ⟨both.1, both.2.excludes⟩

instance [Fintype T] (s : Memory T) (k : Nat) : Decidable (s.Claimed k) :=
  match place : s.locks[k]? with
  | none => isFalse (by
      rintro ⟨lock, there, _⟩
      rw [place] at there
      cases there)
  | some lock => decidable_of_iff (lock.life ≠ .dead ∧
      (lock.life = .alive ∧ lock.locked = true ∨ ∃ t, s.frame t = .acquired k))
      ⟨fun both => ⟨lock, place, both⟩, by
        rintro ⟨other, there, both⟩
        rw [place] at there
        obtain rfl := Option.some.inj there
        exact both⟩

theorem overlaps_bounded (s : Memory T) (t : T) : s.Overlaps (.acquire t) ↔
    ∃ l < s.locks.length, s.frame t = .locking l ∧ (∃ lock ∈ s.locks[l]?, lock.life ≠ .dead) ∧
      ∃ k < s.locks.length, k ≠ l ∧ s.Claimed k := by
  constructor
  · rintro ⟨l, lock, here, there, living, k, apart, claimed⟩
    have ⟨other, place, _⟩ := claimed
    exact ⟨l, (List.getElem?_eq_some_iff.mp there).1, here, ⟨lock, there, living⟩, k,
      (List.getElem?_eq_some_iff.mp place).1, apart, claimed⟩
  · rintro ⟨l, _, here, ⟨lock, there, living⟩, k, _, apart, claimed⟩
    exact ⟨l, lock, here, there, living, k, apart, claimed⟩

instance [Fintype T] (s : Memory T) (e : Event T) : Decidable (s.Overlaps e) :=
  match e with
  | .acquire t => decidable_of_iff _ (overlaps_bounded s t).symm
  | .construct _ | .copyMember _ | .store _ | .lock .. | .unlock .. | .destroy .. | .release _
  | .clear _ => inferInstanceAs (Decidable False)

/-- Each of two threads constructs a `ScopedLock` from `m`; the first has unlocked its own. -/
def inTurn : List (Event Bool) :=
  [.construct false, .copyMember false, .acquire false, .store false, .unlock false 0,
    .release false, .clear false, .construct true, .copyMember true, .acquire true, .store true]

theorem inTurn_excludes : ∃ (trace : List (Memory Bool × Event Bool)) (s : Memory Bool),
    Run next anyStep init trace s ∧ s.Held 1 ∧ Excludes s := by
  have run := Run.of_replay (show replay (guarded next anyStep) init inTurn = some (_, _) from rfl)
  refine ⟨_, _, run, ⟨_, rfl, rfl, rfl⟩, ((excludes_without_overlaps run).1 ?_).2⟩
  decide

/-- Two threads construct a `ScopedLock` each and keep it. -/
def both : List (Event Bool) :=
  [.construct false, .copyMember false, .acquire false, .store false, .construct true,
    .copyMember true, .acquire true, .store true]

theorem both_locked : ∃ (trace : List (Memory Bool × Event Bool)) (s : Memory Bool),
    Run next anyStep init trace s ∧ s.Held 0 ∧ s.Held 1 ∧ ¬ Excludes s := by
  have run := Run.of_replay (show replay (guarded next anyStep) init both = some (_, _) from rfl)
  refine ⟨_, _, run, ⟨_, rfl, rfl, rfl⟩, ⟨_, rfl, rfl, rfl⟩, fun excludes => ?_⟩
  have same := excludes.one 0 1 ⟨_, rfl, rfl, rfl⟩ ⟨_, rfl, rfl, rfl⟩
  cases same

end Memory

end ZnetServer.ScopedLock
