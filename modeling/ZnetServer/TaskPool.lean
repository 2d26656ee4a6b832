import Mathlib.Algebra.Order.Group.Multiset
import Mathlib.Data.Multiset.UnionInter
import Mathlib.Data.Multiset.Count
import Mathlib.Data.Fintype.Defs
import Mathlib.Logic.Function.Basic
import ZnetServer.Transition

set_option autoImplicit false

/- A pool of tasks and the workers that serve it, without order, locks or wakeups:
what a scheduler is for. -/
namespace TaskPool

open Transition

/-- What a worker has in hand. -/
inductive Slot (T : Type) where
  | free
  | given (task : T)
  | begun (task : T)

structure Pool (W T : Type) where
  pending : Multiset T
  slot : W → Slot T

inductive Event (W T : Type) where
  | submit (task : T)
  | hand (w : W) (task : T)
  | begin (w : W) (task : T)
  | finish (w : W)

variable {W T : Type}

def empty : Pool W T := ⟨0, fun _ => .free⟩

@[simp] def Event.submitted : Event W T → Option T
  | .submit task => some task
  | _ => none

@[simp] def Event.handed : Event W T → Option (W × T)
  | .hand w task => some (w, task)
  | _ => none

@[simp] def Event.begun : Event W T → Option (W × T)
  | .begin w task => some (w, task)
  | _ => none

/-- The worker was handed the task, whether it has begun it or not. -/
def Slot.Holds : Slot T → T → Prop
  | .given own, task | .begun own, task => own = task
  | .free, _ => False

/-- The task can be submitted: it is nowhere in the pool and not closed. -/
structure Resting (p : Pool W T) (closed : T → Bool) (task : T) : Prop where
  unqueued : task ∉ p.pending
  unheld : ∀ w, ¬ (p.slot w).Holds task
  opened : closed task = false

/-- A task is pending once or with one worker, and closed at the earliest by the worker that
has begun it. -/
structure Single (p : Pool W T) (closed : T → Bool) : Prop where
  nodup : p.pending.Nodup
  pending : ∀ task ∈ p.pending, (∀ w, ¬ (p.slot w).Holds task) ∧ closed task = false
  once : ∀ task v w, (p.slot v).Holds task → (p.slot w).Holds task → v = w
  given : ∀ w task, p.slot w = .given task → closed task = false

instance [DecidableEq T] (slot : Slot T) (task : T) : Decidable (slot.Holds task) :=
  match slot with
  | .given own | .begun own => inferInstanceAs (Decidable (own = task))
  | .free => inferInstanceAs (Decidable False)

instance [DecidableEq T] (slot : Slot T) (task : T) : Decidable (slot = .begun task) :=
  match slot with
  | .begun own => decidable_of_iff (own = task) (by simp)
  | .free | .given _ => .isFalse nofun

instance [Fintype W] [DecidableEq T] (p : Pool W T) (closed : T → Bool) (task : T) :
    Decidable (Resting p closed task) :=
  decidable_of_iff (task ∉ p.pending ∧ (∀ w, ¬ (p.slot w).Holds task) ∧ closed task = false)
    ⟨fun rests => ⟨rests.1, rests.2.1, rests.2.2⟩, fun rests => ⟨rests.1, rests.2, rests.3⟩⟩

/-- The worker that has begun a task may close it. -/
theorem Single.close {p : Pool W T} {closed later : T → Bool} (single : Single p closed) {w : W}
    {task : T} (begun : p.slot w = .begun task)
    (only : ∀ other, other ≠ task → later other = closed other) : Single p later := by
  have held : (p.slot w).Holds task := by
    rw [begun]
    rfl
  refine ⟨single.nodup, fun other member => ?_, single.once, fun v other has => ?_⟩
  · obtain ⟨unheld, opened⟩ := single.pending other member
    have different : other ≠ task := by
      rintro rfl
      exact unheld w held
    exact ⟨unheld, (only other different).trans opened⟩
  · have different : other ≠ task := by
      rintro rfl
      have same := single.once other v w (by rw [has]; rfl) held
      rw [same, begun] at has
      cases has
    exact (only other different).trans (single.given v other has)

variable [DecidableEq W] [DecidableEq T]

/-- A pending task is handed to a worker with nothing in hand, which begins it and
finishes it. -/
def next (p : Pool W T) : Event W T → Option (Pool W T)
  | .submit task => some { p with pending := task ::ₘ p.pending }
  | .hand w task => match p.slot w with
    | .free =>
      if task ∈ p.pending then
        some ⟨p.pending.erase task, Function.update p.slot w (.given task)⟩
      else none
    | _ => none
  | .begin w task => match p.slot w with
    | .given own =>
      if own = task then some { p with slot := Function.update p.slot w (.begun task) } else none
    | _ => none
  | .finish w => match p.slot w with
    | .begun _ => some { p with slot := Function.update p.slot w .free }
    | _ => none

/-- How often the pair of the worker and the task is listed. -/
def times (hands : List (W × T)) (w : W) (task : T) : Nat := hands.count (w, task)

theorem perm_of_times {first second : List (W × T)}
    (same : ∀ w task, times first w task = times second w task) : first.Perm second := by
  rw [List.perm_iff_count]
  rintro ⟨w, task⟩
  exact same w task

/-- One for a worker that was handed the task and has not begun it. -/
def waitingFor (p : Pool W T) (w : W) (task : T) : Nat :=
  match p.slot w with
  | .given own => if own = task then 1 else 0
  | _ => 0

/-- Nothing is lost: what was submitted is pending or was handed out. -/
theorem submitted_eq {trace : List (Pool W T × Event W T)} {p : Pool W T}
    (run : Run next anyStep empty trace p) :
    (↑((events trace).filterMap Event.submitted) : Multiset T) =
      p.pending + ↑(((events trace).filterMap Event.handed).map Prod.snd) := by
  refine run.invariant_trace
    (I := fun trace p => (↑((events trace).filterMap Event.submitted) : Multiset T) =
      p.pending + ↑(((events trace).filterMap Event.handed).map Prod.snd)) rfl ?_
  rintro trace p e q inv - step
  simp only [filterMap_events_snoc, List.map_append, ← Multiset.coe_add, inv]
  cases e <;> simp only [next] at step
  case submit task =>
    cases step
    simp only [Event.submitted, Event.handed, Option.toList_some, Option.toList_none,
      List.map_nil, Multiset.coe_singleton, Multiset.coe_nil, add_zero, ← Multiset.singleton_add]
    ac_rfl
  case hand w task =>
    split at step
    · split at step
      · rename_i member
        cases step
        have whole : {task} + p.pending.erase task = p.pending := by
          rw [Multiset.singleton_add, Multiset.cons_erase member]
        simp only [Event.submitted, Event.handed, Option.toList_some, Option.toList_none,
          List.map_cons, List.map_nil, Multiset.coe_singleton, Multiset.coe_nil, add_zero]
        conv_lhs => rw [← whole]
        ac_rfl
      · cases step
    · cases step
  case begin w task =>
    split at step
    · split at step
      · cases step
        simp
      · cases step
    · cases step
  case finish w =>
    split at step
    · cases step
      simp
    · cases step

/-- Every hand-over is begun by the same worker, once; the last one may be to come. -/
theorem handed_count {trace : List (Pool W T × Event W T)} {p : Pool W T}
    (run : Run next anyStep empty trace p) (w : W) (task : T) :
    times ((events trace).filterMap Event.handed) w task =
      times ((events trace).filterMap Event.begun) w task + waitingFor p w task := by
  unfold times
  refine run.invariant_trace
    (I := fun trace p => ((events trace).filterMap Event.handed).count (w, task) =
      ((events trace).filterMap Event.begun).count (w, task) + waitingFor p w task) rfl ?_
  rintro trace p e q inv - step
  simp only [filterMap_events_snoc, List.count_append, inv]
  cases e <;> simp only [next] at step
  case submit other =>
    cases step
    simp [waitingFor]
  case hand v other =>
    split at step
    · rename_i free
      split at step
      · cases step
        by_cases here : w = v
        · subst here
          by_cases same : other = task <;> simp [waitingFor, free, same]
        · simp [waitingFor, Function.update_of_ne here, Ne.symm here]
      · cases step
    · cases step
  case begin v other =>
    split at step
    · rename_i own given
      split at step
      · rename_i same
        cases step
        by_cases here : w = v
        · subst here
          by_cases mine : other = task <;> simp [waitingFor, given, same, mine]
        · simp [waitingFor, Function.update_of_ne here, Ne.symm here]
      · cases step
    · cases step
  case finish v =>
    split at step
    · rename_i own begun
      cases step
      by_cases here : w = v
      · subst here
        simp [waitingFor, begun]
      · simp [waitingFor, Function.update_of_ne here]
    · cases step

/-- Where every worker is free, each has begun what it was handed. -/
theorem begun_perm_handed {trace : List (Pool W T × Event W T)} {p : Pool W T}
    (run : Run next anyStep empty trace p) (free : ∀ w, p.slot w = .free) :
    ((events trace).filterMap Event.begun).Perm ((events trace).filterMap Event.handed) := by
  apply perm_of_times
  intro w task
  have begun := handed_count run w task
  have idle : waitingFor p w task = 0 := by simp only [waitingFor, free]
  rw [idle, Nat.add_zero] at begun
  exact begun.symm

/-- An idle pool has begun what was submitted, as often as it was submitted. -/
theorem begun_perm_submitted {trace : List (Pool W T × Event W T)} {p : Pool W T}
    (run : Run next anyStep empty trace p) (nothing : p.pending = 0)
    (free : ∀ w, p.slot w = .free) :
    (((events trace).filterMap Event.begun).map Prod.snd).Perm
      ((events trace).filterMap Event.submitted) := by
  have handed := submitted_eq run
  rw [nothing, zero_add, Multiset.coe_eq_coe] at handed
  exact ((begun_perm_handed run free).map Prod.snd).trans handed.symm

theorem count_pair_le {v w : W} (apart : v ≠ w) (task : T) (l : List (W × T)) :
    l.count (v, task) + l.count (w, task) ≤ (l.map Prod.snd).count task := by
  induction l with
  | nil => simp
  | cons head rest ih =>
      obtain ⟨owner, own⟩ := head
      simp only [List.count_cons, List.map_cons, beq_iff_eq, Prod.mk.injEq]
      by_cases mine : own = task
      · by_cases first : owner = v
        · subst first
          simp only [mine, apart, and_self, and_true, ↓reduceIte]
          omega
        · simp only [mine, first, and_true, ↓reduceIte]
          split <;> omega
      · simp only [mine, and_false, ↓reduceIte]
        omega

/-- A task submitted once is pending, or was handed to exactly one worker, once. -/
theorem handed_once {trace : List (Pool W T × Event W T)} {p : Pool W T}
    (run : Run next anyStep empty trace p)
    (once : ((events trace).filterMap Event.submitted).Nodup) {task : T}
    (member : task ∈ (events trace).filterMap Event.submitted) :
    (p.pending.count task = 1 ∧
      ∀ w, times ((events trace).filterMap Event.handed) w task = 0) ∨
    (p.pending.count task = 0 ∧
      ∃ w, times ((events trace).filterMap Event.handed) w task = 1 ∧
        ∀ v, v ≠ w → times ((events trace).filterMap Event.handed) v task = 0) := by
  unfold times
  have total := congrArg (Multiset.count task) (submitted_eq run)
  rw [Multiset.count_add, Multiset.coe_count, Multiset.coe_count,
    List.count_eq_one_of_mem once member] at total
  generalize handed : (events trace).filterMap Event.handed = hands at total
  by_cases absent : (hands.map Prod.snd).count task = 0
  · refine Or.inl ⟨by omega, fun w => ?_⟩
    have none_left := List.count_eq_zero.mp absent
    apply List.count_eq_zero.mpr
    exact fun present => none_left (List.mem_map_of_mem present)
  · have present : task ∈ hands.map Prod.snd := List.count_pos_iff.mp (by omega)
    obtain ⟨⟨w, own⟩, inside, rfl⟩ := List.mem_map.mp present
    have positive : 0 < hands.count (w, own) := List.count_pos_iff.mpr inside
    have bound := List.count_le_count_map (x := (w, own)) (f := Prod.snd) (l := hands)
    refine Or.inr ⟨by omega, w, by dsimp only at *; omega, fun v apart => ?_⟩
    have both := count_pair_le apart own hands
    dsimp only at *
    omega

/-- Only resting tasks are submitted. -/
def Rests (closed : T → Bool) (p : Pool W T) : Event W T → Prop
  | .submit task => Resting p closed task
  | _ => True

omit [DecidableEq T] in
/-- A worker whose slot is set to hold nothing new takes nothing from the others. -/
theorem Single.setSlot {p : Pool W T} {closed : T → Bool} (single : Single p closed) {w : W}
    {slot : Slot T} (less : ∀ task, slot.Holds task → (p.slot w).Holds task)
    (given : ∀ task, slot = .given task → closed task = false) :
    Single { p with slot := Function.update p.slot w slot } closed := by
  have held : ∀ v task, (Function.update p.slot w slot v).Holds task → (p.slot v).Holds task := by
    intro v task holds
    rw [Function.update_apply] at holds
    split at holds
    · rename_i here
      rw [here]
      exact less task holds
    · exact holds
  refine ⟨single.nodup, fun task member => ⟨fun v holds => ?_, (single.pending task member).2⟩,
    fun task u v first second => ?_, fun v task has => ?_⟩
  · exact (single.pending task member).1 v (held v task holds)
  · exact single.once task u v (held u task first) (held v task second)
  · change Function.update p.slot w slot v = _ at has
    rw [Function.update_apply] at has
    split at has
    · exact given task has
    · exact single.given v task has

theorem Single.hand {p : Pool W T} {closed : T → Bool} (single : Single p closed) {w : W} {task : T}
    (member : task ∈ p.pending) :
    Single ⟨p.pending.erase task, Function.update p.slot w (.given task)⟩ closed := by
  obtain ⟨unheld, opened⟩ := single.pending task member
  have holder : ∀ v other, (Function.update p.slot w (.given task) v).Holds other →
      v = w ∧ task = other ∨ (p.slot v).Holds other := by
    intro v other holds
    rw [Function.update_apply] at holds
    split at holds
    · rename_i here
      exact Or.inl ⟨here, holds⟩
    · exact Or.inr holds
  refine ⟨single.nodup.erase task, fun other old => ?_, fun other u v first second => ?_,
    fun v other has => ?_⟩
  · obtain ⟨different, inside⟩ := (Multiset.Nodup.mem_erase_iff single.nodup).mp old
    refine ⟨fun v holds => ?_, (single.pending other inside).2⟩
    rcases holder v other holds with ⟨_, same⟩ | before
    · exact different same.symm
    · exact (single.pending other inside).1 v before
  · rcases holder u other first with ⟨atU, same⟩ | before
    · rcases holder v other second with ⟨atV, _⟩ | other_before
      · exact atU.trans atV.symm
      · exact absurd (same ▸ other_before) (unheld v)
    · rcases holder v other second with ⟨_, same⟩ | other_before
      · exact absurd (same ▸ before) (unheld u)
      · exact single.once other u v before other_before
  · change Function.update p.slot w (.given task) v = _ at has
    rw [Function.update_apply] at has
    split at has
    · cases has
      exact opened
    · exact single.given v other has

theorem Single.next {p q : Pool W T} {closed : T → Bool} {e : Event W T} (single : Single p closed)
    (rests : Rests closed p e) (step : next p e = some q) : Single q closed := by
  cases e <;> simp only [TaskPool.next] at step
  case submit task =>
    cases step
    refine ⟨Multiset.nodup_cons.mpr ⟨rests.unqueued, single.nodup⟩, fun other member => ?_,
      single.once, single.given⟩
    rcases Multiset.mem_cons.mp member with rfl | old
    · exact ⟨rests.unheld, rests.opened⟩
    · exact single.pending other old
  case hand w task =>
    split at step
    · split at step <;> cases step
      rename_i member
      exact single.hand member
    · cases step
  case begin w task =>
    split at step
    · rename_i own given
      split at step <;> cases step
      rename_i same
      refine single.setSlot (fun other holds => ?_) nofun
      rw [given, same]
      exact holds
    · cases step
  case finish w =>
    split at step <;> cases step
    exact single.setSlot (fun _ holds => holds.elim) nofun

end TaskPool
