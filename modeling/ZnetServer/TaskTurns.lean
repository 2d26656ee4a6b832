import ZnetServer.TaskPool

set_option autoImplicit false

/- Tasks that come back: a worker may lay a task down before it is closed, and the task then
rests until it is submitted again. -/
namespace TaskPool

open Transition

structure Ledger (W T : Type) where
  pool : Pool W T
  closed : T → Bool

inductive Turn (W T : Type) where
  | submit (task : T)
  | hand (w : W) (task : T)
  | begin (w : W) (task : T)
  /-- The worker lays the open task down. -/
  | pause (w : W) (task : T)
  | close (w : W) (task : T)
  /-- The worker lays the closed task down. -/
  | finish (w : W) (task : T)

variable {W T : Type}

def fresh : Ledger W T := ⟨empty, fun _ => false⟩

@[simp] def Turn.submitted : Turn W T → Option T
  | .submit task => some task
  | _ => none

@[simp] def Turn.paused : Turn W T → Option T
  | .pause _ task => some task
  | _ => none

/-- The last submission of the task still counts: it is with a worker, or closed. -/
def Ledger.Underway (l : Ledger W T) (task : T) : Prop :=
  l.closed task = true ∨ ∃ w, (l.pool.slot w).Holds task

instance [Fintype W] [DecidableEq T] (l : Ledger W T) (task : T) : Decidable (l.Underway task) :=
  inferInstanceAs (Decidable (_ ∨ _))

section Underway

variable [DecidableEq W] {l m : Ledger W T} {w : W} {task : T} {slot : Slot T}

/-- A step of one worker that is nothing to the task. -/
theorem Ledger.underway_same (closed : m.closed task = l.closed task)
    (update : m.pool.slot = Function.update l.pool.slot w slot)
    (same : slot.Holds task ↔ (l.pool.slot w).Holds task) : m.Underway task ↔ l.Underway task := by
  have held : ∀ v, (m.pool.slot v).Holds task ↔ (l.pool.slot v).Holds task := by
    intro v
    rw [update, Function.update_apply]
    split
    · rename_i here
      rw [here]
      exact same
    · exact Iff.rfl
  simp only [Underway, closed, held]

omit [DecidableEq W] in
theorem Ledger.underway_held (holds : (l.pool.slot w).Holds task) : l.Underway task :=
  Or.inr ⟨w, holds⟩

omit [DecidableEq W] in
theorem Ledger.not_underway (unheld : ∀ w, ¬ (l.pool.slot w).Holds task)
    (opened : l.closed task = false) : ¬ l.Underway task := by
  rintro (ran | ⟨w, holds⟩)
  · exact absurd (ran.symm.trans opened) (by simp)
  · exact unheld w holds

/-- A task that is laid down is nowhere in the pool. -/
theorem Single.laid_down {p : Pool W T} {closed : T → Bool} (single : Single p closed)
    (begun : p.slot w = .begun task) (v : W) : ¬ (Function.update p.slot w .free v).Holds task := by
  intro holds
  rw [Function.update_apply] at holds
  split at holds
  · exact holds.elim
  · rename_i apart
    apply apart
    apply single.once task v w holds
    rw [begun]
    rfl

end Underway

variable [Fintype W] [DecidableEq W] [DecidableEq T]

def Ledger.turn (l : Ledger W T) : Turn W T → Option (Ledger W T)
  | .submit task =>
    if Resting l.pool l.closed task then
      (next l.pool (.submit task)).map fun pool => ⟨pool, l.closed⟩
    else none
  | .hand w task => (next l.pool (.hand w task)).map fun pool => ⟨pool, l.closed⟩
  | .begin w task => (next l.pool (.begin w task)).map fun pool => ⟨pool, l.closed⟩
  | .pause w task =>
    if l.pool.slot w = .begun task ∧ l.closed task = false then
      (next l.pool (.finish w)).map fun pool => ⟨pool, l.closed⟩
    else none
  | .close w task =>
    if l.pool.slot w = .begun task ∧ l.closed task = false then
      some ⟨l.pool, Function.update l.closed task true⟩
    else none
  | .finish w task =>
    if l.pool.slot w = .begun task ∧ l.closed task = true then
      (next l.pool (.finish w)).map fun pool => ⟨pool, l.closed⟩
    else none

/-- What a turn does, with the guard under which it can happen. -/
inductive Ledger.Step (l : Ledger W T) : Turn W T → Ledger W T → Prop
  | submit {task : T} (rests : Resting l.pool l.closed task) :
      Step l (.submit task) ⟨{ l.pool with pending := task ::ₘ l.pool.pending }, l.closed⟩
  | hand {w : W} {task : T} (free : l.pool.slot w = .free) (member : task ∈ l.pool.pending) :
      Step l (.hand w task) ⟨⟨l.pool.pending.erase task,
        Function.update l.pool.slot w (.given task)⟩, l.closed⟩
  | begin {w : W} {task : T} (given : l.pool.slot w = .given task) :
      Step l (.begin w task)
        ⟨{ l.pool with slot := Function.update l.pool.slot w (.begun task) }, l.closed⟩
  | pause {w : W} {task : T} (begun : l.pool.slot w = .begun task)
      (opened : l.closed task = false) :
      Step l (.pause w task)
        ⟨{ l.pool with slot := Function.update l.pool.slot w .free }, l.closed⟩
  | close {w : W} {task : T} (begun : l.pool.slot w = .begun task)
      (opened : l.closed task = false) :
      Step l (.close w task) ⟨l.pool, Function.update l.closed task true⟩
  | finish {w : W} {task : T} (begun : l.pool.slot w = .begun task) (ran : l.closed task = true) :
      Step l (.finish w task)
        ⟨{ l.pool with slot := Function.update l.pool.slot w .free }, l.closed⟩

theorem Ledger.turn_iff {l m : Ledger W T} {e : Turn W T} : l.turn e = some m ↔ l.Step e m := by
  constructor
  · intro turns
    cases e <;> simp only [turn] at turns
    case submit task =>
      split at turns <;> cases turns
      rename_i rests
      exact .submit rests
    case hand w task =>
      simp only [next] at turns
      split at turns
      · rename_i free
        split at turns <;> cases turns
        rename_i member
        exact .hand free member
      · cases turns
    case begin w task =>
      simp only [next] at turns
      split at turns
      · rename_i own given
        split at turns <;> cases turns
        rename_i same
        exact .begin (same ▸ given)
      · cases turns
    case pause w task =>
      split at turns
      · rename_i guard
        simp only [next, guard.1] at turns
        cases turns
        exact .pause guard.1 guard.2
      · cases turns
    case close w task =>
      split at turns <;> cases turns
      rename_i guard
      exact .close guard.1 guard.2
    case finish w task =>
      split at turns
      · rename_i guard
        simp only [next, guard.1] at turns
        cases turns
        exact .finish guard.1 guard.2
      · cases turns
  · intro step
    cases step with
    | submit rests => simp [turn, rests, next]
    | hand free member => simp [turn, next, free, member]
    | begin given => simp [turn, next, given]
    | pause begun opened => simp [turn, next, begun, opened]
    | close begun opened => simp [turn, begun, opened]
    | finish begun ran => simp [turn, next, begun, ran]

omit [Fintype W] in
theorem Ledger.Step.single {l m : Ledger W T} {e : Turn W T} (single : Single l.pool l.closed)
    (step : l.Step e m) : Single m.pool m.closed := by
  cases step with
  | submit rests => exact single.next (e := .submit _) rests rfl
  | hand _ member => exact single.hand member
  | begin given =>
    apply single.setSlot
    · intro other holds
      rw [given]
      exact holds
    · nofun
  | pause | finish => exact single.setSlot (fun _ holds => holds.elim) nofun
  | close begun =>
    apply single.close begun
    intro other apart
    exact Function.update_of_ne apart ..

/-- What one turn adds on each side. -/
theorem Ledger.Step.balance {l m : Ledger W T} {e : Turn W T} (single : Single l.pool l.closed)
    (step : l.Step e m) (task : T) :
    e.submitted.toList.count task + l.pool.pending.count task + (if l.Underway task then 1 else 0) =
      m.pool.pending.count task + e.paused.toList.count task +
        (if m.Underway task then 1 else 0) := by
  have begun_holds : ∀ {w : W} {own : T}, l.pool.slot w = .begun own →
      (l.pool.slot w).Holds own := by
    intro w own begun
    rw [begun]
    rfl
  cases step with
  | @submit own rests =>
    have same : Ledger.Underway ⟨{ l.pool with pending := own ::ₘ l.pool.pending }, l.closed⟩ task ↔
      l.Underway task := Iff.rfl
    simp only [Turn.submitted, Turn.paused, same, Option.toList_some, Option.toList_none,
      List.count_nil, Multiset.count_cons, List.count_singleton]
    by_cases mine : own = task
    · simp only [mine, BEq.rfl, ↓reduceIte]
      omega
    · simp [mine, Ne.symm mine]
  | @hand w own free member =>
    by_cases mine : own = task
    · subst mine
      obtain ⟨unheld, opened⟩ := single.pending own member
      have before := not_underway unheld opened
      have after : Ledger.Underway ⟨⟨l.pool.pending.erase own,
          Function.update l.pool.slot w (.given own)⟩, l.closed⟩ own := by
        apply underway_held (w := w)
        simp [Slot.Holds]
      have positive := Multiset.count_pos.mpr member
      simp only [Turn.submitted, Turn.paused, Option.toList_none, List.count_nil, before, after,
        Multiset.count_erase_self, ↓reduceIte]
      omega
    · have same : Ledger.Underway ⟨⟨l.pool.pending.erase own,
          Function.update l.pool.slot w (.given own)⟩, l.closed⟩ task ↔ l.Underway task := by
        refine underway_same rfl rfl ?_
        simp [Slot.Holds, free, mine]
      have kept := Multiset.count_erase_of_ne (Ne.symm mine) l.pool.pending
      simp [same, kept]
  | @begin w own given =>
    have same : Ledger.Underway ⟨{ l.pool with
        slot := Function.update l.pool.slot w (.begun own) }, l.closed⟩ task ↔ l.Underway task := by
      refine underway_same rfl rfl ?_
      simp [Slot.Holds, given]
    simp [same]
  | @pause w own begun opened =>
    by_cases mine : own = task
    · subst mine
      have before := underway_held (begun_holds begun)
      have after : ¬ Ledger.Underway ⟨{ l.pool with
          slot := Function.update l.pool.slot w .free }, l.closed⟩ own :=
        not_underway (single.laid_down begun) opened
      simp [before, after]
    · have same : Ledger.Underway ⟨{ l.pool with
          slot := Function.update l.pool.slot w .free }, l.closed⟩ task ↔ l.Underway task := by
        refine underway_same rfl rfl ?_
        simp [Slot.Holds, begun, mine]
      simp [same, mine]
  | @close w own begun opened =>
    by_cases mine : own = task
    · subst mine
      have before := underway_held (begun_holds begun)
      have after : Ledger.Underway ⟨l.pool, Function.update l.closed own true⟩ own :=
        underway_held (begun_holds begun)
      simp [before, after]
    · have same : Ledger.Underway ⟨l.pool, Function.update l.closed own true⟩ task ↔
          l.Underway task := by
        simp only [Underway, Function.update_of_ne (Ne.symm mine)]
      simp [same]
  | @finish w own begun ran =>
    by_cases mine : own = task
    · subst mine
      have before : l.Underway own := Or.inl ran
      have after : Ledger.Underway ⟨{ l.pool with
          slot := Function.update l.pool.slot w .free }, l.closed⟩ own := Or.inl ran
      simp [before, after]
    · have same : Ledger.Underway ⟨{ l.pool with
          slot := Function.update l.pool.slot w .free }, l.closed⟩ task ↔ l.Underway task := by
        refine underway_same rfl rfl ?_
        simp [Slot.Holds, begun, mine]
      simp [same]

section Runs

variable {trace : List (Ledger W T × Turn W T)} {l : Ledger W T}

/-- Each submission of a task is still pending, was paused, or is the last one. -/
theorem submitted_turns (run : Run Ledger.turn anyStep fresh trace l) (task : T) :
    ((events trace).filterMap Turn.submitted).count task =
      l.pool.pending.count task + ((events trace).filterMap Turn.paused).count task +
        (if l.Underway task then 1 else 0) := by
  have both := run.invariant_trace (I := fun trace l => Single l.pool l.closed ∧
    ((events trace).filterMap Turn.submitted).count task =
      l.pool.pending.count task + ((events trace).filterMap Turn.paused).count task +
        (if l.Underway task then 1 else 0)) ?_ ?_
  · exact both.2
  · refine ⟨⟨by simp [fresh, empty], by simp [fresh, empty], ?_, nofun⟩, ?_⟩
    · intro task v w holds
      exact holds.elim
    · have nothing : ¬ (fresh : Ledger W T).Underway task := Ledger.not_underway (fun _ => id) rfl
      rw [if_neg nothing]
      rfl
  · rintro trace l e m ⟨single, counted⟩ _ turns
    have step := Ledger.turn_iff.mp turns
    have added := step.balance single task
    refine ⟨step.single single, ?_⟩
    simp only [filterMap_events_snoc, List.count_append]
    omega

/-- When nothing is pending and no worker has a task in hand, a task is closed if it was
submitted more often than it was paused. -/
theorem drained_turns (run : Run Ledger.turn anyStep fresh trace l) (drained : l.pool.pending = 0)
    (idle : ∀ w, l.pool.slot w = .free) (task : T) :
    ((events trace).filterMap Turn.submitted).count task =
      ((events trace).filterMap Turn.paused).count task + (if l.closed task then 1 else 0) := by
  have counted := submitted_turns run task
  have last : l.Underway task ↔ l.closed task = true := by
    simp [Ledger.Underway, idle, Slot.Holds]
  rw [drained, Multiset.count_zero, Nat.zero_add] at counted
  simpa only [last] using counted

end Runs

end TaskPool
