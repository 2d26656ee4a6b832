import ZnetServer.Scheduler

set_option autoImplicit false

/- The scheduler never looks at a fiber: whatever it does with fibers of one name, it does with
fibers that carry more than their name. -/
namespace ZnetServer.Scheduler

open Transition

variable {n : Nat} {E F : Type}

def WorkerPc.rename (name : E → F) : WorkerPc E → WorkerPc F
  | .absent => .absent
  | .ready => .ready
  | .waiting => .waiting
  | .woken => .woken
  | .holding fiber => .holding (name fiber)
  | .running fiber tickling => .running (name fiber) tickling
  | .empty => .empty
  | .left => .left

def Event.rename (name : E → F) : Event n E → Event n F
  | .start => .start
  | .spawn => .spawn
  | .startReturns => .startReturns
  | .schedule fiber => .schedule (fiber.map name)
  | .tickle target => .tickle target
  | .take w => .take w
  | .spurious w => .spurious w
  | .swapIn w => .swapIn w
  | .fiberSchedule w fiber => .fiberSchedule w (fiber.map name)
  | .fiberTickle w target => .fiberTickle w target
  | .giveBack w => .giveBack w
  | .checkStopping w => .checkStopping w
  | .stop => .stop
  | .notifyAll => .notifyAll
  | .swapThreads => .swapThreads
  | .join => .join
  | .callRoot => .callRoot
  | .stopReturns => .stopReturns

theorem rename_rename {D : Type} (inner : D → E) (outer : E → F) (e : Event n D) :
    (e.rename inner).rename outer = e.rename (outer ∘ inner) := by
  cases e with
  | schedule fiber => exact congrArg Event.schedule (Option.map_map outer inner fiber)
  | fiberSchedule w fiber =>
      exact congrArg (Event.fiberSchedule w) (Option.map_map outer inner fiber)
  | _ => rfl

theorem rename_id (e : Event n F) : e.rename id = e := by
  cases e with
  | schedule fiber =>
      rw [Event.rename, Option.map_id]
      rfl
  | fiberSchedule w fiber =>
      rw [Event.rename, Option.map_id]
      rfl
  | _ => rfl

/-- What `saved` says of the fibers is given: no step reads it. -/
def State.rename (name : E → F) (saved : F → Bool) (s : State n E) : State n F where
  fibers := s.fibers.map (Option.map name)
  stopping := s.stopping
  worker w := (s.worker w).rename name
  tickling := s.tickling
  owner := s.owner
  saved := saved

section Fields

variable (name : E → F) (saved : F → Bool) (s : State n E)

@[simp] theorem rename_fibers :
    (s.rename name saved).fibers = s.fibers.map (Option.map name) := rfl
@[simp] theorem rename_stopping : (s.rename name saved).stopping = s.stopping := rfl
@[simp] theorem rename_worker (w : WorkerId n) :
    (s.rename name saved).worker w = (s.worker w).rename name := rfl
@[simp] theorem rename_tickling : (s.rename name saved).tickling = s.tickling := rfl
@[simp] theorem rename_owner : (s.rename name saved).owner = s.owner := rfl

theorem rename_setWorker (w : WorkerId n) (pc : WorkerPc E) :
    (s.rename name saved).setWorker w (pc.rename name) =
      (s.setWorker w pc).rename name saved := by
  have same : Function.update (fun v => (s.worker v).rename name) w (pc.rename name) =
      fun v => (Function.update s.worker w pc v).rename name := by
    funext v
    by_cases here : v = w
    · subst here
      rw [Function.update_self, Function.update_self]
    · rw [Function.update_of_ne here, Function.update_of_ne here]
  exact congrArg (fun worker => (⟨s.fibers.map (Option.map name), s.stopping, worker, s.tickling,
    s.owner, saved⟩ : State n F)) same

@[simp] theorem rename_isWaiting (pc : WorkerPc E) : (pc.rename name).isWaiting = pc.isWaiting := by
  cases pc <;> rfl

theorem rename_notifyAll : (s.rename name saved).notifyAll = s.notifyAll.rename name saved := by
  have same : (fun w => if ((s.worker w).rename name).isWaiting then .woken
        else (s.worker w).rename name) =
      fun w => (if (s.worker w).isWaiting then .woken else s.worker w).rename name := by
    funext w
    rw [rename_isWaiting]
    split <;> rfl
  exact congrArg (fun worker => (⟨s.fibers.map (Option.map name), s.stopping, worker, s.tickling,
    s.owner, saved⟩ : State n F)) same

theorem rename_notifyOne (target : Option (WorkerId n)) :
    (s.rename name saved).notifyOne target =
      (s.notifyOne target).map (State.rename name saved) := by
  cases target with
  | some w =>
      simp only [State.notifyOne, rename_worker, rename_isWaiting]
      split
      · exact congrArg some (rename_setWorker name saved s w .woken)
      · rfl
  | none =>
      simp only [State.notifyOne, rename_worker, rename_isWaiting]
      split <;> rfl

theorem rename_schedule (fiber : Option E) :
    (s.rename name saved).schedule (fiber.map name) =
      ((s.schedule fiber).1.rename name saved, (s.schedule fiber).2) := by
  simp [State.schedule, State.rename]

theorem rename_take : (s.rename name saved).take =
    (s.take.1.rename name saved, s.take.2.rename name) := by
  rcases s.fibers.eq_nil_or_concat with nothing | ⟨rest, last, back⟩
  · have renamed : (s.rename name saved).fibers = [] := by rw [rename_fibers, nothing]; rfl
    cases flag : s.stopping with
    | false =>
        rw [take_blocked s nothing flag, take_blocked (s.rename name saved) renamed flag]
        rfl
    | true =>
        rw [take_nothing s nothing flag, take_nothing (s.rename name saved) renamed flag]
        rfl
  · have renamed : (s.rename name saved).fibers =
        rest.map (Option.map name) ++ [last.map name] := by
      rw [rename_fibers, back, List.concat_eq_append, List.map_append]
      rfl
    rw [List.concat_eq_append] at back
    cases last with
    | some fiber =>
        rw [take_back s back, take_back (s.rename name saved) renamed]
        rfl
    | none =>
        rw [take_null s back, take_null (s.rename name saved) renamed]
        rfl

end Fields

section Runs

variable [DecidableEq E] [DecidableEq F] {userCaller : Bool} {name : E → F}

/-- Where the scheduler steps with the names, it takes the same step with what is named. -/
theorem next_rename {saved : F → Bool} {x : State n E} {t : State n F} {e : Event n E}
    (step : next userCaller (x.rename name saved) (e.rename name) = some t) :
    ∃ y after, next userCaller x e = some y ∧ t = y.rename name after := by
  cases e with
  | schedule fiber =>
      simp only [next, Event.rename, rename_schedule, Option.some.injEq] at step
      subst step
      exact ⟨_, saved, rfl, rfl⟩
  | tickle target =>
      simp only [next, Event.rename] at step ⊢
      by_cases pending : x.tickling = 0
      · rw [rename_tickling, if_pos pending] at step
        cases step
      · rw [rename_tickling, if_neg pending] at step
        have moved := rename_notifyOne name saved { x with tickling := x.tickling - 1 } target
        obtain ⟨y, notified, rfl⟩ := Option.map_eq_some_iff.mp (moved.symm.trans step)
        exact ⟨y, saved, by rw [if_neg pending, notified], rfl⟩
  | take w =>
      simp only [next, Event.rename, rename_worker, rename_take, rename_setWorker] at step ⊢
      cases place : x.worker w <;> simp only [place, WorkerPc.rename] at step ⊢
      case ready | woken => exact ⟨_, saved, rfl, (Option.some.inj step).symm⟩
      all_goals cases step
  | spurious w =>
      simp only [next, Event.rename, rename_worker] at step ⊢
      cases place : x.worker w <;> simp only [place, WorkerPc.rename] at step ⊢
      case waiting =>
        refine ⟨_, saved, rfl, (Option.some.inj step).symm.trans ?_⟩
        exact rename_setWorker name saved x w .woken
      all_goals cases step
  | swapIn w =>
      simp only [next, Event.rename, rename_worker] at step ⊢
      cases place : x.worker w <;> simp only [place, WorkerPc.rename] at step ⊢
      case holding fiber =>
        refine ⟨_, Function.update saved (name fiber) false, rfl,
          (Option.some.inj step).symm.trans ?_⟩
        exact rename_setWorker name _ x w (.running fiber false)
      all_goals cases step
  | fiberSchedule w scheduled =>
      simp only [next, Event.rename, rename_worker, rename_schedule] at step ⊢
      cases place : x.worker w <;> simp only [place, WorkerPc.rename] at step ⊢
      case running fiber tickling =>
        cases tickling with
        | true => cases step
        | false =>
            refine ⟨_, saved, rfl, (Option.some.inj step).symm.trans ?_⟩
            exact rename_setWorker name saved (x.schedule scheduled).1 w
              (.running fiber (x.schedule scheduled).2)
      all_goals cases step
  | fiberTickle w target =>
      simp only [next, Event.rename, rename_worker] at step ⊢
      cases place : x.worker w <;> simp only [place, WorkerPc.rename] at step ⊢
      case running fiber tickling =>
        cases tickling with
        | false => cases step
        | true =>
            have set := rename_setWorker name saved x w (.running fiber false)
            have moved := rename_notifyOne name saved (x.setWorker w (.running fiber false)) target
            rw [← set] at moved
            obtain ⟨y, notified, rfl⟩ := Option.map_eq_some_iff.mp (moved.symm.trans step)
            exact ⟨y, saved, notified, rfl⟩
      all_goals cases step
  | giveBack w =>
      simp only [next, Event.rename, rename_worker] at step ⊢
      cases place : x.worker w <;> simp only [place, WorkerPc.rename] at step ⊢
      case running fiber tickling =>
        cases tickling with
        | true => cases step
        | false =>
            refine ⟨_, Function.update saved (name fiber) true, rfl,
              (Option.some.inj step).symm.trans ?_⟩
            exact rename_setWorker name _ x w .ready
      all_goals cases step
  | checkStopping w =>
      simp only [next, Event.rename, rename_worker] at step ⊢
      cases place : x.worker w <;> simp only [place, WorkerPc.rename] at step ⊢
      case empty =>
        refine ⟨_, saved, rfl, (Option.some.inj step).symm.trans ?_⟩
        have same : (x.rename name saved).stopping = x.stopping := rfl
        by_cases stops : x.stopping = true
        · rw [if_pos stops, if_pos (same.trans stops)]
          exact rename_setWorker name saved x w .left
        · rw [if_neg stops, if_neg (same ▸ stops)]
          exact rename_setWorker name saved x w .ready
      all_goals cases step
  | spawn =>
      simp only [next, Event.rename, rename_owner] at step ⊢
      cases owner : x.owner <;> simp only [owner] at step ⊢
      case starting created =>
        split at step
        · rename_i inside
          refine ⟨_, saved, by rw [dif_pos inside], (Option.some.inj step).symm.trans ?_⟩
          exact rename_setWorker name saved { x with owner := .starting (created + 1) } _ .ready
        · cases step
      all_goals cases step
  | join =>
      simp only [next, Event.rename, rename_owner, rename_worker] at step ⊢
      cases owner : x.owner <;> simp only [owner] at step ⊢
      case joining joined =>
        split at step
        · rename_i inside
          rw [dif_pos inside]
          cases place : x.worker (some ⟨joined, inside⟩) <;>
            simp only [place, WorkerPc.rename] at step ⊢
          case left => exact ⟨_, saved, rfl, (Option.some.inj step).symm⟩
          all_goals simp at step
        · cases step
      all_goals cases step
  | callRoot =>
      simp only [next, Event.rename, rename_owner] at step ⊢
      cases owner : x.owner <;> simp only [owner] at step ⊢
      case joining joined =>
        split at step
        · rename_i guard
          refine ⟨_, saved, by rw [if_pos guard], (Option.some.inj step).symm.trans ?_⟩
          exact rename_setWorker name saved { x with owner := .calling } none .ready
        · cases step
      all_goals cases step
  | stopReturns =>
      simp only [next, Event.rename, rename_owner, rename_worker] at step ⊢
      cases owner : x.owner <;> simp only [owner] at step ⊢
      case joining joined =>
        split at step
        · rename_i guard
          exact ⟨_, saved, by rw [if_pos guard], (Option.some.inj step).symm⟩
        · cases step
      case calling =>
        cases place : x.worker none <;> simp only [place, WorkerPc.rename] at step ⊢
        case left => exact ⟨_, saved, rfl, (Option.some.inj step).symm⟩
        all_goals simp at step
      all_goals cases step
  | notifyAll =>
      simp only [next, Event.rename, rename_owner, rename_notifyAll] at step ⊢
      cases owner : x.owner <;> simp only [owner] at step ⊢
      case flagged => exact ⟨_, saved, rfl, (Option.some.inj step).symm⟩
      all_goals cases step
  | startReturns =>
      simp only [next, Event.rename, rename_owner] at step ⊢
      cases owner : x.owner <;> simp only [owner] at step ⊢
      case starting created =>
        split at step
        · cases step
        · rename_i all
          exact ⟨_, saved, by rw [if_neg all], (Option.some.inj step).symm⟩
      all_goals cases step
  | start =>
      simp only [next, Event.rename, rename_owner] at step ⊢
      cases owner : x.owner <;> simp only [owner] at step ⊢
      case built => exact ⟨_, saved, rfl, (Option.some.inj step).symm⟩
      all_goals cases step
  | stop =>
      simp only [next, Event.rename, rename_owner] at step ⊢
      cases owner : x.owner <;> simp only [owner] at step ⊢
      case started => exact ⟨_, saved, rfl, (Option.some.inj step).symm⟩
      all_goals cases step
  | swapThreads =>
      simp only [next, Event.rename, rename_owner] at step ⊢
      cases owner : x.owner <;> simp only [owner] at step ⊢
      case notified => exact ⟨_, saved, rfl, (Option.some.inj step).symm⟩
      all_goals cases step

/-- Both steps of a pair do the same, the one with the names of the other's fibers. -/
def Names (name : E → F) (own : State n E × Event n E) (step : State n F × Event n F) : Prop :=
  (∃ saved, step.1 = own.1.rename name saved) ∧ step.2 = own.2.rename name

/-- A run with the names is a run with whatever carries them. -/
theorem run_rename {trace : List (State n F × Event n F)} {s : State n F}
    (run : Run (next userCaller) anyStep init trace s) {program : List (Event n E)}
    (named : program.map (Event.rename name) = events trace) :
    ∃ own x saved, Run (next userCaller) anyStep init own x ∧ events own = program ∧
      List.Forall₂ (Names name) own trace ∧ s = x.rename name saved := by
  induction run generalizing program with
  | nil =>
      obtain rfl := List.map_eq_nil_iff.mp named
      exact ⟨[], init, fun _ => true, .nil, rfl, .nil, rfl⟩
  | snoc _ _ step ih =>
      rw [events_snoc] at named
      obtain ⟨front, last, rfl, first, single⟩ := List.map_eq_append_iff.mp named
      obtain ⟨e, rfl, rfl⟩ := List.map_eq_singleton_iff.mp single
      obtain ⟨own, x, saved, before, rfl, pairs, rfl⟩ := ih first
      obtain ⟨y, after, taken, rfl⟩ := next_rename step
      refine ⟨own ++ [(x, e)], y, after, before.snoc trivial taken, events_snoc own x e, ?_, rfl⟩
      exact List.rel_append pairs (.cons ⟨⟨saved, rfl⟩, rfl⟩ .nil)

end Runs

end ZnetServer.Scheduler
