import ZnetServer.RunBudget
import ZnetServer.ThreadHandover

set_option autoImplicit false

/- What the constructor of `Thread` waits for: the thread's own variables are set when it
returns, it does return, and the callback runs once. -/
namespace ZnetServer.Thread

open Transition

/-- The number of statements of `run` that are executed. -/
def RunPc.done : RunPc → Nat
  | .absent | .setThis => 0
  | .setName => 1
  | .setId => 2
  | .setLabel => 3
  | .notify => 4
  | .swapCallback => 5
  | .callback => 6
  | .returned => 7

/-- The name that a thread is given. -/
def given (name : String) : String := if name = "" then "UNKNOW" else name

namespace Handover

variable {C : Type}

/-- The variables of the thread in front of a statement of `run`. -/
def localsAt (name : String) (cb : Option C) (pc : RunPc) : Locals C where
  this := decide (1 ≤ pc.done)
  name := if 2 ≤ pc.done then name else "UNKNOWN"
  label := if 4 ≤ pc.done then String.ofList (name.toList.take 15) else ""
  cb := if 6 ≤ pc.done then cb else none

/-- The owner waits until `run` has posted, and joins behind its end. -/
structure Stages (s : Handover C) : Prop where
  unborn : s.owner = .constructing ∨ s.owner = .failed → s.pc = .absent
  begun : s.owner = .waiting → s.pc ≠ .absent
  created : s.owner = .owning ∨ s.owner = .destroyed → 5 ≤ s.pc.done
  posted : s.members.semaphore = if 5 ≤ s.pc.done ∧ s.owner = .waiting then 1 else 0
  joined : s.members.joined = true ∨ s.handle = .joined → s.pc = .returned
  fresh : s.handle = .absent → s.owner = .constructing ∨ s.owner = .failed
  detached : s.handle = .detached → s.owner = .destroyed

/-- What `run` has written is that of the statements that it has executed. -/
structure Written (name : String) (cb : Option C) (s : Handover C) : Prop where
  named : s.members.name = given name
  locals : s.locals = localsAt (given name) cb s.pc
  cb : s.members.cb = if 6 ≤ s.pc.done then none else cb

/-- The kernel's identifier is what the call has returned, and the callback returns once. -/
structure Noted (trace : List (Handover C × Event)) (s : Handover C) : Prop where
  id : 3 ≤ s.pc.done → Event.setId s.members.id ∈ events trace
  returns : (events trace).count .callbackReturns = if s.pc = .returned then 1 else 0

section Steps

variable {name : String} {cb : Option C} {trace : List (Handover C × Event)} {s t : Handover C}
  {e : Event}

/-- The owner waits for as long as `run` has not posted. -/
theorem Stages.waiting (stages : Stages s) (early : s.pc.done < 5) (begun : s.pc ≠ .absent) :
    s.owner = .waiting := by
  cases owner : s.owner with
  | waiting => rfl
  | constructing => exact absurd (stages.unborn (Or.inl owner)) begun
  | failed => exact absurd (stages.unborn (Or.inr owner)) begun
  | owning => exact absurd (stages.created (Or.inl owner)) (Nat.not_le_of_lt early)
  | destroyed => exact absurd (stages.created (Or.inr owner)) (Nat.not_le_of_lt early)

theorem Stages.step (stages : Stages s) (step : s.next e = some t) : Stages t := by
  have waiting := stages.waiting
  obtain ⟨unborn, begun, created, posted, joined, fresh, detached⟩ := stages
  cases e <;> simp only [next] at step
  case create | waitReturns =>
    split at step
    · rename_i owner
      split at step <;> cases step
      constructor <;> simp_all [RunPc.done]
    · cases step
  case createFails =>
    split at step <;> cases step
    rename_i owner
    constructor <;> simp_all [RunPc.done]
  case setThis | setName | setId | setLabel | notify =>
    split at step <;> cases step
    rename_i here
    have before : s.owner = .waiting := by
      apply waiting <;> simp [here, RunPc.done]
    constructor <;> simp_all [RunPc.done]
  case swapCallback =>
    split at step <;> cases step
    rename_i here
    constructor <;> simp_all [RunPc.done]
  case callbackReturns =>
    split at step <;> cases step
    rename_i here _
    constructor <;> simp_all [RunPc.done]
  case join succeeds =>
    split at step
    · rename_i owner
      split at step
      · cases step
        exact ⟨unborn, begun, created, posted, joined, fresh, detached⟩
      · split at step
        · split at step <;> cases step
          constructor <;> simp_all [RunPc.done]
        · rename_i unusable
          cases step
          -- A handle that is neither joinable nor joined is detached, and then the object is gone.
          have returned : s.pc = .returned := by
            cases handle : s.handle with
            | absent => rcases fresh handle with other | other <;> simp [owner] at other
            | joinable => exact (unusable handle).elim
            | joined => exact joined (Or.inr handle)
            | detached => simp [detached handle] at owner
          constructor <;> simp_all [RunPc.done]
        · cases step
          exact ⟨unborn, begun, created, posted, joined, fresh, detached⟩
    · cases step
  case destroy =>
    split at step
    · split at step <;> cases step <;> constructor <;> simp_all
    · cases step

/-- `join` changes nothing but `m_joined` and the handle. -/
theorem join_keeps {succeeds : Bool} (step : s.next (.join succeeds) = some t) :
    ∃ joined handle, t = { s with members := { s.members with joined }, handle } := by
  simp only [next] at step
  split at step
  · split at step
    · cases step
      exact ⟨s.members.joined, s.handle, rfl⟩
    · split at step
      · split at step <;> cases step
        exact ⟨true, .joined, rfl⟩
      · cases step
        exact ⟨true, s.handle, rfl⟩
      · cases step
        exact ⟨s.members.joined, s.handle, rfl⟩
  · cases step

theorem Written.step (written : Written name cb s) (stages : Stages s)
    (step : s.next e = some t) : Written name cb t := by
  obtain ⟨named, locals, callback⟩ := written
  cases e
  case join =>
    obtain ⟨joined, handle, rfl⟩ := join_keeps step
    exact ⟨named, locals, callback⟩
  all_goals simp only [next] at step
  case create =>
    split at step
    · rename_i owner
      have absent := stages.unborn (Or.inl owner)
      rw [absent] at locals callback
      split at step <;> cases step
      exact ⟨named, locals, callback⟩
    · cases step
  case setThis | setName | setId | setLabel | notify | swapCallback =>
    split at step <;> cases step
    rename_i here
    rw [here] at locals callback
    constructor <;> simp [named, locals, callback, localsAt, RunPc.done]
  case callbackReturns =>
    split at step <;> cases step
    rename_i here _
    rw [here] at locals callback
    constructor <;> simp [named, locals, callback, localsAt, RunPc.done]
  case createFails =>
    split at step <;> cases step
    exact ⟨named, locals, callback⟩
  case waitReturns | destroy =>
    split at step
    · split at step <;> cases step <;> exact ⟨named, locals, callback⟩
    · cases step

/-- The other steps. -/
theorem Noted.other (noted : Noted trace s) (id : t.members.id = s.members.id)
    (before : 3 ≤ t.pc.done → 3 ≤ s.pc.done) (ends : t.pc = .returned ↔ s.pc = .returned)
    (apart : e ≠ .callbackReturns) : Noted (trace ++ [(s, e)]) t where
  id late := by
    rw [events_snoc, id]
    exact List.mem_append_left _ (noted.id (before late))
  returns := by
    rw [events_snoc, List.count_append, noted.returns, List.count_singleton]
    simp [ends, apart]

theorem Noted.step (noted : Noted trace s) (stages : Stages s) (step : s.next e = some t) :
    Noted (trace ++ [(s, e)]) t := by
  cases e
  case join =>
    obtain ⟨joined, handle, rfl⟩ := join_keeps step
    exact noted.other rfl (fun late => late) Iff.rfl (by simp)
  all_goals simp only [next] at step
  case create =>
    split at step
    · rename_i owner
      have absent := stages.unborn (Or.inl owner)
      split at step <;> cases step
      exact noted.other rfl (by simp [RunPc.done]) (by simp [absent]) (by simp)
    · cases step
  case createFails =>
    split at step <;> cases step
    exact noted.other rfl (fun late => late) Iff.rfl (by simp)
  case waitReturns | destroy =>
    split at step
    · split at step <;> cases step <;>
        exact noted.other rfl (fun late => late) Iff.rfl (by simp)
    · cases step
  case setThis | setName | setLabel | notify | swapCallback =>
    split at step <;> cases step
    rename_i here
    exact noted.other rfl (by simp [here, RunPc.done]) (by simp [here]) (by simp)
  case setId id =>
    split at step <;> cases step
    rename_i here
    refine ⟨fun _ => ?_, ?_⟩
    · rw [events_snoc]
      exact List.mem_append_right _ (List.mem_singleton_self _)
    · rw [events_snoc, List.count_append, noted.returns]
      simp [here]
  case callbackReturns =>
    split at step <;> cases step
    rename_i here _
    refine ⟨fun _ => ?_, ?_⟩
    · rw [events_snoc]
      exact List.mem_append_left _ (noted.id (by simp [here, RunPc.done]))
    · rw [events_snoc, List.count_append, noted.returns]
      simp [here]

/-- The steps that a constructor waits for, and its own return. -/
def constructing : Event → Bool
  | .setThis | .setName | .setId _ | .setLabel | .notify | .waitReturns => true
  | _ => false

end Steps

end Handover

end ZnetServer.Thread
