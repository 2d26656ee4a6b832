import ZnetServer.Transition

set_option autoImplicit false

/- One `Thread` of `server/thread.cpp`: its owner, the function `run` of the thread that it
creates, and the pthread handle. -/
namespace ZnetServer.Thread

open Transition

/-- The members. A callback that is `none` is an empty `std::function`. -/
structure Members (C : Type) where
  id : Int32
  thread : UInt64
  cb : Option C
  name : String
  joined : Bool
  semaphore : Nat
  deriving DecidableEq

/-- Where the owner is. -/
inductive Owner where
  /-- In front of `pthread_create`. -/
  | constructing
  /-- In `m_semaphore.wait()`. -/
  | waiting
  | owning
  | destroyed
  /-- The constructor has thrown. -/
  | failed
  deriving DecidableEq

/-- The statement of `run` that is next. -/
inductive RunPc where
  | absent
  | setThis
  | setName
  | setId
  | setLabel
  | notify
  | swapCallback
  | callback
  | returned
  deriving DecidableEq

/-- What the pthread library knows of the handle. -/
inductive Handle where
  | absent
  | joinable
  | joined
  | detached
  deriving DecidableEq

/-- The thread-local variables, the kernel's name of the thread and the local `cb`. -/
structure Locals (C : Type) where
  this : Bool
  name : String
  label : String
  cb : Option C
  deriving DecidableEq

structure Handover (C : Type) where
  members : Members C
  owner : Owner
  pc : RunPc
  locals : Locals C
  handle : Handle
  deriving DecidableEq

inductive Event where
  | create (handle : UInt64)
  | createFails
  | waitReturns
  | join (succeeds : Bool)
  | destroy
  | setThis
  | setName
  | setId (id : Int32)
  | setLabel
  | notify
  | swapCallback
  | callbackReturns
  deriving DecidableEq

namespace Handover

variable {C : Type}

/-- The constructor, in front of `pthread_create`. -/
def init (name : String) (cb : Option C) : Handover C where
  members :=
    { id := -1
      thread := 0
      cb := cb
      name := if name = "" then "UNKNOW" else name
      joined := false
      semaphore := 0 }
  owner := .constructing
  pc := .absent
  locals := ⟨false, "UNKNOWN", "", none⟩
  handle := .absent

/-- One step of the owner or of `run`. A step of `run` behind the destructor finds what the
members left in their place. -/
def next (s : Handover C) : Event → Option (Handover C)
  -- A `pthread_t` is the address of the thread's descriptor.
  | .create handle => match s.owner with
    | .constructing =>
      if handle = 0 then none
      else some { s with
        members := { s.members with thread := handle }
        owner := .waiting
        pc := .setThis
        handle := .joinable }
    | _ => none
  | .createFails => match s.owner with
    | .constructing => some { s with owner := .failed }
    | _ => none
  | .waitReturns => match s.owner with
    | .waiting =>
      if s.members.semaphore = 0 then none
      else some { s with
        members := { s.members with semaphore := s.members.semaphore - 1 }
        owner := .owning }
    | _ => none
  | .join succeeds => match s.owner with
    | .owning =>
      if s.members.thread = 0 then some s
      else match s.handle, succeeds with
        | .joinable, true =>
          if s.pc = .returned then
            some { s with members := { s.members with joined := true }, handle := .joined }
          else none
        -- `pthread_join` may not be given a handle that has been joined; it can return with an
        -- error or without one. An error becomes an exception.
        | _, true => some { s with members := { s.members with joined := true } }
        | _, false => some s
    | _ => none
  | .destroy => match s.owner with
    | .owning =>
      if s.members.thread ≠ 0 ∧ s.members.joined = false then
        some { s with owner := .destroyed, handle := .detached }
      else some { s with owner := .destroyed }
    | _ => none
  | .setThis => match s.pc with
    | .setThis => some { s with locals := { s.locals with this := true }, pc := .setName }
    | _ => none
  | .setName => match s.pc with
    | .setName =>
      some { s with locals := { s.locals with name := s.members.name }, pc := .setId }
    | _ => none
  | .setId id => match s.pc with
    | .setId => some { s with members := { s.members with id := id }, pc := .setLabel }
    | _ => none
  | .setLabel => match s.pc with
    | .setLabel =>
      some { s with
        locals := { s.locals with label := String.ofList (s.members.name.toList.take 15) }
        pc := .notify }
    | _ => none
  | .notify => match s.pc with
    | .notify =>
      some { s with
        members := { s.members with semaphore := s.members.semaphore + 1 }
        pc := .swapCallback }
    | _ => none
  | .swapCallback => match s.pc with
    | .swapCallback =>
      some { s with
        members := { s.members with cb := none }
        locals := { s.locals with cb := s.members.cb }
        pc := .callback }
    | _ => none
  -- An empty callback, or one that throws, ends the process.
  | .callbackReturns => match s.pc, s.locals.cb with
    | .callback, some _ => some { s with pc := .returned }
    | _, _ => none

/-- The steps of `run` that read or write the object. -/
def Touches : Event → Prop
  | .setName | .setId _ | .setLabel | .notify | .swapCallback => True
  | _ => False

/-- The step joins or detaches the handle, or tries to join it once more. -/
def Settles (s : Handover C) : Event → Prop
  | .join succeeds => s.members.thread ≠ 0 ∧ (succeeds = true ∨ s.handle ≠ .joinable)
  | .destroy => s.members.thread ≠ 0 ∧ s.members.joined = false
  | _ => False

instance : DecidablePred Touches := fun e =>
  match e with
  | .setName | .setId _ | .setLabel | .notify | .swapCallback => inferInstanceAs (Decidable True)
  | .create _ | .createFails | .waitReturns | .join _ | .destroy | .setThis
  | .callbackReturns => inferInstanceAs (Decidable False)

instance (s : Handover C) (e : Event) : Decidable (Settles s e) :=
  match e with
  | .join succeeds =>
    inferInstanceAs (Decidable (s.members.thread ≠ 0 ∧ (succeeds = true ∨ s.handle ≠ .joinable)))
  | .destroy => inferInstanceAs (Decidable (s.members.thread ≠ 0 ∧ s.members.joined = false))
  | .create _ | .createFails | .waitReturns | .setThis | .setName | .setId _ | .setLabel
  | .notify | .swapCallback | .callbackReturns => inferInstanceAs (Decidable False)

def settled (trace : List (Handover C × Event)) : Nat :=
  trace.countP fun step => Settles step.1 step.2

/-- No step of `run` has found the object destroyed, and the handle is joined or detached once:
never twice, and by the end of the destructor. -/
structure Clean (trace : List (Handover C × Event)) (s : Handover C) : Prop where
  alive : ∀ step ∈ trace, Touches step.2 → step.1.owner ≠ .destroyed
  once : settled trace ≤ 1
  released : s.owner = .destroyed → settled trace = 1

/-- `run` has no more to do with the object. -/
def Taken (pc : RunPc) : Prop := pc = .callback ∨ pc = .returned

/-- The destructor comes before `run` has swapped the callback out, or `join` after a `join`
that succeeded. -/
def Hasty (s : Handover C) : Event → Prop
  | .destroy => ¬ Taken s.pc
  | .join _ => s.members.joined = true
  | _ => False

section Steps

variable {s t : Handover C} {e : Event} {trace : List (Handover C × Event)}

/-- The same handle in the same condition. -/
structure SameHandle (s t : Handover C) : Prop where
  thread : t.members.thread = s.members.thread
  joined : t.members.joined = s.members.joined
  handle : t.handle = s.handle

/-- What a step does with the owner, the handle and what `run` has still to do. -/
inductive Effect (s t : Handover C) : Event → Prop
  | create {handle : UInt64} (before : s.owner = .constructing) (after : t.owner = .waiting)
      (thread : t.members.thread ≠ 0) (joined : t.members.joined = s.members.joined)
      (fresh : t.handle = .joinable) : Effect s t (.create handle)
  | createFails (before : s.owner = .constructing) (after : t.owner = .failed)
      (same : SameHandle s t) : Effect s t .createFails
  | waitReturns (before : s.owner = .waiting) (after : t.owner = .owning)
      (same : SameHandle s t) : Effect s t .waitReturns
  | refused {succeeds : Bool} (before : s.owner = .owning) (same : t = s)
      (unsettled : ¬ Settles s (.join succeeds)) : Effect s t (.join succeeds)
  | joins {succeeds : Bool} (before : s.owner = .owning) (after : t.owner = .owning)
      (settles : Settles s (.join succeeds)) (thread : t.members.thread = s.members.thread)
      (used : t.handle ≠ .joinable) (pc : t.pc = s.pc)
      (joined : t.members.joined = true ∨
        t.members.joined = s.members.joined ∧ s.handle ≠ .joinable) :
      Effect s t (.join succeeds)
  | destroy (before : s.owner = .owning) (after : t.owner = .destroyed)
      (joined : t.members.joined = s.members.joined) (pc : t.pc = s.pc)
      (used : t.handle = .joinable → s.handle = .joinable) : Effect s t .destroy
  | runs {e : Event} (owner : t.owner = s.owner) (same : SameHandle s t)
      (unsettled : ¬ Settles s e) (takes : Taken t.pc → Taken s.pc ∨ Touches e)
      (taken : Taken s.pc → Taken t.pc ∧ ¬ Touches e) (later : ¬ Hasty s e) : Effect s t e

/-- An error of `pthread_join` matters where the handle has been joined before. -/
theorem effect_of_error (before : s.owner = .owning) (nonzero : s.members.thread ≠ 0) :
    Effect s s (.join false) := by
  by_cases fresh : s.handle = .joinable
  · refine .refused before rfl fun settles => ?_
    rcases settles.2 with succeeded | used
    · cases succeeded
    · exact used fresh
  · exact .joins before before ⟨nonzero, .inr fresh⟩ rfl fresh rfl (.inr ⟨rfl, fresh⟩)

theorem effect_of_next (step : s.next e = some t) : Effect s t e := by
  cases e with
  | create handle =>
      simp only [next] at step
      split at step
      · rename_i before
        split at step
        · cases step
        · rename_i nonzero
          obtain rfl := Option.some.inj step
          exact .create before rfl nonzero rfl rfl
      · cases step
  | createFails =>
      simp only [next] at step
      split at step
      · rename_i before
        obtain rfl := Option.some.inj step
        exact .createFails before rfl ⟨rfl, rfl, rfl⟩
      · cases step
  | waitReturns =>
      simp only [next] at step
      split at step
      · rename_i before
        split at step
        · cases step
        · obtain rfl := Option.some.inj step
          exact .waitReturns before rfl ⟨rfl, rfl, rfl⟩
      · cases step
  | join succeeds =>
      simp only [next] at step
      split at step
      · rename_i before
        split at step
        · rename_i zero
          obtain rfl := Option.some.inj step
          exact .refused before rfl fun settles => settles.1 zero
        · rename_i nonzero
          split at step
          · split at step
            · obtain rfl := Option.some.inj step
              exact .joins before before ⟨nonzero, .inl rfl⟩ rfl nofun rfl (.inl rfl)
            · cases step
          · rename_i used
            obtain rfl := Option.some.inj step
            exact .joins before before ⟨nonzero, .inl rfl⟩ rfl used rfl (.inl rfl)
          · obtain rfl := Option.some.inj step
            exact effect_of_error before nonzero
      · cases step
  | destroy =>
      simp only [next] at step
      split at step
      · rename_i before
        split at step
        · obtain rfl := Option.some.inj step
          exact .destroy before rfl rfl rfl nofun
        · obtain rfl := Option.some.inj step
          exact .destroy before rfl rfl rfl id
      · cases step
  | setThis | setName | setId | setLabel | notify =>
      simp only [next] at step
      split at step
      · rename_i here
        obtain rfl := Option.some.inj step
        exact .runs rfl ⟨rfl, rfl, rfl⟩ id (by simp [Taken]) (by simp [Taken, here]) id
      · cases step
  | swapCallback =>
      simp only [next] at step
      split at step
      · rename_i here
        obtain rfl := Option.some.inj step
        exact .runs rfl ⟨rfl, rfl, rfl⟩ id (fun _ => .inr trivial) (by simp [Taken, here]) id
      · cases step
  | callbackReturns =>
      simp only [next] at step
      split at step
      · rename_i here _
        obtain rfl := Option.some.inj step
        exact .runs rfl ⟨rfl, rfl, rfl⟩ id (fun _ => .inl (.inl here))
          (fun _ => ⟨.inr rfl, id⟩) id
      · cases step

theorem settled_snoc : settled (trace ++ [(s, e)]) =
    settled trace + if Settles s e then 1 else 0 := by
  simp [settled, List.countP_append, List.countP_singleton]

/-- A handle that is not fresh has been joined, and the owner of an object has one. -/
structure Recorded (trace : List (Handover C × Event)) (s : Handover C) : Prop where
  fresh : s.owner = .constructing → s.members.joined = false
  thread : s.owner = .waiting ∨ s.owner = .owning → s.members.thread ≠ 0
  joined : s.members.joined = true → 1 ≤ settled trace ∧ s.handle ≠ .joinable

theorem Recorded.step (recorded : Recorded trace s) (effect : Effect s t e) :
    Recorded (trace ++ [(s, e)]) t := by
  have more : settled trace ≤ settled (trace ++ [(s, e)]) := by
    rw [settled_snoc]
    exact Nat.le_add_right _ _
  have kept (same : SameHandle s t) (joined : t.members.joined = true) :
      1 ≤ settled (trace ++ [(s, e)]) ∧ t.handle ≠ .joinable := by
    rw [same.joined] at joined
    rw [same.handle]
    exact ⟨Nat.le_trans (recorded.joined joined).1 more, (recorded.joined joined).2⟩
  cases effect with
  | create before after thread joined fresh =>
      refine ⟨fun other => ?_, fun _ => thread, fun yes => ?_⟩
      · rw [after] at other
        cases other
      · rw [joined, recorded.fresh before] at yes
        cases yes
  | createFails before after same =>
      exact ⟨by simp [after], by simp [after], kept same⟩
  | waitReturns before after same =>
      refine ⟨by simp [after], fun _ => ?_, kept same⟩
      rw [same.thread]
      exact recorded.thread (.inl before)
  | refused before same unsettled =>
      subst same
      exact ⟨recorded.fresh, recorded.thread, kept ⟨rfl, rfl, rfl⟩⟩
  | joins before after settles thread used pc joined =>
      refine ⟨by simp [after], fun _ => ?_, fun yes => ⟨?_, used⟩⟩
      · rw [thread]
        exact recorded.thread (.inr before)
      · rw [settled_snoc, if_pos settles]
        omega
  | destroy before after joined pc used =>
      refine ⟨by simp [after], by simp [after], fun yes => ?_⟩
      rw [joined] at yes
      have old := recorded.joined yes
      exact ⟨Nat.le_trans old.1 more, fun fresh => old.2 (used fresh)⟩
  | runs owner same =>
      refine ⟨fun before => ?_, fun there => ?_, kept same⟩
      · rw [same.joined]
        exact recorded.fresh (owner ▸ before)
      · rw [same.thread]
        exact recorded.thread (owner ▸ there)

/-- While no step is hasty, the handle is settled where `m_joined` says so or the object is
gone, and `run` has let go of an object that is gone. -/
structure Orderly (trace : List (Handover C × Event)) (s : Handover C) : Prop where
  fresh : s.owner = .constructing → s.members.joined = false
  opened : s.owner = .waiting ∨ s.owner = .owning →
    s.members.thread ≠ 0 ∧ (s.members.joined = false → s.handle = .joinable)
  count : settled trace = if s.owner = .destroyed ∨ s.members.joined = true then 1 else 0
  gone : s.owner = .destroyed → Taken s.pc
  alive : ∀ step ∈ trace, Touches step.2 → step.1.owner ≠ .destroyed

theorem init_orderly (name : String) (cb : Option C) : Orderly [] (init name cb) where
  fresh _ := rfl
  opened there := by simp [init] at there
  count := by simp [settled, init]
  gone there := by simp [init] at there
  alive := by simp

/-- A step that leaves the handle alone and does not bring the object to its end. -/
theorem Orderly.same (orderly : Orderly trace s) (unsettled : ¬ Settles s e)
    (same : SameHandle s t) (ends : t.owner = .destroyed ↔ s.owner = .destroyed) :
    settled (trace ++ [(s, e)]) =
      if t.owner = .destroyed ∨ t.members.joined = true then 1 else 0 := by
  rw [settled_snoc, if_neg unsettled, orderly.count, same.joined]
  simp only [ends, Nat.add_zero]

theorem Orderly.step (orderly : Orderly trace s) (effect : Effect s t e)
    (patient : ¬ Hasty s e) : Orderly (trace ++ [(s, e)]) t := by
  have alive (untouched : s.owner = .destroyed → ¬ Touches e) :
      ∀ step ∈ trace ++ [(s, e)], Touches step.2 → step.1.owner ≠ .destroyed := by
    rw [List.forall_mem_append, List.forall_mem_singleton]
    exact ⟨orderly.alive, fun touches gone => untouched gone touches⟩
  cases effect with
  | @create handle before after thread joined fresh =>
      have unjoined := orderly.fresh before
      refine ⟨by simp [after], fun _ => ⟨thread, fun _ => fresh⟩, ?_, by simp [after], ?_⟩
      · have unsettled : ¬ Settles s (.create handle) := id
        rw [settled_snoc, if_neg unsettled, orderly.count, joined, unjoined]
        simp [before, after]
      · exact alive fun gone => by simp [before] at gone
  | createFails before after same =>
      refine ⟨by simp [after], by simp [after], ?_, by simp [after], alive (fun _ => id)⟩
      exact orderly.same id same (by simp [before, after])
  | waitReturns before after same =>
      refine ⟨by simp [after], fun _ => ?_, ?_, by simp [after], alive (fun _ => id)⟩
      · rw [same.thread, same.joined, same.handle]
        exact orderly.opened (.inl before)
      · exact orderly.same id same (by simp [before, after])
  | refused before same unsettled =>
      subst same
      refine ⟨orderly.fresh, orderly.opened, ?_, orderly.gone, alive (fun _ => id)⟩
      exact orderly.same unsettled ⟨rfl, rfl, rfl⟩ Iff.rfl
  | joins before after settles thread used pc joined =>
      have unjoined : s.members.joined = false := Bool.eq_false_iff.mpr patient
      have opened := orderly.opened (.inr before)
      -- A handle that was never joined is joinable, so the join has succeeded.
      have succeeded : t.members.joined = true := by
        rcases joined with yes | ⟨_, stale⟩
        · exact yes
        · exact absurd (opened.2 unjoined) stale
      refine ⟨by simp [after], fun _ => ⟨thread ▸ opened.1, by simp [succeeded]⟩, ?_,
        by simp [after], alive (fun _ => id)⟩
      rw [settled_snoc, if_pos settles, orderly.count, unjoined, succeeded]
      simp [before]
  | destroy before after joined pc used =>
      have opened := orderly.opened (.inr before)
      refine ⟨by simp [after], by simp [after], ?_, fun _ => ?_, alive (fun _ => id)⟩
      · rw [settled_snoc, orderly.count]
        cases done : s.members.joined <;> simp [Settles, done, opened.1, before, after]
      · rw [pc]
        exact not_not.mp patient
  | runs owner same unsettled takes taken later =>
      refine ⟨fun before => ?_, fun there => ?_, ?_, fun gone => ?_, ?_⟩
      · rw [same.joined]
        exact orderly.fresh (owner ▸ before)
      · rw [same.thread, same.joined, same.handle]
        exact orderly.opened (owner ▸ there)
      · exact orderly.same unsettled same (by rw [owner])
      · exact (taken (orderly.gone (owner ▸ gone))).1
      · exact alive fun gone => (taken (orderly.gone gone)).2

theorem Orderly.clean (orderly : Orderly trace s) : Clean trace s where
  alive := orderly.alive
  once := by
    rw [orderly.count]
    split <;> omega
  released gone := by rw [orderly.count, if_pos (.inl gone)]

variable {name : String} {cb : Option C}

theorem run_recorded (run : Run next anyStep (init name cb) trace s) : Recorded trace s := by
  refine run.invariant_trace (I := Recorded) ?_ ?_
  · exact ⟨fun _ => rfl, by simp [init], by simp [init]⟩
  · exact fun trace s e t recorded _ step => recorded.step (effect_of_next step)

theorem run_orderly (run : Run next anyStep (init name cb) trace s)
    (patient : ∀ step ∈ trace, ¬ Hasty step.1 step.2) : Orderly trace s := by
  have strict : Run next (fun s e => ¬ Hasty s e) (init name cb) trace s := run.restrict patient
  refine strict.invariant_trace (I := Orderly) (init_orderly name cb) ?_
  exact fun trace s e t orderly patient step => orderly.step (effect_of_next step) patient

/-- Once the object is gone, `run` takes the callback from what is left of it. -/
theorem takes_from_destroyed {allowed : Handover C → Event → Prop} (gone : s.owner = .destroyed)
    (untaken : ¬ Taken s.pc) (run : Run next allowed s trace t) :
    t.owner = .destroyed ∧
      (Taken t.pc → ∃ step ∈ trace, Touches step.2 ∧ step.1.owner = .destroyed) := by
  refine run.invariant_trace (I := fun trace t => t.owner = .destroyed ∧
    (Taken t.pc → ∃ step ∈ trace, Touches step.2 ∧ step.1.owner = .destroyed))
    ⟨gone, fun taken => absurd taken untaken⟩ ?_
  rintro trace m e t ⟨gone, late⟩ _ step
  have before : Taken m.pc → ∃ step ∈ trace ++ [(m, e)],
      Touches step.2 ∧ step.1.owner = .destroyed := by
    intro taken
    obtain ⟨step, member, found⟩ := late taken
    exact ⟨step, List.mem_append_left _ member, found⟩
  cases effect_of_next step with
  | create other | createFails other | waitReturns other | joins other | destroy other
  | refused other =>
      rw [gone] at other
      cases other
  | runs owner _ _ takes =>
      refine ⟨owner.trans gone, fun taken => ?_⟩
      rcases takes taken with earlier | touches
      · exact before earlier
      · exact ⟨(m, e), List.mem_append_right _ (List.mem_singleton_self _), touches, gone⟩

theorem settled_append (front back : List (Handover C × Event)) :
    settled (front ++ back) = settled front + settled back := List.countP_append

/-- In a clean run whose thread has returned, no step was hasty. -/
theorem Clean.patient (clean : Clean trace s) (run : Run next anyStep (init name cb) trace s)
    (returned : s.pc = .returned) : ∀ step ∈ trace, ¬ Hasty step.1 step.2 := by
  rintro ⟨m, e⟩ member hasty
  obtain ⟨front, back, rfl⟩ := List.append_of_mem member
  rw [List.append_cons] at run clean
  obtain ⟨after, first, rest⟩ := run.split
  obtain ⟨earlier, _, step⟩ := first.of_snoc
  have effect := effect_of_next step
  cases e with
  | destroy =>
      cases effect with
      | destroy before gone joined pc =>
          have untaken : ¬ Taken after.pc := by
            rw [pc]
            exact hasty
          obtain ⟨step, late, touches, dead⟩ :=
            (takes_from_destroyed gone untaken rest).2 (.inr returned)
          exact clean.alive step (List.mem_append_right _ late) touches dead
      | runs _ _ _ _ _ later => exact later hasty
  | join succeeds =>
      have recorded := run_recorded earlier
      have used := recorded.joined hasty
      have owning : m.owner = .owning := by
        cases effect with
        | refused before | joins before => exact before
        | runs _ _ _ _ _ later => exact absurd hasty later
      have settles : Settles m (.join succeeds) := ⟨recorded.thread (.inr owning), .inr used.2⟩
      have twice := clean.once
      rw [settled_append, settled_snoc, if_pos settles] at twice
      omega
  | create | createFails | waitReturns | setThis | setName | setId | setLabel | notify
  | swapCallback | callbackReturns => exact hasty

end Steps

/-- Where every destructor call finds the callback swapped out and `join` is not called behind a
`join` that succeeded, the object is handed over cleanly; a run to the end of the thread that is
clean has no other steps. -/
theorem clean_handover {name : String} {cb : Option C} {trace : List (Handover C × Event)}
    {s : Handover C} (run : Run next anyStep (init name cb) trace s) :
    ((∀ step ∈ trace, ¬ Hasty step.1 step.2) → Clean trace s) ∧
      (s.pc = .returned → Clean trace s → ∀ step ∈ trace, ¬ Hasty step.1 step.2) :=
  ⟨fun patient => (run_orderly run patient).clean,
    fun returned clean => clean.patient run returned⟩

instance (pc : RunPc) : Decidable (Taken pc) :=
  inferInstanceAs (Decidable (pc = .callback ∨ pc = .returned))

instance (s : Handover C) (e : Event) : Decidable (Hasty s e) :=
  match e with
  | .destroy => inferInstanceAs (Decidable (¬ Taken s.pc))
  | .join _ => inferInstanceAs (Decidable (s.members.joined = true))
  | .create _ | .createFails | .waitReturns | .setThis | .setName | .setId _ | .setLabel
  | .notify | .swapCallback | .callbackReturns => inferInstanceAs (Decidable False)

/-- The constructor, with the steps of `run` that it waits for. -/
def constructs : List Event :=
  [.create 7, .setThis, .setName, .setId 12, .setLabel, .notify, .waitReturns]

/-- The owner joins and destroys. -/
theorem clean_joined : ∃ (trace : List (Handover Unit × Event)) (s : Handover Unit),
    Run next anyStep (init "worker" (some ())) trace s ∧ s.owner = .destroyed ∧
      Clean trace s := by
  have run := Run.of_replay (show replay (guarded next anyStep) (init "worker" (some ()))
    (constructs ++ [.swapCallback, .callbackReturns, .join true, .destroy]) = some (_, _) from rfl)
  exact ⟨_, _, run, rfl, (clean_handover run).1 (by decide)⟩

/-- The owner destroys the object as soon as it has it, and `run` swaps the callback out of what
is left. -/
theorem callback_taken_late : ∃ (trace : List (Handover Unit × Event)) (s : Handover Unit),
    Run next anyStep (init "worker" (some ())) trace s ∧ ¬ Clean trace s := by
  have run := Run.of_replay (show replay (guarded next anyStep) (init "worker" (some ()))
    (constructs ++ [.destroy, .swapCallback, .callbackReturns]) = some (_, _) from rfl)
  refine ⟨_, _, run, fun clean => ?_⟩
  exact absurd clean.alive (by decide)

end Handover

end ZnetServer.Thread
