import ZnetServer.SchedulerRename
import ZnetServer.SchedulerRoot

set_option autoImplicit false

/- The order in which queued fibers are handed out. An entry of the queue is known by the call
of `schedule` that made it, since one fiber may be queued several times. -/
namespace ZnetServer.Scheduler

open Transition

variable {n : Nat} {F : Type}

/-- The fibers that the workers take from `m_fibers` for `swapIn`, in this order. -/
def handed (trace : List (State n F × Event n F)) : List F := (popped trace).map Prod.snd

/-- The fibers in `m_fibers`, without the null pointers. -/
def State.queued (s : State n F) : List F := s.fibers.filterMap id

/-- A fiber is popped in front of one that was enqueued before. -/
def Overtakes (s : State n F) (e : Event n F) : Prop :=
  ∃ w rest fiber other, e = .take w ∧ s.fibers = rest ++ [some fiber] ∧ some other ∈ rest

theorem Overtakes.two {s : State n F} {e : Event n F} (overtakes : Overtakes s e) :
    2 ≤ s.fibers.length := by
  obtain ⟨_, rest, fiber, other, _, queued, inside⟩ := overtakes
  have positive := List.length_pos_of_mem inside
  rw [queued, List.length_append, List.length_singleton]
  omega

/-- Who takes the last of a queue in front of another one leaves the order of the calls. -/
theorem not_prefix_of_overtaken {given queue calls : List F} {fiber other : F}
    (all : (given ++ (queue ++ [fiber])).Perm calls) (order : (queue ++ [fiber]).Sublist calls)
    (inside : other ∈ queue) (distinct : calls.Nodup) : ¬ given ++ [fiber] <+: calls := by
  rintro ⟨tail, rfl⟩
  have same : queue.Perm tail := by
    apply (List.perm_append_left_iff (given ++ [fiber])).mp
    rw [List.append_assoc]
    exact (List.perm_append_comm.append_left given).trans all
  have apart := List.disjoint_of_nodup_append distinct
  obtain ⟨first, second, split, early, late⟩ := List.sublist_append_iff.mp order
  rcases second.eq_nil_or_concat with rfl | ⟨rest, last, rfl⟩
  · rw [List.append_nil] at split
    have before : other ∈ first := split ▸ List.mem_append_left _ inside
    exact apart (early.subset before) (same.subset inside)
  · rw [List.concat_eq_append, ← List.append_assoc] at split
    obtain ⟨_, same_last⟩ := List.append_inj' split rfl
    obtain rfl := List.singleton_inj.mp same_last
    refine apart (List.mem_append_right _ (List.mem_singleton_self fiber)) (late.subset ?_)
    rw [List.concat_eq_append]
    exact List.mem_append_right _ (List.mem_singleton_self fiber)

section Steps

variable {userCaller : Bool} {trace : List (State n F × Event n F)} {s t : State n F}
  {e : Event n F}

theorem scheduled_append (front back : List (State n F × Event n F)) :
    scheduled (front ++ back) = scheduled front ++ scheduled back := by
  rw [scheduled, visible, List.filterMap_append, List.filterMap_append]
  rfl

theorem popped_append (front back : List (State n F × Event n F)) :
    popped (front ++ back) = popped front ++ popped back := by
  rw [popped, visible, List.filterMap_append, List.filterMap_append]
  rfl

theorem swappedIn_append (front back : List (State n F × Event n F)) :
    swappedIn (front ++ back) = swappedIn front ++ swappedIn back := by
  rw [swappedIn, visible, List.filterMap_append, List.filterMap_append]
  rfl

theorem handed_append (front back : List (State n F × Event n F)) :
    handed (front ++ back) = handed front ++ handed back := by
  rw [handed, popped_append, List.map_append]
  rfl

theorem queued_back {rest : List (Option F)} {fiber : F}
    (back : s.fibers = rest ++ [some fiber]) : s.queued = rest.filterMap id ++ [fiber] := by
  rw [State.queued, back, List.filterMap_append]
  rfl

theorem take_hands (w : WorkerId n) {rest : List (Option F)} {fiber : F}
    (back : s.fibers = rest ++ [some fiber]) : scheduled [(s, .take w)] = [] ∧
      popped [(s, .take w)] = [(w, fiber)] ∧ swappedIn [(s, .take w)] = [] := by
  simp [scheduled, popped, swappedIn, visible, poolEvent, take_back s back]

/-- A take that finds no fiber. -/
theorem take_quiet (w : WorkerId n) (nobody : ∀ fiber, s.take.2 ≠ .holding fiber) :
    scheduled [(s, .take w)] = [] ∧ popped [(s, .take w)] = [] ∧
      swappedIn [(s, .take w)] = [] := by
  have unseen : poolEvent s (.take w) = none := by
    -- `nobody` rules out the first branch.
    simp only [poolEvent]
  simp [scheduled, popped, swappedIn, visible, unseen]

theorem swapIn_swaps {w : WorkerId n} {fiber : F} (held : s.worker w = .holding fiber) :
    scheduled [(s, .swapIn w)] = [] ∧ popped [(s, .swapIn w)] = [] ∧
      swappedIn [(s, .swapIn w)] = [(w, fiber)] := by
  simp [scheduled, popped, swappedIn, visible, poolEvent, held]

theorem handed_nothing (none : popped [(s, e)] = []) : handed [(s, e)] = [] :=
  congrArg (List.map Prod.snd) none

variable [DecidableEq F]

/-- A step puts a fiber at the end of the queue, or hands out the one that is there, or leaves
the fibers of the queue as they are. -/
theorem queue_step (step : Step userCaller s e t) :
    (∃ fiber : Option F, t.queued = s.queued ++ fiber.toList ∧
      scheduled [(s, e)] = fiber.toList ∧ handed [(s, e)] = []) ∨
    ∃ w rest fiber, e = .take w ∧ s.fibers = rest ++ [some fiber] ∧
      t.queued = rest.filterMap id ∧ scheduled [(s, e)] = [] ∧ handed [(s, e)] = [fiber] := by
  have pushed : ∀ fiber : Option F, (s.fibers ++ [fiber]).filterMap id =
      s.queued ++ fiber.toList := by
    intro fiber
    rw [List.filterMap_append]
    cases fiber <;> rfl
  cases step with
  | schedule fiber =>
      refine Or.inl ⟨fiber, pushed fiber, ?_, ?_⟩
      · cases fiber <;> rfl
      · cases fiber <;> rfl
  | fiberSchedule scheduled =>
      refine Or.inl ⟨scheduled, pushed scheduled, ?_, ?_⟩
      · cases scheduled <;> rfl
      · cases scheduled <;> rfl
  | @takeFiber w rest fiber free back =>
      obtain ⟨call, got, _⟩ := take_hands w back
      exact Or.inr ⟨w, rest, fiber, rfl, back, rfl, call, congrArg (List.map Prod.snd) got⟩
  | @takeNull w rest free back =>
      obtain ⟨call, got, _⟩ := take_quiet (s := s) w (by simp [take_null s back])
      exact Or.inl ⟨none, by simp [State.queued, back], call, handed_nothing got⟩
  | @takeBlocked w free nothing going =>
      obtain ⟨call, got, _⟩ := take_quiet (s := s) w (by simp [take_blocked s nothing going])
      exact Or.inl ⟨none, (List.append_nil _).symm, call, handed_nothing got⟩
  | @takeNothing w free nothing stops =>
      obtain ⟨call, got, _⟩ := take_quiet (s := s) w (by simp [take_nothing s nothing stops])
      exact Or.inl ⟨none, (List.append_nil _).symm, call, handed_nothing got⟩
  | swapIn held =>
      obtain ⟨call, got, _⟩ := swapIn_swaps held
      exact Or.inl ⟨none, (List.append_nil _).symm, call, handed_nothing got⟩
  | _ => exact Or.inl ⟨none, (List.append_nil _).symm, rfl, rfl⟩

end Steps

section Runs

variable [DecidableEq F] {userCaller : Bool} {trace : List (State n F × Event n F)}
  {s t : State n F} {e : Event n F}

/-- What was scheduled is handed out or waits, each as often, and what waits is in the order of
the calls. -/
theorem handed_queued (run : Run (next userCaller) anyStep init trace s) :
    (handed trace ++ s.queued).Perm (scheduled trace) ∧ s.queued.Sublist (scheduled trace) := by
  apply run.invariant_trace (I := fun trace s =>
    (handed trace ++ s.queued).Perm (scheduled trace) ∧ s.queued.Sublist (scheduled trace))
  · exact ⟨List.Perm.refl _, List.Sublist.refl _⟩
  · rintro trace s e t ⟨all, order⟩ - step
    rw [handed_append, scheduled_append]
    rcases queue_step (step_of_next step) with ⟨fiber, grown, call, none⟩ |
      ⟨w, rest, fiber, rfl, back, shrunk, none, got⟩
    · rw [grown, call, none, List.append_nil, ← List.append_assoc]
      exact ⟨all.append_right _, order.append_right _⟩
    · rw [queued_back back] at all order
      rw [shrunk, none, got, List.append_nil, List.append_assoc]
      refine ⟨(List.perm_append_comm.append_left _).trans all, ?_⟩
      exact (List.sublist_append_left _ _).trans order

/-- While none is overtaken, the fibers are handed out in their turn. -/
theorem handed_in_turn (run : Run (next userCaller) anyStep init trace s)
    (orderly : ∀ step ∈ trace, ¬ Overtakes step.1 step.2) :
    handed trace ++ s.queued = scheduled trace := by
  have kept := run.invariant_trace (I := fun trace s =>
    (∀ step ∈ trace, ¬ Overtakes step.1 step.2) → handed trace ++ s.queued = scheduled trace)
    (fun _ => rfl) ?_
  · exact kept orderly
  · intro trace s e t before _ step orderly
    rw [List.forall_mem_append, List.forall_mem_singleton] at orderly
    have settled := before orderly.1
    rw [handed_append, scheduled_append]
    rcases queue_step (step_of_next step) with ⟨fiber, grown, call, none⟩ |
      ⟨w, rest, fiber, rfl, back, shrunk, none, got⟩
    · rw [grown, call, none, List.append_nil, ← List.append_assoc, settled]
    · -- The fiber at the back is the only one that waits.
      have alone : rest.filterMap id = [] := by
        apply List.filterMap_eq_nil_iff.mpr
        intro entry inside
        by_contra present
        obtain ⟨other, rfl⟩ := Option.ne_none_iff_exists'.mp present
        exact orderly.2 ⟨w, rest, fiber, other, rfl, back, inside⟩
      rw [queued_back back, alone, List.nil_append] at settled
      rw [shrunk, none, got, alone, List.append_nil, List.append_nil, settled]

/-- What is handed out in front of an earlier one is out of order for ever. -/
theorem overtakes_out_of_order {back : List (State n F × Event n F)} {final : State n F}
    (run : Run (next userCaller) anyStep init (trace ++ (s, e) :: back) final)
    (distinct : (scheduled (trace ++ (s, e) :: back)).Nodup) (overtakes : Overtakes s e) :
    ¬ handed (trace ++ (s, e) :: back) <+: scheduled (trace ++ (s, e) :: back) := by
  intro ordered
  rw [List.append_cons] at run distinct ordered
  obtain ⟨middle, front, _⟩ := run.split
  obtain ⟨all, order⟩ := handed_queued front.of_snoc.1
  obtain ⟨w, rest, fiber, other, rfl, queued, inside⟩ := overtakes
  have waits : other ∈ rest.filterMap id := List.mem_filterMap.mpr ⟨_, inside, rfl⟩
  obtain ⟨none, taken, _⟩ := take_hands w queued
  have got : handed [(s, .take w)] = [fiber] := congrArg (List.map Prod.snd) taken
  rw [queued_back queued] at all order
  rw [handed_append, handed_append, got, scheduled_append, scheduled_append, none,
    List.append_nil] at ordered
  rw [scheduled_append, scheduled_append, none, List.append_nil] at distinct
  refine not_prefix_of_overtaken all order waits distinct.of_append_left ?_
  apply List.prefix_of_prefix_length_le ((List.prefix_append _ _).trans ordered)
    (List.prefix_append _ _)
  have count := all.length_eq
  simp only [List.length_append] at count ⊢
  omega

/-- Where every call schedules a fiber of its own, the fibers are handed out in the order of the
calls just if no take pops a fiber while another is queued. -/
theorem handed_prefix_iff (run : Run (next userCaller) anyStep init trace s)
    (distinct : (scheduled trace).Nodup) :
    handed trace <+: scheduled trace ↔ ∀ step ∈ trace, ¬ Overtakes step.1 step.2 := by
  constructor
  · intro ordered step member overtakes
    obtain ⟨front, back, rfl⟩ := List.append_of_mem member
    exact overtakes_out_of_order run distinct overtakes ordered
  · intro orderly
    exact ⟨s.queued, handed_in_turn run orderly⟩

end Runs

section OneWorker

/-- Where there is one thread at most, at most one worker is in `run`. -/
theorem Succession.single {s : State n F} (inv : Succession s) (few : n ≤ 1) {v w : WorkerId n}
    (here : s.worker v ≠ .absent ∧ s.worker v ≠ .left)
    (there : s.worker w ≠ .absent ∧ s.worker w ≠ .left) : v = w := by
  cases v with
  | none => exact (inv.root_of here.1 there.2).symm
  | some i =>
      cases w with
      | none => exact inv.root_of there.1 here.2
      | some j =>
          have first := i.isLt
          have second := j.isLt
          exact congrArg some (Fin.ext (by omega))

/-- The fiber that was taken last waits for its `swapIn`, or every one has been swapped in. -/
def Turns (trace : List (State n F × Event n F)) (s : State n F) : Prop :=
  (∃ w fiber, s.worker w = .holding fiber ∧ popped trace = swappedIn trace ++ [(w, fiber)]) ∨
    (∀ w fiber, s.worker w ≠ .holding fiber) ∧ popped trace = swappedIn trace

variable [DecidableEq F] {userCaller : Bool} {trace : List (State n F × Event n F)}
  {s t : State n F} {e : Event n F}

/-- Only the take of a fiber and its `swapIn` change what a worker holds. -/
theorem holding_step (born : Born s) (step : Step userCaller s e t) :
    (∃ w fiber, (s.worker w = .ready ∨ s.worker w = .woken) ∧
      t.worker = Function.update s.worker w (.holding fiber) ∧
      popped [(s, e)] = [(w, fiber)] ∧ swappedIn [(s, e)] = []) ∨
    (∃ w fiber, s.worker w = .holding fiber ∧
      t.worker = Function.update s.worker w (.running fiber false) ∧
      popped [(s, e)] = [] ∧ swappedIn [(s, e)] = [(w, fiber)]) ∨
    (∀ w fiber, t.worker w = .holding fiber ↔ s.worker w = .holding fiber) ∧
      popped [(s, e)] = [] ∧ swappedIn [(s, e)] = [] := by
  have moved : ∀ {r : State n F} {w : WorkerId n} {pc : WorkerPc F}, r.worker = s.worker →
      (∀ fiber, s.worker w ≠ .holding fiber) → (∀ fiber, pc ≠ .holding fiber) →
      ∀ v fiber, (r.setWorker w pc).worker v = .holding fiber ↔ s.worker v = .holding fiber := by
    intro r w pc same before after v fiber
    rw [setWorker_worker, same]
    split
    · rename_i here
      subst here
      exact ⟨fun held => absurd held (after fiber), fun held => absurd held (before fiber)⟩
    · exact Iff.rfl
  cases step with
  | @takeFiber w rest fiber free back =>
      exact Or.inl ⟨w, fiber, free, rfl, (take_hands w back).2⟩
  | @swapIn w fiber held =>
      exact Or.inr (Or.inl ⟨w, fiber, held, rfl, (swapIn_swaps held).2⟩)
  | @takeBlocked w free nothing going =>
      refine Or.inr (Or.inr ⟨moved rfl ?_ (by simp), (take_quiet w ?_).2⟩)
      · rcases free with place | place <;> simp [place]
      · simp [take_blocked s nothing going]
  | @takeNull w rest free back =>
      refine Or.inr (Or.inr ⟨moved rfl ?_ (by simp), (take_quiet w ?_).2⟩)
      · rcases free with place | place <;> simp [place]
      · simp [take_null s back]
  | @takeNothing w free nothing stops =>
      refine Or.inr (Or.inr ⟨moved rfl ?_ (by simp), (take_quiet w ?_).2⟩)
      · rcases free with place | place <;> simp [place]
      · simp [take_nothing s nothing stops]
  | schedule fiber =>
      refine Or.inr (Or.inr ⟨fun _ _ => Iff.rfl, ?_, ?_⟩) <;>
        cases fiber <;> rfl
  | fiberSchedule scheduled runs =>
      refine Or.inr (Or.inr ⟨moved rfl (by simp [runs]) (by simp), ?_, ?_⟩) <;>
        cases scheduled <;> rfl
  | notifyAll at_owner =>
      refine Or.inr (Or.inr ⟨fun w fiber => ?_, rfl, rfl⟩)
      change s.notifyAll.worker w = .holding fiber ↔ s.worker w = .holding fiber
      by_cases blocked : s.worker w = .waiting
      · simp [notifyAll_waiting s w blocked, blocked]
      · rw [notifyAll_other s w blocked]
  | spawn at_owner inside =>
      exact Or.inr (Or.inr ⟨moved rfl (by simp [born.spawned at_owner inside]) (by simp), rfl, rfl⟩)
  | callRoot at_owner =>
      have absent := born.root (by simp [at_owner]) (by simp [at_owner])
      exact Or.inr (Or.inr ⟨moved rfl (by simp [absent]) (by simp), rfl, rfl⟩)
  | @fiberTickleOne w other own runs blocked =>
      refine Or.inr (Or.inr ⟨fun v fiber => ?_, rfl, rfl⟩)
      have before := @moved s w (.running own false) rfl (by simp [runs]) (by simp) v fiber
      rw [setWorker_worker]
      split
      · rename_i here
        subst here
        simp [blocked]
      · exact before
  | start | startReturns | tickleNone | stop | swapThreads | join | joinsReturn | callReturns =>
      exact Or.inr (Or.inr ⟨fun _ _ => Iff.rfl, rfl, rfl⟩)
  | tickleOne _ place | spurious place | fiberTickleNone place _ | giveBack place
  | leave place _ | again place _ =>
      exact Or.inr (Or.inr ⟨moved rfl (by simp [place]) (by simp), rfl, rfl⟩)

/-- What is swapped in was taken before, in the same order, and at most one fiber is between. -/
theorem turns_of_run (few : n ≤ 1) (run : Run (next userCaller) anyStep init trace s) :
    Succession s ∧ Turns trace s := by
  apply run.invariant_trace (I := fun trace s => Succession s ∧ Turns trace s)
  · exact ⟨init_succession, Or.inr ⟨by simp [init], rfl⟩⟩
  · rintro trace s e t ⟨inv, turns⟩ - step
    have effect := step_of_next step
    refine ⟨succession_step inv effect, ?_⟩
    unfold Turns
    rw [popped_append, swappedIn_append]
    rcases holding_step inv.born effect with ⟨w, fiber, free, after, got, none⟩ |
      ⟨w, fiber, held, after, none, swapped⟩ | ⟨same, none, quiet⟩
    · rcases turns with ⟨v, other, busy, _⟩ | ⟨_, settled⟩
      · have present : s.worker w ≠ .absent ∧ s.worker w ≠ .left := by
          rcases free with place | place <;> simp [place]
        have same : v = w := inv.single few (by simp [busy]) present
        subst same
        rcases free with place | place <;> simp [place] at busy
      · refine Or.inl ⟨w, fiber, ?_, ?_⟩
        · rw [after, Function.update_self]
        · rw [got, none, settled, List.append_nil]
    · rcases turns with ⟨v, other, busy, settled⟩ | ⟨nobody, _⟩
      · have same : v = w := inv.single few (by simp [busy]) (by simp [held])
        subst same
        obtain rfl := WorkerPc.holding.inj (busy.symm.trans held)
        refine Or.inr ⟨fun u own keeps => ?_, ?_⟩
        · rw [after, Function.update_apply] at keeps
          split at keeps
          · cases keeps
          · rename_i apart
            exact apart (inv.single few (by simp [keeps]) (by simp [held]))
        · rw [none, swapped, settled, List.append_nil]
      · exact absurd held (nobody w fiber)
    · rw [none, quiet, List.append_nil, List.append_nil]
      rcases turns with ⟨v, other, busy, settled⟩ | ⟨nobody, settled⟩
      · exact Or.inl ⟨v, other, (same v other).mpr busy, settled⟩
      · exact Or.inr ⟨fun v other held => nobody v other ((same v other).mp held), settled⟩

end OneWorker

/-- The fiber that an event passes to `schedule`. -/
def Event.scheduled : Event n F → Option F
  | .schedule fiber | .fiberSchedule _ fiber => fiber
  | _ => none

/-- The events of a program with every fiber known by the call that schedules it, which is known
by its place in the program. -/
def callers (program : List (Event n F)) : List (Event n (F × Nat)) :=
  program.mapIdx fun call e => e.rename fun fiber => (fiber, call)

section Callers

theorem scheduled_events (trace : List (State n F × Event n F)) :
    scheduled trace = (events trace).filterMap Event.scheduled := by
  rw [scheduled, visible, List.filterMap_filterMap, events, List.filterMap_map]
  apply List.filterMap_congr
  rintro ⟨s, e⟩ -
  cases e with
  | schedule fiber | fiberSchedule _ fiber => cases fiber <;> rfl
  | take w =>
      simp only [poolEvent, Function.comp, Event.scheduled]
      split <;> rfl
  | swapIn w =>
      simp only [poolEvent, Function.comp, Event.scheduled]
      split <;> rfl
  | _ => rfl

theorem rename_scheduled {E : Type} (name : E → F) (e : Event n E) :
    (e.rename name).scheduled = e.scheduled.map name := by
  cases e <;> rfl

theorem callers_snoc (program : List (Event n F)) (e : Event n F) :
    callers (program ++ [e]) =
      callers program ++ [e.rename fun fiber => (fiber, program.length)] :=
  List.mapIdx_concat

theorem callers_name (program : List (Event n F)) :
    (callers program).map (Event.rename Prod.fst) = program := by
  induction program using List.reverseRecOn with
  | nil => rfl
  | append_singleton front last ih =>
      have same : (last.rename fun fiber => (fiber, front.length)).rename Prod.fst = last :=
        (rename_rename _ _ last).trans (rename_id last)
      rw [callers_snoc, List.map_append, ih, List.map_singleton, same]

/-- The calls rise along the program. -/
theorem callers_rising (program : List (Event n F)) :
    ((callers program).filterMap Event.scheduled).Pairwise (·.2 < ·.2) ∧
      ∀ entry ∈ (callers program).filterMap Event.scheduled, entry.2 < program.length := by
  induction program using List.reverseRecOn with
  | nil => exact ⟨List.Pairwise.nil, nofun⟩
  | append_singleton front last ih =>
      have own : ∀ entry ∈ [last.rename fun fiber => (fiber, front.length)].filterMap
          Event.scheduled, entry.2 = front.length := by
        intro entry member
        obtain ⟨e, here, same⟩ := List.mem_filterMap.mp member
        rw [List.mem_singleton.mp here, rename_scheduled] at same
        obtain ⟨_, _, rfl⟩ := Option.map_eq_some_iff.mp same
        rfl
      rw [callers_snoc, List.filterMap_append, List.length_append, List.length_singleton]
      refine ⟨List.pairwise_append.mpr ⟨ih.1, ?_, fun entry member other new => ?_⟩, ?_⟩
      · rw [List.filterMap_cons]
        split
        · exact List.Pairwise.nil
        · exact List.pairwise_singleton _ _
      · rw [own other new]
        exact ih.2 entry member
      · intro entry member
        rcases List.mem_append.mp member with old | new
        · exact Nat.lt_succ_of_lt (ih.2 entry old)
        · rw [own entry new]
          exact Nat.lt_succ_self _

end Callers

/-- The run with every fiber known by the call that schedules it. -/
def numbered [DecidableEq F] (userCaller : Bool) (trace : List (State n F × Event n F)) :
    List (State n (F × Nat) × Event n (F × Nat)) :=
  ((replay (next userCaller) init (callers (events trace))).map Prod.fst).getD []

/-- The fibers are handed out in the order of the calls that enqueued them. -/
def InOrder [DecidableEq F] (userCaller : Bool) (trace : List (State n F × Event n F)) : Prop :=
  handed (numbered userCaller trace) <+: scheduled (numbered userCaller trace)

section Numbered

variable [DecidableEq F] {userCaller : Bool} {trace : List (State n F × Event n F)} {s : State n F}

/-- The numbers change nothing but the names. -/
theorem numbered_run (run : Run (next userCaller) anyStep init trace s) :
    ∃ x saved, Run (next userCaller) anyStep init (numbered userCaller trace) x ∧
      events (numbered userCaller trace) = callers (events trace) ∧
      List.Forall₂ (Names Prod.fst) (numbered userCaller trace) trace ∧
      s = x.rename Prod.fst saved := by
  obtain ⟨own, x, saved, lifted, program, pairs, same⟩ :=
    run_rename run (callers_name (events trace))
  have executed : numbered userCaller trace = own := by
    rw [numbered, ← program, lifted.replays]
    rfl
  rw [executed]
  exact ⟨x, saved, lifted, program, pairs, same⟩

/-- Every call schedules a fiber of its own. -/
theorem numbered_distinct (run : Run (next userCaller) anyStep init trace s) :
    (scheduled (numbered userCaller trace)).Nodup := by
  obtain ⟨_, _, _, program, _⟩ := numbered_run run
  rw [scheduled_events, program]
  exact (callers_rising (events trace)).1.imp fun below same => by
    rw [same] at below
    exact Nat.lt_irrefl _ below

omit [DecidableEq F] in
theorem overtakes_names {E : Type} {name : E → F} {own : State n E × Event n E}
    {step : State n F × Event n F} (names : Names name own step) :
    Overtakes own.1 own.2 ↔ Overtakes step.1 step.2 := by
  obtain ⟨x, e⟩ := own
  obtain ⟨⟨saved, state⟩, event⟩ := names
  rw [state, event]
  constructor
  · rintro ⟨w, rest, fiber, other, rfl, back, inside⟩
    refine ⟨w, rest.map (Option.map name), name fiber, name other, rfl, ?_, ?_⟩
    · rw [rename_fibers, back, List.map_append]
      rfl
    · exact List.mem_map.mpr ⟨some other, inside, rfl⟩
  · rintro ⟨w, rest, fiber, other, take, back, inside⟩
    obtain ⟨front, single, whole, rfl, last⟩ := List.map_eq_append_iff.mp back
    obtain ⟨entry, rfl, here⟩ := List.map_eq_singleton_iff.mp last
    obtain ⟨own, rfl, rfl⟩ := Option.map_eq_some_iff.mp here
    obtain ⟨early, member, there⟩ := List.mem_map.mp inside
    obtain ⟨first, rfl, rfl⟩ := Option.map_eq_some_iff.mp there
    refine ⟨w, front, own, first, ?_, whole, member⟩
    cases e <;> cases take
    rfl

omit [DecidableEq F] in
theorem orderly_names {E : Type} {name : E → F} {own : List (State n E × Event n E)}
    (pairs : List.Forall₂ (Names name) own trace) :
    (∀ step ∈ own, ¬ Overtakes step.1 step.2) ↔ ∀ step ∈ trace, ¬ Overtakes step.1 step.2 := by
  induction pairs with
  | nil => simp only [List.not_mem_nil, false_implies, implies_true]
  | cons names _ ih =>
      rw [List.forall_mem_cons, List.forall_mem_cons, ih, overtakes_names names]

/-- The fibers are handed out in order just if no take pops a fiber while another is queued. With
one thread at most, `swapIn` gets them in the order in which they are handed out. -/
theorem in_order_iff (run : Run (next userCaller) anyStep init trace s) :
    (InOrder userCaller trace ↔ ∀ step ∈ trace, ¬ Overtakes step.1 step.2) ∧
      (n ≤ 1 → ∃ last, popped (numbered userCaller trace) =
        swappedIn (numbered userCaller trace) ++ last ∧ last.length ≤ 1) := by
  obtain ⟨x, saved, lifted, _, pairs, _⟩ := numbered_run run
  refine ⟨?_, fun few => ?_⟩
  · exact (handed_prefix_iff lifted (numbered_distinct run)).trans (orderly_names pairs)
  · rcases (turns_of_run few lifted).2 with ⟨w, fiber, _, settled⟩ | ⟨_, settled⟩
    · exact ⟨[(w, fiber)], settled, Nat.le_refl 1⟩
    · exact ⟨[], by rw [settled, List.append_nil], Nat.zero_le 1⟩

end Numbered

/-- A fiber is scheduled when the one before has been taken. -/
def alternating : List (Event 1 Nat) :=
  [.start, .spawn, .startReturns, .schedule (some 7), .take soleWorker, .swapIn soleWorker,
    .giveBack soleWorker, .schedule (some 8), .take soleWorker]

theorem in_order_alternating : ∃ (trace : List (State 1 Nat × Event 1 Nat)),
    handed (numbered false trace) = [(7, 3), (8, 7)] ∧
      (swappedIn (numbered false trace)).map Prod.snd = [(7, 3)] ∧ InOrder false trace ∧
      ∃ last, popped (numbered false trace) = swappedIn (numbered false trace) ++ last ∧
        last.length ≤ 1 := by
  have run := Run.of_replay (show replay (guarded (next false) anyStep) init alternating =
    some (_, _) from rfl)
  have served (short : ∀ step ∈ _, ¬ 2 ≤ step.1.fibers.length) := (in_order_iff run).1.mpr
    fun step member overtakes => short step member overtakes.two
  exact ⟨_, rfl, rfl, served (by decide), (in_order_iff run).2 (Nat.le_refl 1)⟩

/-- Two fibers are scheduled before the worker takes one. -/
def bothScheduled : List (Event 1 Nat) :=
  [.start, .spawn, .startReturns, .schedule (some 7), .schedule (some 8), .take soleWorker]

/-- The worker runs the fiber that it has and then takes the other one. -/
def bothServed : List (Event 1 Nat) :=
  [.start, .spawn, .startReturns, .schedule (some 7), .schedule (some 8), .take soleWorker,
    .swapIn soleWorker, .giveBack soleWorker, .take soleWorker, .swapIn soleWorker]

/-- The one that was scheduled second is taken first. -/
theorem second_scheduled_first : ∃ (trace : List (State 1 Nat × Event 1 Nat)) (s : State 1 Nat),
    Run (next false) anyStep init trace s ∧ scheduled trace = [7, 8] ∧
      swappedIn trace = [(soleWorker, 8), (soleWorker, 7)] ∧
      scheduled (numbered false trace) = [(7, 3), (8, 4)] ∧
      handed (numbered false trace) = [(8, 4), (7, 3)] ∧ ¬ InOrder false trace := by
  have run := Run.of_replay (show replay (guarded (next false) anyStep) init bothServed =
    some (_, _) from rfl)
  refine ⟨_, _, run, rfl, rfl, rfl, rfl, ?_⟩
  unfold InOrder
  decide

end ZnetServer.Scheduler
