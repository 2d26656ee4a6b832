import ZnetServer.SchedulerOrder

set_option autoImplicit false

/- The discipline in which the queued fibers are handed out: the list is a stack. -/
namespace ZnetServer.Scheduler

open Transition

variable {n : Nat} {F : Type} [DecidableEq F] {userCaller : Bool}
  {trace : List (State n F × Event n F)} {s t : State n F} {e : Event n F}

/-- What waits is what was scheduled and is not handed out. -/
theorem queued_iff (run : Run (next userCaller) anyStep init trace s)
    (distinct : (scheduled trace).Nodup) (fiber : F) :
    fiber ∈ s.queued ↔ fiber ∈ scheduled trace ∧ fiber ∉ handed trace := by
  have all := (handed_queued run).1
  have apart := List.disjoint_of_nodup_append (all.nodup_iff.mpr distinct)
  rw [← all.mem_iff, List.mem_append]
  constructor
  · intro waits
    exact ⟨Or.inr waits, fun gone => apart gone waits⟩
  · rintro ⟨gone | waits, stays⟩
    · exact absurd gone stays
    · exact waits

/-- The numbered run takes a step where the run does. -/
theorem numbered_snoc (run : Run (next userCaller) anyStep init (trace ++ [(s, e)]) t) :
    ∃ x saved, Run (next userCaller) anyStep init (numbered userCaller trace) x ∧
      events (numbered userCaller trace) = callers (events trace) ∧
      s = x.rename Prod.fst saved ∧
      numbered userCaller (trace ++ [(s, e)]) = numbered userCaller trace ++
        [(x, e.rename fun fiber => (fiber, (events trace).length))] := by
  obtain ⟨before, _, step⟩ := run.of_snoc
  obtain ⟨x, saved, lifted, program, _, rfl⟩ := numbered_run before
  have same : (e.rename fun fiber => (fiber, (events trace).length)).rename Prod.fst = e :=
    (rename_rename _ _ e).trans (rename_id e)
  rw [← same] at step
  obtain ⟨y, _, taken, _⟩ := next_rename step
  have executed := replay_snoc lifted.replays taken
  refine ⟨x, saved, lifted, program, rfl, ?_⟩
  rw [numbered, events_snoc, callers_snoc, ← program, executed]
  rfl

/-- No call's fiber is handed out twice, and whoever takes a fiber takes that of the latest call
whose fiber is not handed out yet. -/
theorem hands_latest (run : Run (next userCaller) anyStep init trace s) :
    (handed (numbered userCaller trace)).Nodup ∧
    ∀ front w t back rest fiber, trace = front ++ (t, .take w) :: back →
      t.fibers = rest ++ [some fiber] →
      ∃ call, (fiber, call) ∈ scheduled (numbered userCaller front) ∧
        (fiber, call) ∉ handed (numbered userCaller front) ∧
        handed (numbered userCaller (front ++ [(t, .take w)])) =
          handed (numbered userCaller front) ++ [(fiber, call)] ∧
        ∀ other ∈ scheduled (numbered userCaller front),
          other ∉ handed (numbered userCaller front) → other.2 ≤ call := by
  constructor
  · obtain ⟨x, _, lifted, _⟩ := numbered_run run
    have all := (handed_queued lifted).1
    exact (all.nodup_iff.mpr (numbered_distinct run)).of_append_left
  · rintro front w t back rest fiber rfl queued
    rw [List.append_cons] at run
    obtain ⟨middle, first, _⟩ := run.split
    obtain ⟨x, saved, lifted, program, rfl, grown⟩ := numbered_snoc first
    have distinct := numbered_distinct first.of_snoc.1
    have waits := queued_iff lifted distinct
    obtain ⟨below, single, whole, _, last⟩ := List.map_eq_append_iff.mp queued
    obtain ⟨entry, rfl, here⟩ := List.map_eq_singleton_iff.mp last
    obtain ⟨⟨own, call⟩, rfl, rfl⟩ := Option.map_eq_some_iff.mp here
    have shape := queued_back whole
    rw [shape] at waits
    obtain ⟨known, stays⟩ := (waits (own, call)).mp
      (List.mem_append_right _ (List.mem_singleton_self _))
    refine ⟨call, known, stays, ?_, fun other called kept => ?_⟩
    · rw [grown, handed_append]
      exact congrArg (fun taken => _ ++ List.map Prod.snd taken) (take_hands w whole).2.1
    · -- What waits is in the order of the calls, and the fiber at the back is the last of it.
      have order := (handed_queued lifted).2
      rw [scheduled_events, program, shape] at order
      have rising := (callers_rising (events front)).1.sublist order
      rcases List.mem_append.mp ((waits other).mpr ⟨called, kept⟩) with earlier | same
      · exact Nat.le_of_lt ((List.pairwise_append.mp rising).2.2 other earlier _
          (List.mem_singleton_self _))
      · rw [List.mem_singleton.mp same]

/-- With two fibers queued the one of the second call is taken. -/
theorem hands_latest_second : ∃ (front : List (State 1 Nat × Event 1 Nat)) (t : State 1 Nat),
    t.fibers = [some 7, some 8] ∧
    handed (numbered false (front ++ [(t, .take soleWorker)])) = [(8, 4)] ∧
    ∃ call, (8, call) ∈ scheduled (numbered false front) ∧
      (8, call) ∉ handed (numbered false front) ∧
      handed (numbered false (front ++ [(t, .take soleWorker)])) =
        handed (numbered false front) ++ [(8, call)] ∧
      ∀ other ∈ scheduled (numbered false front),
        other ∉ handed (numbered false front) → other.2 ≤ call := by
  have run := Run.of_replay (show replay (guarded (next false) anyStep) init bothScheduled =
    some ([_, _, _, _, _] ++ [(_, .take soleWorker)], _) from rfl)
  exact ⟨_, _, rfl, rfl, (hands_latest run).2 _ soleWorker _ [] [some 7] 8 rfl rfl⟩

end ZnetServer.Scheduler
