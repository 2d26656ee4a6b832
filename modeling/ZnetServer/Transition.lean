import Mathlib.Data.List.Induction

set_option autoImplicit false

/- Runs of a deterministic labelled step function. A trace keeps the state before
each step together with its event, oldest first, so that a history is a function
of the trace alone and no state carries ghost fields. -/
namespace Transition

universe u v w

variable {σ : Type u} {ε : Type v}

/-- A run whose every step meets `Allowed`. -/
inductive Run (next : σ → ε → Option σ) (Allowed : σ → ε → Prop) (start : σ) :
    List (σ × ε) → σ → Prop
  | nil : Run next Allowed start [] start
  | snoc {trace : List (σ × ε)} {state after : σ} {event : ε}
      (before : Run next Allowed start trace state) (allowed : Allowed state event)
      (step : next state event = some after) :
      Run next Allowed start (trace ++ [(state, event)]) after

/-- No restriction on the steps. -/
def anyStep (_ : σ) (_ : ε) : Prop := True

instance (s : σ) (e : ε) : Decidable (anyStep s e) := inferInstanceAs (Decidable True)

/-- The states met by the unrestricted runs. -/
def Reachable (next : σ → ε → Option σ) (start state : σ) : Prop :=
  ∃ trace, Run next anyStep start trace state

section Rules

variable {next : σ → ε → Option σ} {Allowed : σ → ε → Prop} {start : σ}

theorem Run.mono {Looser : σ → ε → Prop} {trace : List (σ × ε)} {state : σ}
    (run : Run next Allowed start trace state)
    (looser : ∀ s e, Allowed s e → Looser s e) : Run next Looser start trace state := by
  induction run with
  | nil => exact .nil
  | snoc _ allowed step ih => exact .snoc ih (looser _ _ allowed) step

theorem Run.allowed {trace : List (σ × ε)} {state : σ}
    (run : Run next Allowed start trace state) : ∀ step ∈ trace, Allowed step.1 step.2 := by
  induction run with
  | nil => exact nofun
  | snoc _ allowed _ ih =>
    rw [List.forall_mem_append, List.forall_mem_singleton]
    exact ⟨ih, allowed⟩

/-- A run all of whose steps meet a further condition. -/
theorem Run.restrict {Stricter : σ → ε → Prop} {trace : List (σ × ε)} {state : σ}
    (run : Run next Allowed start trace state) (met : ∀ step ∈ trace, Stricter step.1 step.2) :
    Run next Stricter start trace state := by
  induction run with
  | nil => exact .nil
  | snoc _ _ step ih =>
    rw [List.forall_mem_append, List.forall_mem_singleton] at met
    exact .snoc (ih met.1) met.2 step

theorem Run.reachable {trace : List (σ × ε)} {state : σ}
    (run : Run next Allowed start trace state) : Reachable next start state :=
  ⟨trace, run.mono (fun _ _ _ => trivial)⟩

/-- What holds at the start and is kept by every allowed step holds at the end of
each run, about the trace and the state together. -/
theorem Run.invariant_trace {I : List (σ × ε) → σ → Prop} (initial : I [] start)
    (kept : ∀ trace s e t, I trace s → Allowed s e → next s e = some t →
      I (trace ++ [(s, e)]) t)
    {trace : List (σ × ε)} {state : σ} (run : Run next Allowed start trace state) :
    I trace state := by
  induction run with
  | nil => exact initial
  | snoc _ allowed step ih => exact kept _ _ _ _ ih allowed step

theorem Run.invariant {I : σ → Prop} (initial : I start)
    (kept : ∀ s e t, I s → Allowed s e → next s e = some t → I t)
    {trace : List (σ × ε)} {state : σ} (run : Run next Allowed start trace state) :
    I state :=
  run.invariant_trace (I := fun _ s => I s) initial
    (fun _ s e t inv allowed step => kept s e t inv allowed step)

/-- When a harmless step keeps the invariant and a harmful one ends in a state that is
not safe, the runs through safe states are those without harmful steps. -/
theorem Run.safe_iff {I Safe : σ → Prop} {Harm : σ → ε → Prop} (initial : I start)
    (safe : ∀ s, I s → Safe s)
    (kept : ∀ s e t, I s → Allowed s e → next s e = some t → ¬ Harm s e → I t)
    (broken : ∀ s e t, I s → Allowed s e → next s e = some t → Harm s e → ¬ Safe t)
    {trace : List (σ × ε)} {state : σ} (run : Run next Allowed start trace state) :
    ((∀ step ∈ trace, Safe step.1) ∧ Safe state) ↔ ∀ step ∈ trace, ¬ Harm step.1 step.2 := by
  constructor
  · rintro ⟨visited, last⟩
    have both := run.invariant_trace (I := fun trace s =>
        (∀ step ∈ trace, Safe step.1) → Safe s → I s ∧ ∀ step ∈ trace, ¬ Harm step.1 step.2)
      (fun _ _ => ⟨initial, fun step member => (by cases member)⟩) ?_
    · exact (both visited last).2
    · intro trace s e t before allowed step earlier now
      rw [List.forall_mem_append, List.forall_mem_singleton] at earlier
      obtain ⟨inv, harmless⟩ := before earlier.1 earlier.2
      have own : ¬ Harm s e := fun harm => broken s e t inv allowed step harm now
      rw [List.forall_mem_append, List.forall_mem_singleton]
      exact ⟨kept s e t inv allowed step own, harmless, own⟩
  · intro harmless
    have both := run.invariant_trace (I := fun trace s =>
        (∀ step ∈ trace, ¬ Harm step.1 step.2) → (∀ step ∈ trace, Safe step.1) ∧ I s)
      (fun _ => ⟨fun step member => (by cases member), initial⟩) ?_
    · exact ⟨(both harmless).1, safe state (both harmless).2⟩
    · intro trace s e t before allowed step harmless
      rw [List.forall_mem_append, List.forall_mem_singleton] at harmless
      obtain ⟨visited, inv⟩ := before harmless.1
      rw [List.forall_mem_append, List.forall_mem_singleton]
      exact ⟨⟨visited, safe s inv⟩, kept s e t inv allowed step harmless.2⟩

/-- The last step of a run and the run before it. -/
theorem Run.of_snoc {trace : List (σ × ε)} {s t : σ} {e : ε}
    (run : Run next Allowed start (trace ++ [(s, e)]) t) :
    Run next Allowed start trace s ∧ Allowed s e ∧ next s e = some t := by
  generalize whole : trace ++ [(s, e)] = full at run
  cases run with
  | nil => simp at whole
  | snoc before allowed step =>
      obtain ⟨rfl, same⟩ := List.append_inj' whole rfl
      obtain ⟨rfl, rfl⟩ := Prod.mk.inj (List.singleton_inj.mp same)
      exact ⟨before, allowed, step⟩

theorem Run.trans {front back : List (σ × ε)} {middle final : σ}
    (first : Run next Allowed start front middle) (second : Run next Allowed middle back final) :
    Run next Allowed start (front ++ back) final := by
  induction second with
  | nil =>
      rw [List.append_nil]
      exact first
  | snoc _ allowed step ih =>
      rw [← List.append_assoc]
      exact ih.snoc allowed step

/-- A prefix of a trace is the trace of a run of its own. -/
theorem Run.split {front back : List (σ × ε)} {state : σ}
    (run : Run next Allowed start (front ++ back) state) :
    ∃ middle, Run next Allowed start front middle ∧ Run next Allowed middle back state := by
  induction back using List.reverseRecOn generalizing state with
  | nil =>
      rw [List.append_nil] at run
      exact ⟨state, run, .nil⟩
  | append_singleton back last ih =>
      rw [← List.append_assoc] at run
      obtain ⟨before, allowed, step⟩ := run.of_snoc
      obtain ⟨middle, first, second⟩ := ih before
      exact ⟨middle, first, second.snoc allowed step⟩

end Rules

section Replay

/-- Executing a list of events. -/
def replay (next : σ → ε → Option σ) : σ → List ε → Option (List (σ × ε) × σ)
  | start, [] => some ([], start)
  | start, event :: rest =>
      (next start event).bind fun middle =>
        (replay next middle rest).map fun final => ((start, event) :: final.1, final.2)

variable {next : σ → ε → Option σ} {Allowed : σ → ε → Prop}

theorem Run.cons {start middle final : σ} {event : ε} {trace : List (σ × ε)}
    (allowed : Allowed start event) (step : next start event = some middle)
    (rest : Run next Allowed middle trace final) :
    Run next Allowed start ((start, event) :: trace) final := by
  induction rest with
  | nil => exact Run.nil.snoc allowed step
  | snoc _ permitted later ih => exact ih.snoc permitted later

/-- The step function that refuses what is not allowed. -/
def guarded (next : σ → ε → Option σ) (Allowed : σ → ε → Prop)
    [∀ s e, Decidable (Allowed s e)] (s : σ) (e : ε) : Option σ :=
  if Allowed s e then next s e else none

theorem Run.of_replay [∀ s e, Decidable (Allowed s e)] {start final : σ} {events : List ε}
    {trace : List (σ × ε)}
    (executed : replay (guarded next Allowed) start events = some (trace, final)) :
    Run next Allowed start trace final := by
  induction events generalizing start trace with
  | nil =>
      simp only [replay, Option.some.injEq, Prod.mk.injEq] at executed
      obtain ⟨rfl, rfl⟩ := executed
      exact .nil
  | cons event rest ih =>
      simp only [replay, Option.bind_eq_some_iff, Option.map_eq_some_iff,
        Prod.mk.injEq, Prod.exists] at executed
      obtain ⟨middle, step, tail, last, later, rfl, rfl⟩ := executed
      unfold guarded at step
      split at step
      · rename_i allowed
        exact .cons allowed step (ih later)
      · cases step

theorem Reachable.of_replay {start final : σ} {events : List ε} {trace : List (σ × ε)}
    (executed : replay next start events = some (trace, final)) :
    Reachable next start final := by
  induction events generalizing start trace with
  | nil =>
      simp only [replay, Option.some.injEq, Prod.mk.injEq] at executed
      obtain ⟨rfl, rfl⟩ := executed
      exact ⟨[], .nil⟩
  | cons event rest ih =>
      simp only [replay, Option.bind_eq_some_iff, Option.map_eq_some_iff,
        Prod.mk.injEq, Prod.exists] at executed
      obtain ⟨middle, step, tail, last, later, rfl, rfl⟩ := executed
      obtain ⟨trace, run⟩ := ih later
      exact ⟨_, .cons trivial step run⟩

end Replay

section Simulation

variable {τ : Type u} {δ : Type w} {next : σ → ε → Option σ} {Allowed : σ → ε → Prop}
  {spec : τ → δ → Option τ}

/-- The abstract events of a concrete trace; a step may be invisible. -/
def visible (event : σ → ε → Option δ) (trace : List (σ × ε)) : List δ :=
  trace.filterMap (fun step => event step.1 step.2)

@[simp] theorem visible_nil (event : σ → ε → Option δ) : visible event [] = [] := rfl

theorem visible_snoc (event : σ → ε → Option δ) (trace : List (σ × ε)) (s : σ) (e : ε) :
    visible event (trace ++ [(s, e)]) = visible event trace ++ (event s e).toList := by
  cases seen : event s e <;> simp [visible, seen]

/-- The events of a trace alone. -/
def events (trace : List (σ × ε)) : List ε := trace.map Prod.snd

@[simp] theorem events_snoc (trace : List (σ × ε)) (s : σ) (e : ε) :
    events (trace ++ [(s, e)]) = events trace ++ [e] := by
  simp [events]

theorem filterMap_events_snoc (seen : ε → Option δ) (trace : List (σ × ε)) (s : σ) (e : ε) :
    (events (trace ++ [(s, e)])).filterMap seen =
      (events trace).filterMap seen ++ (seen e).toList := by
  cases kind : seen e <;> simp [kind]

theorem replay_snoc {start state after : σ} {program : List ε} {trace : List (σ × ε)} {event : ε}
    (executed : replay next start program = some (trace, state))
    (step : next state event = some after) :
    replay next start (program ++ [event]) = some (trace ++ [(state, event)], after) := by
  induction program generalizing start trace with
  | nil =>
      simp only [replay, Option.some.injEq, Prod.mk.injEq] at executed
      obtain ⟨rfl, rfl⟩ := executed
      rw [List.nil_append, replay, step]
      rfl
  | cons first rest ih =>
      simp only [replay, Option.bind_eq_some_iff, Option.map_eq_some_iff,
        Prod.mk.injEq, Prod.exists] at executed
      obtain ⟨middle, begun, tail, last, later, rfl, rfl⟩ := executed
      rw [List.cons_append, replay, begun, Option.bind_some, ih later]
      rfl

/-- The events of a run, executed, give the run. -/
theorem Run.replays {start state : σ} {trace : List (σ × ε)}
    (run : Run next Allowed start trace state) :
    replay next start (events trace) = some (trace, state) := by
  induction run with
  | nil => rfl
  | snoc _ _ step ih =>
      rw [events_snoc]
      exact replay_snoc ih step
/-- The abstract side of one concrete step: an invisible step keeps the abstract
state, a visible one is a step of the specification. -/
def Follows (spec : τ → δ → Option τ) (before : τ) : Option δ → τ → Prop
  | none, after => after = before
  | some d, after => spec before d = some after

/-- A step-by-step refinement carries every concrete run to a run of the
specification with the same visible events. -/
theorem Run.simulate {event : σ → ε → Option δ} (abstract : σ → τ) {I : σ → Prop}
    {start : σ} (initial : I start)
    (kept : ∀ s e t, I s → Allowed s e → next s e = some t → I t)
    (follows : ∀ s e t, I s → Allowed s e → next s e = some t →
      Follows spec (abstract s) (event s e) (abstract t))
    {trace : List (σ × ε)} {state : σ} (run : Run next Allowed start trace state) :
    ∃ image, Run spec anyStep (abstract start) image (abstract state) ∧
      events image = visible event trace := by
  suffices both : I state ∧ ∃ image, Run spec anyStep (abstract start) image
      (abstract state) ∧ events image = visible event trace from both.2
  refine run.invariant_trace
    (I := fun trace s => I s ∧ ∃ image, Run spec anyStep (abstract start) image
      (abstract s) ∧ events image = visible event trace)
    ⟨initial, [], .nil, rfl⟩ ?_
  rintro trace s e t ⟨inv, image, simulated, same⟩ allowed step
  refine ⟨kept s e t inv allowed step, ?_⟩
  have related := follows s e t inv allowed step
  cases seen : event s e with
  | none =>
      rw [seen] at related
      rw [show abstract t = abstract s from related]
      exact ⟨image, simulated, by simp [visible_snoc, seen, same]⟩
  | some d =>
      rw [seen] at related
      exact ⟨_, simulated.snoc trivial related, by simp [visible_snoc, seen, same]⟩

/-- A refinement in which a concrete step may take several steps of the specification. -/
theorem Run.refine {Fine : τ → δ → Prop} (abstract : σ → τ) {I : List (σ × ε) → σ → Prop}
    {start : σ} (initial : I [] start)
    (kept : ∀ trace s e t, I trace s → Allowed s e → next s e = some t → I (trace ++ [(s, e)]) t)
    (steps : ∀ trace s e t, I trace s → Allowed s e → next s e = some t →
      (∃ image, Run spec Fine (abstract start) image (abstract s)) →
      ∃ segment, Run spec Fine (abstract s) segment (abstract t))
    {trace : List (σ × ε)} {state : σ} (run : Run next Allowed start trace state) :
    ∃ image, Run spec Fine (abstract start) image (abstract state) := by
  suffices both : I trace state ∧ ∃ image, Run spec Fine (abstract start) image (abstract state)
    from both.2
  refine run.invariant_trace (I := fun trace s => I trace s ∧
    ∃ image, Run spec Fine (abstract start) image (abstract s)) ⟨initial, [], .nil⟩ ?_
  rintro trace s e t ⟨inv, reached⟩ allowed step
  obtain ⟨image, run⟩ := reached
  obtain ⟨segment, further⟩ := steps trace s e t inv allowed step ⟨image, run⟩
  exact ⟨kept trace s e t inv allowed step, image ++ segment, run.trans further⟩

end Simulation

end Transition
