import ZnetServer.Config
import ZnetServer.Transition

set_option autoImplicit false

/- `setValue` and `fromString` of a variable whose listeners may set it again and may throw.
The loops over `m_cbs` that have not ended are part of the state; a step is one call, one
return or one exception. -/
namespace ZnetServer.Reentry

open Transition

/-- What a callback does: it ends in a world, or sets its variable and goes on with the value
it finds then and the exception that left the inner call. -/
inductive Body (C : ConfigType) (W : Type)
  | returns (w : W)
  | throws (what : String) (w : W)
  | sets (value : C.T) (w : W) (next : C.T → W → Option String → Body C W)

/-- A callback of `newValue`, `oldValue` and what `getValue()` gives at its start. -/
abbrev Callback (C : ConfigType) (W : Type) := C.T → C.T → C.T → W → Body C W

/-- A loop over `m_cbs` with the callbacks that are left. -/
structure Loop (C : ConfigType) (W : Type) where
  newValue : C.T
  oldValue : C.T
  left : List (Int × Callback C W)

/-- A callback waiting for its call of `setValue`, and the loop that called it. -/
structure Caller (C : ConfigType) (W : Type) where
  loop : Loop C W
  next : C.T → W → Option String → Body C W

inductive Control (C : ConfigType) (W : Type)
  | looping (loop : Loop C W)
  | running (loop : Loop C W) (body : Body C W)
  /-- `setValue` ends, with the exception that leaves it. -/
  | leaving (thrown : Option String)

structure Notifier (C : ConfigType) (W : Type) where
  cbs : Std.ExtTreeMap Int (Callback C W)
  value : C.T
  world : W
  control : Control C W
  /-- Innermost first. -/
  callers : List (Caller C W)
  /-- Who was called with which `newValue`, oldest first. -/
  told : List (Int × C.T)

variable {C : ConfigType} {W : Type}

namespace Notifier

/-- Nobody has called `setValue`. -/
def idle (cbs : Std.ExtTreeMap Int (Callback C W)) (value : C.T) (w : W) : Notifier C W where
  cbs := cbs
  value := value
  world := w
  control := .leaving none
  callers := []
  told := []

/-- `setValue` up to its loop. -/
def setValue (s : Notifier C W) (value : C.T) : Notifier C W :=
  if C.eq s.value value then { s with control := .leaving none }
  else { s with value, control := .looping ⟨value, s.value, s.cbs.toList⟩ }

/-- `fromString` up to the loop of `setValue`. Its `catch` changes no value. -/
def fromString (s : Notifier C W) (text : String) : Notifier C W :=
  match C.fromStr text with
  | .error what => { s with control := .leaving (some what) }
  | .ok value => s.setValue value

def next (s : Notifier C W) (_ : Unit) : Option (Notifier C W) :=
  match s.control with
  | .looping loop => match loop.left with
    | [] => some { s with control := .leaving none }
    | (id, cb) :: rest => some { s with
        control := .running { loop with left := rest }
          (cb loop.newValue loop.oldValue s.value s.world)
        told := s.told ++ [(id, loop.newValue)] }
  | .running loop (.returns w) => some { s with world := w, control := .looping loop }
  | .running _ (.throws what w) =>
    some { s with world := w, control := .leaving (some what) }
  | .running loop (.sets value w next) =>
    some (setValue { s with world := w, callers := ⟨loop, next⟩ :: s.callers } value)
  | .leaving thrown => match s.callers with
    | [] => none
    | caller :: rest => some { s with
        control := .running caller.loop (caller.next s.value s.world thrown)
        callers := rest }

/-- The outermost call has ended without an exception. -/
def returned (s : Notifier C W) : Bool :=
  match s.control, s.callers with
  | .leaving none, [] => true
  | _, _ => false

/-- The loops that are under way, outermost first. -/
def loops (s : Notifier C W) : List (Loop C W) :=
  (s.callers.map Caller.loop).reverse ++ match s.control with
    | .looping loop | .running loop _ => [loop]
    | .leaving _ => []

/-- The effective call of `setValue` by a listener, or the exception that ends a loop early. -/
def Disturbs (s : Notifier C W) : Prop :=
  match s.control with
  | .running _ (.sets value _ _) => C.eq s.value value = false
  | .running loop (.throws _ _) => loop.left ≠ []
  | .running _ (.returns _) | .looping _ | .leaving _ => False

end Notifier

/-- The loop has still to call the listener. -/
def Loop.awaits (loop : Loop C W) (id : Int) : Bool := loop.left.any (·.1 = id)

/-- What a listener was told last. -/
def toldLast (told : List (Int × C.T)) (id : Int) : Option C.T :=
  ((told.filter (·.1 = id)).getLast?).map Prod.snd

/-- What a listener will have been told last when the loops have ended: the outermost loop that
still has to call it comes last. -/
def owed (loops : List (Loop C W)) (told : List (Int × C.T)) (id : Int) : Option C.T :=
  ((loops.find? (·.awaits id)).map Loop.newValue).or (toldLast told id)

namespace Notifier

/-- Every listener is owed the value that the variable has. -/
def Settled (s : Notifier C W) : Prop :=
  ∀ id value, owed s.loops s.told id = some value → value = s.value

/-- What a disturbing step has to find. A new value must be that of each loop that is, for some
listener, the outermost one still to call it; when a loop is cut short, the loops around it and
the calls so far must have given every listener the value that the variable has. -/
def Settles (s : Notifier C W) : Prop :=
  match s.control with
  | .running _ (.sets value _ _) =>
      ∀ id loop, s.loops.find? (·.awaits id) = some loop → loop.newValue = value
  | .running _ (.throws _ _) =>
      ∀ id value, owed (s.callers.map Caller.loop).reverse s.told id = some value →
        value = s.value
  | .running _ (.returns _) | .looping _ | .leaving _ => True

end Notifier

section Owed

variable {loops : List (Loop C W)} {told : List (Int × C.T)} {loop : Loop C W}

theorem toldLast_snoc (told : List (Int × C.T)) (other id : Int) (value : C.T) :
    toldLast (told ++ [(other, value)]) id =
      if other = id then some value else toldLast told id := by
  unfold toldLast
  rw [List.filter_append]
  by_cases same : other = id
  · rw [if_pos same, List.filter_cons_of_pos (by simpa using same), List.filter_nil,
      List.getLast?_concat, Option.map_some]
  · rw [if_neg same, List.filter_cons_of_neg (by simpa using same), List.filter_nil,
      List.append_nil]

theorem toldLast_mem {id : Int} {value : C.T} (last : toldLast told id = some value) :
    ∃ notice ∈ told, notice.1 = id := by
  obtain ⟨notice, found, _⟩ := Option.map_eq_some_iff.mp last
  have inside := List.mem_filter.mp (List.mem_of_getLast? found)
  exact ⟨notice, inside.1, of_decide_eq_true inside.2⟩

/-- A loop with nobody left owes nothing. -/
theorem owed_ended (ended : loop.left = []) (id : Int) :
    owed (loops ++ [loop]) told id = owed loops told id := by
  have idle : loop.awaits id = false := by
    rw [Loop.awaits, ended, List.any_nil]
  unfold owed
  rw [List.find?_append, List.find?_singleton, idle]
  simp

/-- A call pays what the innermost loop owed. -/
theorem owed_call {other : Int} {cb : Callback C W} {rest : List (Int × Callback C W)}
    (next : loop.left = (other, cb) :: rest) (id : Int) :
    owed (loops ++ [{ loop with left := rest }]) (told ++ [(other, loop.newValue)]) id =
      owed (loops ++ [loop]) told id := by
  have before : loop.awaits id = (decide (other = id) || rest.any (·.1 = id)) := by
    rw [Loop.awaits, next, List.any_cons]
  have after : Loop.awaits { loop with left := rest } id = rest.any (·.1 = id) := rfl
  unfold owed
  rw [List.find?_append, List.find?_append, List.find?_singleton, List.find?_singleton, before,
    after, toldLast_snoc]
  cases loops.find? (·.awaits id) with
  | some outer => simp
  | none =>
      by_cases same : other = id
      · cases rest.any (·.1 = id) <;> simp [same]
      · rw [decide_eq_false same, Bool.false_or, if_neg same]
        simp

end Owed

namespace Notifier

section Steps

variable {s t : Notifier C W}

/-- Every listener that was or will be called is registered. -/
structure Registered (s : Notifier C W) : Prop where
  left : ∀ loop ∈ s.loops, loop.left ⊆ s.cbs.toList
  told : ∀ notice ∈ s.told, ∃ cb, (notice.1, cb) ∈ s.cbs.toList

@[simp] theorem setValue_cbs (s : Notifier C W) (value : C.T) :
    (s.setValue value).cbs = s.cbs := by
  unfold setValue
  split <;> rfl

@[simp] theorem setValue_told (s : Notifier C W) (value : C.T) :
    (s.setValue value).told = s.told := by
  unfold setValue
  split <;> rfl

/-- `setValue` adds at most a loop over all callbacks. -/
theorem setValue_loops (s : Notifier C W) (value : C.T) :
    ∀ loop ∈ (s.setValue value).loops,
      loop ∈ s.callers.map Caller.loop ∨ loop.left = s.cbs.toList := by
  intro loop member
  unfold setValue at member
  split at member
  · simp only [loops, List.append_nil, List.mem_reverse] at member
    exact Or.inl member
  · simp only [loops, List.mem_append, List.mem_reverse, List.mem_singleton] at member
    rcases member with outer | own
    · exact Or.inl outer
    · exact Or.inr (own ▸ rfl)

theorem mem_loops {loop : Loop C W} : loop ∈ s.loops ↔ loop ∈ s.callers.map Caller.loop ∨
    loop ∈ (match s.control with
      | .looping loop | .running loop _ => [loop]
      | .leaving _ => []) := by
  rw [loops, List.mem_append, List.mem_reverse]

/-- A state with no new callbacks and no new notices. -/
theorem Registered.of_within (registered : s.Registered) (cbs : t.cbs = s.cbs)
    (loops : ∀ loop ∈ t.loops, (∃ outer ∈ s.loops, loop.left ⊆ outer.left) ∨
      loop.left = s.cbs.toList)
    (told : ∀ notice ∈ t.told, notice ∈ s.told ∨ ∃ loop ∈ s.loops, ∃ cb,
      (notice.1, cb) ∈ loop.left) : t.Registered := by
  constructor
  · intro loop member
    rw [cbs]
    rcases loops loop member with ⟨outer, inside, within⟩ | all
    · exact List.Subset.trans within (registered.left outer inside)
    · exact all ▸ List.Subset.refl _
  · intro notice member
    rw [cbs]
    rcases told notice member with old | ⟨loop, inside, cb, left⟩
    · exact registered.told notice old
    · exact ⟨cb, registered.left loop inside left⟩

/-- Everything that a step can be. -/
inductive Step (s : Notifier C W) : Notifier C W → Prop
  | ends {loop : Loop C W} (control : s.control = .looping loop) (left : loop.left = []) :
      Step s { s with control := .leaving none }
  | calls {loop : Loop C W} {first : Int × Callback C W} {rest : List (Int × Callback C W)}
      (control : s.control = .looping loop) (left : loop.left = first :: rest) :
      Step s { s with
        control := .running { loop with left := rest }
          (first.2 loop.newValue loop.oldValue s.value s.world)
        told := s.told ++ [(first.1, loop.newValue)] }
  | returns {loop : Loop C W} {w : W} (control : s.control = .running loop (.returns w)) :
      Step s { s with world := w, control := .looping loop }
  | throws {loop : Loop C W} {what : String} {w : W}
      (control : s.control = .running loop (.throws what w)) :
      Step s { s with world := w, control := .leaving (some what) }
  | sets {loop : Loop C W} {value : C.T} {w : W} {after : C.T → W → Option String → Body C W}
      (control : s.control = .running loop (.sets value w after)) :
      Step s (setValue { s with world := w, callers := ⟨loop, after⟩ :: s.callers } value)
  | resumes {thrown : Option String} {caller : Caller C W} {rest : List (Caller C W)}
      (control : s.control = .leaving thrown) (callers : s.callers = caller :: rest) :
      Step s { s with
        control := .running caller.loop (caller.next s.value s.world thrown)
        callers := rest }

theorem step_cases (step : s.next () = some t) : Step s t := by
  cases control : s.control with
  | looping loop =>
      cases left : loop.left with
      | nil =>
          simp only [next, control, left, Option.some.injEq] at step
          exact step ▸ .ends control left
      | cons first rest =>
          simp only [next, control, left, Option.some.injEq] at step
          exact step ▸ .calls control left
  | running loop body =>
      cases body <;> simp only [next, control, Option.some.injEq] at step
      · exact step ▸ .returns control
      · exact step ▸ .throws control
      · exact step ▸ .sets control
  | leaving thrown =>
      cases callers : s.callers with
      | nil => simp [next, control, callers] at step
      | cons caller rest =>
          simp only [next, control, callers, Option.some.injEq] at step
          exact step ▸ .resumes control callers

theorem Registered.step (registered : s.Registered) (step : s.next () = some t) :
    t.Registered := by
  have caller : ∀ loop ∈ s.callers.map Caller.loop, ∃ outer ∈ s.loops,
      loop.left ⊆ outer.left :=
    fun loop member => ⟨loop, mem_loops.mpr (Or.inl member), List.Subset.refl _⟩
  cases step_cases step with
  | ends control left =>
      refine registered.of_within rfl (fun other member => Or.inl ?_) fun _ old => Or.inl old
      exact caller other (by simpa [mem_loops] using member)
  | @calls loop first rest control left =>
      have own : loop ∈ s.loops := mem_loops.mpr (Or.inr (by simp [control]))
      refine registered.of_within rfl (fun other member => Or.inl ?_) fun notice member => ?_
      · rcases mem_loops.mp member with outer | inner
        · exact caller other outer
        · obtain rfl := List.mem_singleton.mp inner
          exact ⟨loop, own, left ▸ List.subset_cons_self first rest⟩
      · rcases List.mem_append.mp member with old | last
        · exact Or.inl old
        · obtain rfl := List.mem_singleton.mp last
          exact Or.inr ⟨loop, own, first.2, left ▸ List.mem_cons_self⟩
  | @returns loop w control =>
      refine registered.of_within rfl (fun other member => Or.inl ?_) fun _ old => Or.inl old
      rcases mem_loops.mp member with outer | inner
      · exact caller other outer
      · obtain rfl := List.mem_singleton.mp inner
        exact ⟨other, mem_loops.mpr (Or.inr (by simp [control])), List.Subset.refl _⟩
  | throws control =>
      refine registered.of_within rfl (fun other member => Or.inl ?_) fun _ old => Or.inl old
      exact caller other (by simpa [mem_loops] using member)
  | @sets loop value w after control =>
      refine registered.of_within (by simp) (fun other member => ?_) fun _ old => ?_
      · rcases setValue_loops _ value other member with outer | all
        · left
          rw [List.map_cons] at outer
          rcases List.mem_cons.mp outer with inner | outer
          · rw [inner]
            exact ⟨loop, mem_loops.mpr (Or.inr (by simp [control])), List.Subset.refl _⟩
          · exact caller other outer
        · exact Or.inr all
      · exact Or.inl (by simpa using old)
  | resumes control callers =>
      refine registered.of_within rfl (fun other member => Or.inl ?_) fun _ old => Or.inl old
      apply caller
      rw [callers, List.map_cons, List.mem_cons]
      rcases mem_loops.mp member with outer | inner
      · exact Or.inr outer
      · exact Or.inl (List.mem_singleton.mp inner)

/-- A step that does not disturb leaves the value and all that is owed. -/
theorem calm_step (step : s.next () = some t) (calm : ¬ s.Disturbs) :
    t.value = s.value ∧ ∀ id, owed t.loops t.told id = owed s.loops s.told id := by
  cases step_cases step with
  | ends control left =>
      refine ⟨rfl, fun id => ?_⟩
      simp only [loops, control, List.append_nil]
      exact (owed_ended left id).symm
  | calls control left =>
      refine ⟨rfl, fun id => ?_⟩
      simp only [loops, control]
      exact owed_call left id
  | returns control =>
      refine ⟨rfl, fun id => ?_⟩
      simp only [loops, control]
  | @throws loop what w control =>
      have ended : loop.left = [] := by
        simpa [Disturbs, control] using calm
      refine ⟨rfl, fun id => ?_⟩
      simp only [loops, control, List.append_nil]
      exact (owed_ended ended id).symm
  | @sets loop value w after control =>
      have same : C.eq s.value value = true := by
        simpa [Disturbs, control] using calm
      simp only [setValue, same, ↓reduceIte, true_and]
      intro id
      simp only [loops, control, List.map_cons, List.reverse_cons, List.append_nil]
  | resumes control callers =>
      refine ⟨rfl, fun id => ?_⟩
      simp only [loops, control, callers, List.map_cons, List.reverse_cons, List.append_nil]

/-- What a disturbing step leaves. -/
theorem disturbed_step (registered : s.Registered) (step : s.next () = some t)
    (disturbs : s.Disturbs) : t.Settled ↔ s.Settles := by
  cases control : s.control with
  | looping loop => simp [Disturbs, control] at disturbs
  | leaving thrown => simp [Disturbs, control] at disturbs
  | running loop body =>
      cases body with
      | returns w => simp [Disturbs, control] at disturbs
      | throws what w =>
          simp only [next, control, Option.some.injEq] at step
          subst step
          simp only [Settled, Settles, loops, control, List.append_nil]
      | sets value w after =>
          have differs : C.eq s.value value = false := by
            simpa [Disturbs, control] using disturbs
          have around : s.loops = (s.callers.map Caller.loop).reverse ++ [loop] := by
            rw [loops, control]
          simp only [next, control, setValue, differs, Bool.false_eq_true, ↓reduceIte,
            Option.some.injEq] at step
          subst step
          simp only [Settled, Settles, control, around]
          simp only [loops, List.map_cons, List.reverse_cons]
          constructor
          · intro settled id outer found
            apply settled id
            unfold owed
            rw [List.find?_append, found, Option.some_or]
            rfl
          · intro settles id last owes
            unfold owed at owes
            rw [List.find?_append] at owes
            cases found : ((s.callers.map Caller.loop).reverse ++ [loop]).find? (·.awaits id) with
            | some outer =>
                rw [found, Option.some_or] at owes
                exact (Option.some.inj owes).symm.trans (settles id outer found)
            | none =>
                rw [found, Option.none_or, List.find?_singleton] at owes
                split at owes
                · exact (Option.some.inj owes).symm
                · rename_i nobody
                  obtain ⟨notice, member, own⟩ := toldLast_mem owes
                  obtain ⟨cb, entry⟩ := registered.told notice member
                  exact absurd (List.any_eq_true.mpr ⟨_, entry, decide_eq_true own⟩) nobody

end Steps

/-- The outermost call. -/
inductive Call (C : ConfigType)
  | setValue (value : C.T)
  | fromString (text : String)

def call (s : Notifier C W) : Call C → Notifier C W
  | .setValue value => s.setValue value
  | .fromString text => s.fromString text

section Runs

variable {cbs : Std.ExtTreeMap Int (Callback C W)} {value : C.T} {w : W} {outer : Call C}
  {trace : List (Notifier C W × Unit)} {s : Notifier C W}

theorem setValue_settled (cbs : Std.ExtTreeMap Int (Callback C W)) (value : C.T) (w : W)
    (new : C.T) : ((idle cbs value w).setValue new).Registered ∧
      ((idle cbs value w).setValue new).Settled := by
  have shape := setValue_loops (idle cbs value w) new
  refine ⟨⟨fun loop member => ?_, fun notice member => ?_⟩, fun id last owes => ?_⟩
  · rcases shape loop member with outer | all
    · cases outer
    · rw [setValue_cbs, all]
      exact List.Subset.refl _
  · rw [setValue_told] at member
    cases member
  · unfold setValue at owes ⊢
    split at owes
    · cases owes
    · rename_i differs
      rw [if_neg differs]
      unfold owed at owes
      simp only [loops, idle, List.map_nil, List.reverse_nil, List.nil_append,
        List.find?_singleton] at owes
      split at owes
      · exact (Option.some.inj owes).symm
      · cases owes

/-- The call itself has either ended or told nobody yet and owes everybody the new value. -/
theorem call_settled (cbs : Std.ExtTreeMap Int (Callback C W)) (value : C.T) (w : W)
    (outer : Call C) :
    ((idle cbs value w).call outer).Registered ∧ ((idle cbs value w).call outer).Settled := by
  cases outer with
  | setValue new => exact setValue_settled cbs value w new
  | fromString text =>
      change ((idle cbs value w).fromString text).Registered ∧
        ((idle cbs value w).fromString text).Settled
      unfold fromString
      cases C.fromStr text with
      | ok new => exact setValue_settled cbs value w new
      | error what =>
          refine ⟨⟨fun loop member => ?_, fun notice member => ?_⟩, fun id last owes => ?_⟩
          · cases member
          · cases member
          · cases owes

/-- A state without a next step. -/
theorem ended_loops (ended : s.next () = none) :
    (∃ thrown, s.control = .leaving thrown) ∧ s.loops = [] := by
  cases control : s.control with
  | looping loop =>
      cases left : loop.left <;> simp [next, control, left] at ended
  | running loop body =>
      cases body <;> simp [next, control] at ended
  | leaving thrown =>
      cases callers : s.callers with
      | nil => exact ⟨⟨thrown, rfl⟩, by simp [loops, control, callers]⟩
      | cons caller rest => simp [next, control, callers] at ended

/-- Through steps that do not disturb every listener stays owed the variable's value. -/
theorem calm_run {start : Notifier C W} (run : Run next anyStep start trace s)
    (calm : ∀ step ∈ trace, ¬ step.1.Disturbs) : s.Settled ↔ start.Settled := by
  have calmly : Run next (fun s _ => ¬ s.Disturbs) start trace s := run.restrict calm
  apply calmly.invariant (I := fun s => s.Settled ↔ start.Settled) Iff.rfl
  intro s _ t settled calm step
  obtain ⟨value, owes⟩ := calm_step step calm
  rw [← settled, Settled, Settled, value]
  simp only [owes]

theorem last_or_none {α : Type} (P : α → Prop) (list : List α) : (∀ x ∈ list, ¬ P x) ∨
    ∃ front x back, list = front ++ x :: back ∧ P x ∧ ∀ y ∈ back, ¬ P y := by
  induction list with
  | nil => exact Or.inl fun _ member => by cases member
  | cons first rest ih =>
      rcases ih with none | ⟨front, x, back, rfl, holds, later⟩
      · by_cases holds : P first
        · exact Or.inr ⟨[], first, rest, rfl, holds, none⟩
        · exact Or.inl (List.forall_mem_cons.mpr ⟨holds, none⟩)
      · exact Or.inr ⟨first :: front, x, back, rfl, holds, later⟩

/-- When the outermost call has ended, every listener that was called was told the value of the
variable last, if and only if the last disturbance settles. -/
theorem notices_current_iff (run : Run next anyStep ((idle cbs value w).call outer) trace s)
    (ended : s.next () = none) :
    (∀ id last, toldLast s.told id = some last → last = s.value) ↔
      ∀ front step back, trace = front ++ step :: back → step.1.Disturbs →
        (∀ later ∈ back, ¬ later.1.Disturbs) → step.1.Settles := by
  have registered := (call_settled cbs value w outer).1
  have final : (∀ id last, toldLast s.told id = some last → last = s.value) ↔ s.Settled := by
    rw [Settled, (ended_loops ended).2]
    exact Iff.rfl
  have settles_iff : ∀ front step back, trace = front ++ step :: back → step.1.Disturbs →
      (∀ later ∈ back, ¬ later.1.Disturbs) → (s.Settled ↔ step.1.Settles) := by
    intro front step back whole disturbs calm
    rw [whole, List.append_cons] at run
    obtain ⟨t, first, rest⟩ := run.split
    obtain ⟨before, _, taken⟩ := first.of_snoc
    have known : step.1.Registered := before.invariant registered
      fun _ _ _ known _ step => known.step step
    rw [calm_run rest calm, disturbed_step known taken disturbs]
  rw [final]
  constructor
  · intro settled front step back whole disturbs calm
    exact (settles_iff front step back whole disturbs calm).mp settled
  · intro settles
    rcases last_or_none (fun step : Notifier C W × Unit => step.1.Disturbs) trace with
      calm | ⟨front, step, back, whole, disturbs, calm⟩
    · exact (calm_run run calm).mpr (call_settled cbs value w outer).2
    · exact (settles_iff front step back whole disturbs calm).mpr
        (settles front step back whole disturbs calm)

/-- An exception leaves a callback that the outermost loop called. -/
def Escapes (s : Notifier C W) : Prop :=
  s.callers = [] ∧ ∃ loop what w, s.control = .running loop (.throws what w)

/-- `setValue` has thrown at its outermost call. -/
def Thrown (s : Notifier C W) : Prop := s.callers = [] ∧ ∃ what, s.control = .leaving (some what)

/-- The value that a listener's own call stores, if any. -/
def stored (s : Notifier C W) (value : C.T) : C.T :=
  match s.control with
  | .running _ (.sets new _ _) => if C.eq s.value new then value else new
  | .running _ (.returns _) | .running _ (.throws _ _) | .looping _ | .leaving _ => value

/-- The value stored last in a run that began after one was stored. -/
def lastStored (value : C.T) (trace : List (Notifier C W × Unit)) : C.T :=
  trace.foldl (fun last step => step.1.stored last) value

theorem lastStored_snoc (value : C.T) (trace : List (Notifier C W × Unit))
    (step : Notifier C W × Unit) :
    lastStored value (trace ++ [step]) = step.1.stored (lastStored value trace) := by
  rw [lastStored, List.foldl_append]
  rfl

theorem step_value {s t : Notifier C W} (step : s.next () = some t) :
    t.value = s.stored s.value := by
  cases step_cases step with
  | ends control _ | calls control _ | returns control | throws control | resumes control _ =>
      simp only [stored, control]
  | sets control =>
      simp only [stored, control, setValue]
      split <;> rfl

theorem run_value {start : Notifier C W} (run : Run next anyStep start trace s) :
    s.value = lastStored start.value trace := by
  induction run with
  | nil => rfl
  | snoc before _ step ih =>
      rw [lastStored_snoc, ← ih]
      exact step_value step

theorem setValue_not_thrown (s : Notifier C W) (new : C.T) : ¬ (s.setValue new).Thrown := by
  intro thrown
  obtain ⟨_, what, control⟩ := thrown
  unfold setValue at control
  split at control <;> cases control

theorem step_thrown {s t : Notifier C W} (step : s.next () = some t) :
    t.Thrown ↔ s.Escapes := by
  cases step_cases step with
  | ends control _ | calls control _ | returns control | throws control | resumes control _ =>
      simp [Thrown, Escapes, control]
  | sets control =>
      apply iff_of_false (setValue_not_thrown _ _)
      simp [Escapes, control]

/-- `setValue` throws just if an exception gets out of its loop. -/
theorem run_thrown {start : Notifier C W} (run : Run next anyStep start trace s)
    (fresh : ¬ start.Thrown) : s.Thrown ↔ ∃ step ∈ trace, step.1.Escapes := by
  apply run.invariant_trace (I := fun trace s => s.Thrown ↔ ∃ step ∈ trace, step.1.Escapes)
  · exact iff_of_false fresh (by simp)
  · intro trace s _ t thrown _ step
    have running : ¬ s.Thrown := by
      intro ended
      obtain ⟨callers, what, control⟩ := ended
      simp [next, control, callers] at step
    rw [step_thrown step]
    constructor
    · intro escapes
      exact ⟨_, List.mem_append_right _ List.mem_cons_self, escapes⟩
    · intro earlier
      obtain ⟨last, member, escapes⟩ := earlier
      rcases List.mem_append.mp member with old | own
      · exact absurd (thrown.mpr ⟨last, old, escapes⟩) running
      · obtain rfl := List.mem_singleton.mp own
        exact escapes

/-- Nothing follows a state without a next step. -/
theorem run_ended {start : Notifier C W} (run : Run next anyStep start trace s)
    (ended : start.next () = none) : s = start := by
  apply run.invariant (I := fun s => s = start) rfl
  rintro s _ t rfl _ step
  rw [ended] at step
  cases step

theorem returned_iff (ended : s.next () = none) : s.returned = false ↔ s.Thrown := by
  obtain ⟨⟨thrown, control⟩, _⟩ := ended_loops ended
  cases callers : s.callers with
  | nil => cases thrown <;> simp [returned, Thrown, control, callers]
  | cons caller rest => simp [next, control, callers] at ended

/-- A rejected text leaves the value if and only if it does not decode to another value, or no
exception gets out of the loop over the listeners, or the old value was stored last. -/
theorem rejected_unchanged_iff {text : String}
    (run : Run next anyStep ((idle cbs value w).fromString text) trace s)
    (ended : s.next () = none) : (s.returned = false → s.value = value) ↔
      ∀ new, C.fromStr text = .ok new → C.eq value new = false →
        (∃ step ∈ trace, step.1.Escapes) → lastStored new trace = value := by
  rw [returned_iff ended]
  unfold fromString at run
  cases decoded : C.fromStr text with
  | error what =>
      rw [decoded] at run
      have same := run_ended run rfl
      exact iff_of_true (fun _ => same ▸ rfl) (by simp)
  | ok new =>
      rw [decoded] at run
      change Run next anyStep ((idle cbs value w).setValue new) trace s at run
      simp only [Except.ok.injEq, forall_eq']
      cases equal : C.eq value new with
      | true =>
          have stays : (idle cbs value w).setValue new = idle cbs value w := if_pos equal
          rw [stays] at run
          have same := run_ended run rfl
          exact iff_of_true (fun _ => same ▸ rfl) (by simp)
      | false =>
          have stores : ((idle cbs value w).setValue new).value = new := by
            rw [setValue, if_neg (by rw [idle, equal]; exact Bool.false_ne_true)]
          have last := run_value run
          rw [stores] at last
          rw [run_thrown run (setValue_not_thrown _ new), last]
          simp only [true_imp_iff]

end Runs

/-- A variable of strings. -/
abbrev stringType : ConfigType where
  T := String
  eq := (· == ·)
  fromStr := .ok
  toStr := .ok

/-- A listener that replaces one text by another. -/
def corrects : Callback stringType Unit := fun newValue _ _ w =>
  if newValue = "verbose" then .sets "debug" w fun _ w _ => .returns w else .returns w

def alone : Std.ExtTreeMap Int (Callback stringType Unit) :=
  (∅ : Std.ExtTreeMap Int (Callback stringType Unit)).insert 1 corrects

/-- Another listener, behind it. -/
def paired : Std.ExtTreeMap Int (Callback stringType Unit) :=
  alone.insert 2 fun _ _ _ w => .returns w

theorem notices_current_alone : ∃ trace s,
    Run next anyStep ((idle alone "info" ()).call (.setValue "verbose")) trace s ∧
      s.value = "debug" ∧ ∀ id last, toldLast s.told id = some last → last = s.value := by
  let behind (newValue oldValue : String) : Loop stringType Unit := ⟨newValue, oldValue, []⟩
  let state (value : String) (control : Control stringType Unit)
      (callers : List (Caller stringType Unit)) (told : List (Int × String)) :
      Notifier stringType Unit := ⟨alone, value, (), control, callers, told⟩
  let caller : Caller stringType Unit := ⟨behind "verbose" "info", fun _ w _ => .returns w⟩
  let told : List (Int × String) := [(1, "verbose"), (1, "debug")]
  have run : Run next anyStep ((idle alone "info" ()).call (.setValue "verbose"))
      [(state "verbose" (.looping ⟨"verbose", "info", [(1, corrects)]⟩) [] [], ()),
        (state "verbose" (.running (behind "verbose" "info")
          (.sets "debug" () fun _ w _ => .returns w)) [] [(1, "verbose")], ()),
        (state "debug" (.looping ⟨"debug", "verbose", [(1, corrects)]⟩) [caller]
          [(1, "verbose")], ()),
        (state "debug" (.running (behind "debug" "verbose") (.returns ())) [caller] told, ()),
        (state "debug" (.looping (behind "debug" "verbose")) [caller] told, ()),
        (state "debug" (.leaving none) [caller] told, ()),
        (state "debug" (.running (behind "verbose" "info") (.returns ())) [] told, ()),
        (state "debug" (.looping (behind "verbose" "info")) [] told, ())]
      (state "debug" (.leaving none) [] told) :=
    (((((((Run.nil.snoc trivial rfl).snoc trivial rfl).snoc trivial rfl).snoc trivial rfl).snoc
      trivial rfl).snoc trivial rfl).snoc trivial rfl).snoc trivial rfl
  have current := (notices_current_iff run rfl).mpr ?_
  · exact ⟨_, _, run, rfl, current⟩
  · intro front step back whole disturbs _
    have member : step ∈ front ++ step :: back := List.mem_append_right _ List.mem_cons_self
    rw [← whole] at member
    simp only [List.mem_cons, List.not_mem_nil, or_false] at member
    rcases member with rfl | rfl | rfl | rfl | rfl | rfl | rfl | rfl
    · cases disturbs
    · intro id loop found
      cases found
    all_goals cases disturbs

theorem notices_stale : ∃ trace s,
    Run next anyStep ((idle paired "info" ()).call (.setValue "verbose")) trace s ∧
      s.next () = none ∧ s.value = "debug" ∧ toldLast s.told 2 = some "verbose" := by
  have stale : ((replay (guarded next anyStep) ((idle paired "info" ()).call
      (.setValue "verbose")) (List.replicate 12 ())).map fun last =>
        decide ((last.2.next ()).isNone = true ∧ last.2.value = "debug" ∧
          toldLast last.2.told 2 = some "verbose")) = some true := by
    decide +kernel
  obtain ⟨last, executed, read⟩ := Option.map_eq_some_iff.mp stale
  obtain ⟨ended, value, told⟩ := of_decide_eq_true read
  exact ⟨last.1, last.2, Run.of_replay executed, Option.isNone_iff_eq_none.mp ended, value, told⟩

/-- A listener that takes a text back before it throws. -/
def restores : Callback stringType Unit := fun newValue oldValue _ w =>
  if newValue = "verbose" then .sets oldValue w fun _ w _ => .throws "refused" w else .returns w

/-- A listener that only throws. -/
def refuses : Callback stringType Unit := fun _ _ _ w => .throws "refused" w

theorem rejected_unchanged_restored : ∃ trace s, Run next anyStep
    ((idle ((∅ : Std.ExtTreeMap Int (Callback stringType Unit)).insert 1 restores)
      "info" ()).fromString "verbose") trace s ∧ s.returned = false ∧ s.value = "info" := by
  have restored : ((replay (guarded next anyStep) ((idle ((∅ : Std.ExtTreeMap Int
      (Callback stringType Unit)).insert 1 restores) "info" ()).fromString "verbose")
        (List.replicate 7 ())).map fun last : List (Notifier stringType Unit × Unit) ×
          Notifier stringType Unit => decide ((last.2.next ()).isNone = true ∧
            last.2.returned = false ∧ lastStored "verbose" last.1 = "info")) = some true := by
    decide +kernel
  obtain ⟨last, executed, read⟩ := Option.map_eq_some_iff.mp restored
  obtain ⟨ended, rejected, stored⟩ := of_decide_eq_true read
  have run := Run.of_replay executed
  have unchanged := (rejected_unchanged_iff run (Option.isNone_iff_eq_none.mp ended)).mpr (by
    intro new decoded _ _
    obtain rfl : "verbose" = new := Except.ok.inj decoded
    exact stored)
  exact ⟨last.1, last.2, run, rejected, unchanged rejected⟩

theorem rejected_stored : ∃ trace s, Run next anyStep
    ((idle ((∅ : Std.ExtTreeMap Int (Callback stringType Unit)).insert 1 refuses)
      "info" ()).fromString "verbose") trace s ∧
        s.next () = none ∧ s.returned = false ∧ s.value = "verbose" := by
  have thrown : ((replay (guarded next anyStep) ((idle ((∅ : Std.ExtTreeMap Int
      (Callback stringType Unit)).insert 1 refuses) "info" ()).fromString "verbose")
        (List.replicate 2 ())).map fun last => decide ((last.2.next ()).isNone = true ∧
          last.2.returned = false ∧ last.2.value = "verbose")) = some true := by
    decide +kernel
  obtain ⟨last, executed, read⟩ := Option.map_eq_some_iff.mp thrown
  obtain ⟨ended, rejected, stored⟩ := of_decide_eq_true read
  exact ⟨last.1, last.2, Run.of_replay executed, Option.isNone_iff_eq_none.mp ended, rejected,
    stored⟩

section Plain

/-- A callback that leaves its variable alone. -/
def plain (cb : OnChangeCallback C W) : Callback C W := fun newValue oldValue _ w =>
  match cb newValue oldValue w with
  | (w, none) => .returns w
  | (w, some what) => .throws what w

/-- The loop over callbacks that leave the variable alone. -/
theorem notify_plain (s : Notifier C W) (newValue oldValue : C.T)
    (cbs : List (Int × OnChangeCallback C W)) (callers : s.callers = [])
    (control : s.control = .looping ⟨newValue, oldValue, cbs.map fun e => (e.1, plain e.2)⟩) :
    ∃ trace t, Run next anyStep s trace t ∧ t.callers = [] ∧ t.value = s.value ∧
      t.world = (ConfigVar.notify newValue oldValue (cbs.map Prod.snd) s.world).1 ∧
      t.control =
        .leaving (ConfigVar.notify newValue oldValue (cbs.map Prod.snd) s.world).2 := by
  induction cbs generalizing s with
  | nil =>
      have step : s.next () = some { s with control := .leaving none } := by
        simp only [next, control, List.map_nil]
      exact ⟨_, _, Run.nil.snoc trivial step, callers, rfl, rfl, rfl⟩
  | cons e rest ih =>
      let loop : Loop C W := ⟨newValue, oldValue, rest.map fun e => (e.1, plain e.2)⟩
      let called : Notifier C W := { s with
        control := .running loop (plain e.2 newValue oldValue s.value s.world)
        told := s.told ++ [(e.1, newValue)] }
      have call : s.next () = some called := by
        simp only [next, control, List.map_cons]
        rfl
      cases result : e.2 newValue oldValue s.world with
      | mk w thrown =>
          have body : called.control = .running loop (match thrown with
              | none => .returns w
              | some what => .throws what w) := by
            simp only [called, plain, result]
            cases thrown <;> rfl
          cases thrown with
          | some what =>
              have leave : called.next () =
                  some { called with world := w, control := .leaving (some what) } := by
                simp only [next, body]
              refine ⟨_, _, (Run.nil.snoc trivial call).snoc trivial leave, callers, rfl, ?_, ?_⟩
              · simp only [List.map_cons, ConfigVar.notify, result]
              · simp only [List.map_cons, ConfigVar.notify, result]
          | none =>
              have back : called.next () =
                  some { called with world := w, control := .looping loop } := by
                simp only [next, body]
              obtain ⟨trace, t, run, ended, value, world, left⟩ :=
                ih { called with world := w, control := .looping loop } callers rfl
              refine ⟨_, t, ((Run.nil.snoc trivial call).snoc trivial back).trans run, ended,
                value, ?_, ?_⟩
              · rw [world]
                simp only [List.map_cons, ConfigVar.notify, result]
              · rw [left]
                simp only [List.map_cons, ConfigVar.notify, result]

/-- For such listeners the steps come to what `ConfigVar.setValue` does. -/
theorem setValue_plain (var : ConfigVar C W) (value : C.T) (w : W) :
    ∃ trace t, Run next anyStep
        ((idle (var.cbs.map fun _ cb => plain cb) var.value w).setValue value) trace t ∧
      t.next () = none ∧ t.value = (var.setValue value w).1.value ∧
      t.world = (var.setValue value w).2.1 ∧ t.control = .leaving (var.setValue value w).2.2 := by
  cases equal : C.eq var.value value with
  | true =>
      have stays : ∀ cbs, (idle cbs var.value w).setValue value = idle cbs var.value w :=
        fun _ => if_pos equal
      rw [stays, ConfigVar.setValue, if_pos equal]
      exact ⟨[], _, .nil, rfl, rfl, rfl, rfl⟩
  | false =>
      have differs : ¬ C.eq var.value value = true := by
        rw [equal]
        exact Bool.false_ne_true
      have enters : ∀ cbs : Std.ExtTreeMap Int (Callback C W),
          (idle cbs var.value w).setValue value =
            { idle cbs value w with control := .looping ⟨value, var.value, cbs.toList⟩ } :=
        fun _ => if_neg differs
      rw [enters, ConfigVar.setValue, if_neg differs]
      obtain ⟨trace, t, run, callers, kept, world, control⟩ := notify_plain
        { idle (var.cbs.map fun _ cb => plain cb) value w with
          control := .looping ⟨value, var.value, (var.cbs.map fun _ cb => plain cb).toList⟩ }
        value var.value var.cbs.toList rfl (by rw [Std.ExtTreeMap.toList_map])
      refine ⟨trace, t, run, ?_, kept, world, control⟩
      simp only [next, control, callers]

end Plain

end Notifier

end ZnetServer.Reentry
