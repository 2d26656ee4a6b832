import ZnetServer.SchedulerWakeup

set_option autoImplicit false

/- `schedule` notifies only when it finds the queue empty: which runs leave a fiber in the
queue while a worker sleeps. -/
namespace ZnetServer.Scheduler

open Transition

variable {n : Nat} {F : Type}

/-- A fiber is queued and a worker sleeps, no call of `schedule` still has to notify, and no
woken worker still has to look at the queue. -/
structure LeftQueued (s : State n F) : Prop where
  queued : s.fibers ≠ []
  asleep : ∃ w, s.worker w = .waiting
  scheduleQuiet : s.tickling = 0 ∧ ∀ w fiber, s.worker w ≠ .running fiber true
  looked : ∀ w, s.worker w ≠ .woken

/-- Before `stop`, no fiber is left in the queue beside a sleeper. -/
def Parallel (s : State n F) : Prop := s.owner.stopCalled = false → ¬ LeftQueued s

/-- Worker `w` is the only one that was woken and no other notify is to come. It takes the
lock while several fibers are queued, and another worker sleeps on. -/
structure TakesOfSeveral (s : State n F) (w : WorkerId n) : Prop where
  woken : s.worker w = .woken
  several : 2 ≤ s.fibers.length
  asleep : ∃ v, s.worker v = .waiting
  scheduleQuiet : s.tickling = 0 ∧ ∀ v fiber, s.worker v ≠ .running fiber true
  alone : ∀ v, s.worker v = .woken → v = w

def StrandsWork (s : State n F) : Event n F → Prop
  | .take w => s.owner.stopCalled = false ∧ TakesOfSeveral s w
  | _ => False

/-- Somebody still has to notify or was woken. -/
def Roused (s : State n F) : Prop :=
  0 < s.tickling ∨ (∃ w fiber, s.worker w = .running fiber true) ∨ ∃ w, s.worker w = .woken

/-- Fibers beside a sleeper imply somebody who will wake it or look at the queue. -/
def Attended (s : State n F) : Prop :=
  s.fibers ≠ [] → (∃ w, s.worker w = .waiting) → Roused s

theorem attended_iff (s : State n F) : Attended s ↔ ¬ LeftQueued s := by
  constructor
  · intro attended left
    rcases attended left.queued left.asleep with pending | ⟨w, fiber, tickling⟩ | ⟨w, woken⟩
    · exact absurd left.scheduleQuiet.1 (Nat.ne_of_gt pending)
    · exact left.scheduleQuiet.2 w fiber tickling
    · exact left.looked w woken
  · intro never queued asleep
    by_contra nobody
    simp only [Roused, not_or, not_exists, Nat.not_lt, Nat.le_zero] at nobody
    exact never ⟨queued, asleep, ⟨nobody.1, nobody.2.1⟩, nobody.2.2⟩

/-- A worker that neither was woken nor has to notify moves, and does not fall asleep. -/
theorem Attended.move {s t : State n F} {w : WorkerId n} {pc : WorkerPc F} (attended : Attended s)
    (worker : t.worker = s.worker) (queued : t.fibers ≠ [] → s.fibers ≠ [])
    (pending : s.tickling ≤ t.tickling) (calm : s.worker w ≠ .woken)
    (silent : ∀ fiber, s.worker w ≠ .running fiber true) (awake : pc ≠ .waiting) :
    Attended (t.setWorker w pc) := by
  have kept : ∀ v, s.worker v ≠ s.worker w → (t.setWorker w pc).worker v = s.worker v := by
    intro v differs
    rw [setWorker_other _ _ _ (fun same => differs (by rw [same])), worker]
  rintro still ⟨v, asleep⟩
  have before : s.worker v = .waiting := by
    rw [setWorker_worker] at asleep
    split at asleep
    · exact absurd asleep awake
    · rwa [worker] at asleep
  rcases attended (queued still) ⟨v, before⟩ with some_pending | ⟨u, fiber, tickling⟩ | ⟨u, woken⟩
  · left
    exact Nat.lt_of_lt_of_le some_pending pending
  · right
    left
    refine ⟨u, fiber, ?_⟩
    rw [kept u (fun same => silent fiber (by rw [← same, tickling])), tickling]
  · right
    right
    refine ⟨u, ?_⟩
    rw [kept u (fun same => calm (by rw [← same, woken])), woken]

theorem Attended.of_woken {s : State n F} (w : WorkerId n) : Attended (s.setWorker w .woken) :=
  fun _ _ => Or.inr (Or.inr ⟨w, setWorker_same s w .woken⟩)

/-- A pop by a woken worker leaves nobody unattended, unless it is the last one who could
have attended to the rest of the queue. -/
theorem Attended.pop {s : State n F} {w : WorkerId n} {pc : WorkerPc F}
    {rest : List (Option F)} {entry : Option F} (woken : s.worker w = .woken)
    (back : s.fibers = rest ++ [entry]) (alone : ¬ TakesOfSeveral s w) (awake : pc ≠ .waiting) :
    Attended ({ s with fibers := rest }.setWorker w pc) := by
  rintro still ⟨v, asleep⟩
  have apart : v ≠ w := by
    rintro rfl
    rw [setWorker_same] at asleep
    exact awake asleep
  rw [setWorker_other _ _ _ apart] at asleep
  have several : 2 ≤ s.fibers.length := by
    have positive := List.length_pos_iff.mpr still
    rw [back, List.length_append, List.length_singleton]
    change 0 < rest.length at positive
    omega
  by_contra nobody
  simp only [Roused, not_or, not_exists, Nat.not_lt, Nat.le_zero] at nobody
  have elsewhere : ∀ u, u ≠ w →
      ({ s with fibers := rest }.setWorker w pc).worker u = s.worker u :=
    fun u apart => setWorker_other _ _ _ apart
  refine alone ⟨woken, several, ⟨v, asleep⟩, ⟨nobody.1, fun u fiber tickling => ?_⟩,
    fun u other => ?_⟩
  · have same : u ≠ w := by
      rintro rfl
      simp [woken] at tickling
    apply nobody.2.1 u fiber
    rw [elsewhere u same, tickling]
  · by_contra different
    apply nobody.2.2 u
    rw [elsewhere u different, other]

/-- With at most one fiber in the queue nothing is stranded. -/
theorem not_strands {s : State n F} (few : s.fibers.length < 2) (e : Event n F) :
    ¬ StrandsWork s e := by
  intro strands
  cases e <;> try cases strands
  case take.intro takes => exact absurd takes.several (Nat.not_le_of_lt few)

variable [DecidableEq F]

theorem stopCalled_of_step {userCaller : Bool} {s t : State n F} {e : Event n F}
    (step : Step userCaller s e t) (before : t.owner.stopCalled = false) :
    s.owner.stopCalled = false := by
  cases step
  case start at_owner | spawn at_owner _ | startReturns at_owner _ | stop at_owner =>
    rw [at_owner]
    rfl
  case notifyAll | swapThreads | join | callRoot | joinsReturn | callReturns => cases before
  all_goals exact before

theorem attended_step {userCaller : Bool} {s t : State n F} {e : Event n F} (born : Born s)
    (inv : WakeupInv s) (attended : Attended s) (before : t.owner.stopCalled = false)
    (harmless : ¬ StrandsWork s e) (step : Step userCaller s e t) : Attended t := by
  have uncalled := stopCalled_of_step step before
  cases step
  case start at_owner =>
    rintro - ⟨w, asleep⟩
    have unborn := inv.unborn at_owner w
    exact absurd (unborn.symm.trans asleep) (by simp)
  case spawn created at_owner inside =>
    have absent := born.spawned at_owner inside
    exact attended.move (t := { s with owner := .starting (created + 1) }) rfl id (Nat.le_refl _)
      (by simp [absent]) (by simp [absent]) (by simp)
  case startReturns => exact attended
  case schedule fiber =>
    intro _ asleep
    by_cases queued : s.fibers = []
    · left
      simp [queued]
    · rcases attended queued asleep with pending | roused
      · left
        exact Nat.lt_of_lt_of_le pending (Nat.le_add_right _ _)
      · exact Or.inr roused
  case tickleOne w _ _ => exact Attended.of_woken w
  case tickleNone _ nobody =>
    rintro - ⟨w, asleep⟩
    exact absurd asleep (nobody w)
  case takeBlocked nothing _ | takeNothing nothing _ =>
    intro queued
    exact absurd nothing queued
  case takeFiber w rest fiber free back =>
    rcases free with ready | woken
    · exact attended.move (t := { s with fibers := rest }) rfl (by simp [back]) (Nat.le_refl _)
        (by simp [ready]) (by simp [ready]) (by simp)
    · exact Attended.pop woken back (fun takes => harmless ⟨uncalled, takes⟩) (by simp)
  case takeNull w rest free back =>
    rcases free with ready | woken
    · exact attended.move (t := { s with fibers := rest }) rfl (by simp [back]) (Nat.le_refl _)
        (by simp [ready]) (by simp [ready]) (by simp)
    · exact Attended.pop woken back (fun takes => harmless ⟨uncalled, takes⟩) (by simp)
  case spurious w _ => exact Attended.of_woken w
  case swapIn w fiber held =>
    exact attended.move (t := { s with saved := _ }) rfl id (Nat.le_refl _) (by simp [held])
      (by simp [held]) (by simp)
  case fiberSchedule w fiber scheduled runs =>
    by_cases queued : s.fibers = []
    · intro _ _
      right
      left
      exact ⟨w, fiber, by simp [queued]⟩
    · exact attended.move (t := { s with fibers := _ }) rfl (fun _ => queued) (Nat.le_refl _)
        (by simp [runs]) (by simp [runs]) (by simp)
  case fiberTickleOne w other fiber runs blocked => exact Attended.of_woken other
  case fiberTickleNone w fiber runs nobody =>
    rintro - ⟨v, asleep⟩
    rw [setWorker_worker] at asleep
    split at asleep
    · cases asleep
    · exact absurd asleep (nobody v)
  case giveBack w fiber runs =>
    exact attended.move (t := { s with saved := _ }) rfl id (Nat.le_refl _) (by simp [runs])
      (by simp [runs]) (by simp)
  case leave w null _ | again w null _ =>
    exact attended.move rfl id (Nat.le_refl _) (by simp [null]) (by simp [null]) (by simp)
  case stop | notifyAll | swapThreads | join | callRoot | joinsReturn | callReturns =>
    cases before

/-- The pop takes one fiber and leaves the others, with nobody to wake the sleeper. -/
theorem TakesOfSeveral.leaves {userCaller : Bool} {s t : State n F} {w : WorkerId n}
    (takes : TakesOfSeveral s w) (step : Step userCaller s (.take w) t) : LeftQueued t := by
  obtain ⟨v, asleep⟩ := takes.asleep
  have apart : v ≠ w := by
    rintro rfl
    have woken := takes.woken
    rw [asleep] at woken
    cases woken
  have popped : ∀ (rest : List (Option F)) (entry : Option F) (pc : WorkerPc F),
      s.fibers = rest ++ [entry] → pc ≠ .woken → (∀ fiber, pc ≠ .running fiber true) →
      LeftQueued ({ s with fibers := rest }.setWorker w pc) := by
    intro rest entry pc back calm silent
    refine ⟨?_, ⟨v, by rwa [setWorker_other _ _ _ apart]⟩,
      ⟨takes.scheduleQuiet.1, fun u fiber => ?_⟩, fun u => ?_⟩
    · rintro (rfl : rest = [])
      have several := takes.several
      rw [back] at several
      simp at several
    · rw [setWorker_worker]
      split
      · exact silent fiber
      · exact takes.scheduleQuiet.2 u fiber
    · rw [setWorker_worker]
      split
      · exact calm
      · rename_i elsewhere
        exact fun woken => elsewhere (takes.alone u woken)
  have nonempty : s.fibers ≠ [] := by
    intro nothing
    have several := takes.several
    rw [nothing] at several
    simp at several
  cases step
  case takeBlocked nothing _ _ | takeNothing nothing _ _ => exact absurd nothing nonempty
  case takeFiber rest fiber back _ => exact popped rest _ _ back (by simp) (by simp)
  case takeNull rest back _ => exact popped rest _ _ back (by simp) (by simp)

/-- Before `stop`, no state of a run leaves a fiber queued beside a sleeper if and only if no
worker, woken alone, takes one of several fibers while another worker sleeps. -/
theorem work_attended_iff {userCaller : Bool} {trace : List (State n F × Event n F)}
    {s : State n F} (run : Run (next userCaller) anyStep init trace s) :
    ((∀ step ∈ trace, Parallel step.1) ∧ Parallel s) ↔
      ∀ step ∈ trace, ¬ StrandsWork step.1 step.2 := by
  apply run.safe_iff (I := fun s => Born s ∧ WakeupInv s ∧ Parallel s)
    ⟨init_born, init_wakeupInv, fun _ left => left.queued rfl⟩
  · intro s inv
    exact inv.2.2
  · rintro s e t ⟨born, inv, parallel⟩ _ step harmless
    have taken := step_of_next step
    refine ⟨born_step born taken, wakeupInv_step inv taken, fun before => ?_⟩
    rw [← attended_iff]
    apply attended_step born inv _ before harmless taken
    rw [attended_iff]
    exact parallel (stopCalled_of_step taken before)
  · intro s e t _ _ step harm parallel
    cases e <;> try cases harm
    case take.intro w before takes =>
      have taken := step_of_next step
      have owner : t.owner = s.owner := by cases taken <;> rfl
      exact parallel (by rw [owner]; exact before) (takes.leaves taken)

/-- Worker 0 executes the first fiber when the second is pushed, and worker 1 is woken. -/
theorem work_attended_second : ∃ (trace : List (State 2 Nat × Event 2 Nat)) (s : State 2 Nat),
    s.fibers = [some 8] ∧ s.worker worker1 = .woken ∧
      (∀ step ∈ trace, Parallel step.1) ∧ Parallel s := by
  have run := Run.of_replay (show replay (guarded (next false) anyStep) init
    [.start, .spawn, .spawn, .startReturns, .take worker0, .take worker1, .schedule (some 7),
      .tickle (some worker0), .take worker0, .swapIn worker0, .schedule (some 8),
      .tickle (some worker1)] = some (_, _) from rfl)
  refine ⟨_, _, rfl, rfl, (work_attended_iff run).mpr fun step member => ?_⟩
  apply not_strands
  revert step
  decide

/-- Two workers sleep and two fibers are pushed before the one that is notified gets the
lock. -/
def pushedTwice : List (Event 2 Nat) :=
  [.start, .spawn, .spawn, .startReturns, .take worker0, .take worker1, .schedule (some 7),
    .tickle (some worker0), .schedule (some 8), .take worker0, .swapIn worker0]

/-- Worker 0 executes one of the fibers and worker 1 sleeps beside the other. -/
theorem work_left_queued : ∃ s : State 2 Nat,
    Reachable (next false) init s ∧ s.owner.stopCalled = false ∧ LeftQueued s := by
  have reached := Reachable.of_replay (show replay (next false) init pushedTwice = some (_, _)
    from rfl)
  refine ⟨_, reached, rfl, ⟨by simp, ⟨worker1, rfl⟩, ⟨rfl, fun w fiber => ?_⟩, ?_⟩⟩
  · match w with
    | none | some 0 | some 1 => exact nofun
  · decide

end ZnetServer.Scheduler
