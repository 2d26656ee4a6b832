import ZnetServer.SchedulerPlaces

set_option autoImplicit false

namespace ZnetServer.Scheduler.Control

open ZnetServer.Fiber Transition

variable {n : Nat} {F : Type} [DecidableEq F]

section Steps

variable {userCaller : Bool} {trace : List (Control n F × Event n F)} {s t : Control n F}
  {e : Event n F} {w : WorkerId n} {here there : Context (FiberId n F) (Point F)}

theorem Walk.inv {action : Act n F} {fibers : List (Option F)} {stopping : Bool}
    {point : Point F} (inv : Inv userCaller trace s)
    (executes : s.machine.executing w = some here)
    (walks : Walk s here.point action fibers stopping point)
    (disciplined : Disciplined s (.thread w action)) (queue : t.fibers = fibers)
    (machine : t.machine = s.machine.move w point) (state : t.state = s.state)
    (cur : t.cur = s.cur) : Inv userCaller (trace ++ [(s, .thread w action)]) t := by
  have executing : t.machine.executing =
      Function.update s.machine.executing w (some { here with point := point }) := by
    rw [machine, move_executing _ _ _ executes]
  have quiet := (walks.quiet w).1
  have other : ∀ v, Event.thread w action ≠ .thread v .swapIn := by
    intro v same
    injection same with _ swaps
    exact (walks.quiet w).2 swaps
  have same := Same.of_move machine
  have known : ∀ stack, s.cur stack = some stack → t.cur stack = some stack := by
    intro stack entered
    rwa [cur]
  have closed : t.closed = s.closed := by
    funext fiber
    rw [Control.closed, state]
    rfl
  have truth : ∀ stack fiber, t.cur stack = some fiber → fiber = stack := by
    rw [cur]
    exact inv.cur
  have moved := fun placed owner single => inv.moved executes machine known
    (fun fiber ran => by rwa [closed]) quiet other placed owner truth single
  cases walks with
  | owner _ at_owner _ apart created =>
    obtain ⟨rfl, on, _, owns⟩ := inv.at_owner executes at_owner
    apply moved ⟨rfl, on, apart, owns.frame (same none)⟩
    · intro pc at_pc
      cases at_pc
      exact ⟨_, at_owner, created⟩
    · apply inv.keeps (by rw [queue]) executing closed
      left
      exact slotOf_main on (by simp)
  | @pop rest fiber at_lock back =>
    obtain ⟨on, serves⟩ := inv.in_run executes at_lock trivial
    apply moved ⟨on, serves.frame (same w)⟩ (by simp)
    have pending : s.pool.pending = fiber ::ₘ ↑(fibers.filterMap id) := by
      simp only [pool, back, pending_append]
      rfl
    have popped := inv.single.hand (w := w) (show fiber ∈ s.pool.pending by simp [pending])
    rw [pending, Multiset.erase_cons_head] at popped
    have given : slotOf { here with point := .popped fiber } = .given fiber :=
      slotOf_popped on rfl
    rw [pool_update executing, queue, closed, given]
    exact popped
  | popNull at_lock back =>
    obtain ⟨on, serves⟩ := inv.in_run executes at_lock trivial
    apply moved ⟨on, serves.frame (same w)⟩ (by simp)
    apply inv.keeps (by simp [queue, back]) executing closed
    left
    exact slotOf_home on (by simp)
  | nothing at_lock _ _ =>
    obtain ⟨on, serves⟩ := inv.in_run executes at_lock trivial
    apply moved ⟨on, serves.frame (same w)⟩ (by simp)
    apply inv.keeps (by rw [queue]) executing closed
    left
    exact slotOf_home on (by simp)
  | loop behind =>
    obtain ⟨on, serves⟩ := inv.in_run executes behind trivial
    apply moved ⟨on, serves.frame (same w)⟩ (by simp)
    apply inv.keeps (by rw [queue]) executing closed
    left
    exact slotOf_home on (by simp)
  | @push fiber inside =>
    obtain ⟨own, on, entered, carries⟩ := inv.in_body executes inside
    apply moved ⟨own, on, known _ entered, carries.frame (same w) (lastResume_none quiet)
      (lastSwapIn_quiet (other w))⟩ (by simp)
    apply inv.pushes disciplined queue _ closed
    have still : slotOf { here with point := .body } = s.pool.slot w := by
      rw [pool_slot executes, slotOf_moved_task on]
    rw [pool_update executing, still]
    exact Function.update_eq_self ..

theorem spawn_inv {created : Nat} (inv : Inv userCaller trace s)
    (executes : s.machine.executing w = some here)
    (at_owner : here.point = .owner (.starting created)) (inside : created < n) :
    Inv userCaller (trace ++ [(s, .thread w .spawn)])
      { s with
        machine := (s.machine.move w (.owner (.starting (created + 1)))).setExecuting
          (some ⟨created, inside⟩) (some ⟨.main (some ⟨created, inside⟩), .begins, none⟩) } := by
  obtain ⟨rfl, on, _, owns⟩ := inv.at_owner executes at_owner
  let middle := s.move none (.owner (.starting (created + 1)))
  have machine : middle.machine = s.machine.move none (.owner (.starting (created + 1))) := rfl
  have executing := move_executing s.machine none (.owner (.starting (created + 1))) executes
  have worker : (some ⟨created, inside⟩ : WorkerId n) ≠ none := nofun
  have moved : Inv userCaller (trace ++ [(s, .thread none .spawn)]) middle := by
    refine inv.moved executes machine (fun _ known => known) (fun _ ran => ran) rfl (fun _ => nofun)
      ⟨rfl, on, nofun, owns.frame (Same.of_move machine none)⟩ ?_ inv.cur ?_
    · intro pc at_pc
      cases at_pc
      exact ⟨_, at_owner, fun i late => Nat.le_of_succ_le late⟩
    · exact inv.keeps rfl executing rfl (Or.inl (slotOf_main on nofun))
  apply moved.born
  · change (s.machine.move none _).executing _ = none
    rw [executing, Function.update_of_ne worker]
    exact inv.created here _ executes at_owner ⟨created, inside⟩ (Nat.le_refl created)
  · intro place pc first at_pc late
    change (s.machine.move none _).executing none = _ at first
    rw [executing, Function.update_self] at first
    cases first
    cases at_pc
    exact Nat.not_succ_le_self created late

theorem callRoot_inv (inv : Inv true trace s) (executes : s.machine.executing w = some here)
    {joined : Nat} (at_owner : here.point = .owner (.joining joined)) :
    Inv true (trace ++ [(s, .thread w .callRoot)])
      (s.perform w here.stack (.owner .calling) (.call .root)) := by
  obtain ⟨rfl, on, _, owns⟩ := inv.at_owner executes at_owner
  obtain ⟨_, main, scheduler⟩ := owns.pointers rfl
  have ends : s.machine.ends none (.call .root) = some (.main none, .root) := by
    simp [Machine.ends, main]
  have resumes : resumed s (.thread none .callRoot) = some .root := by
    simp [resumed, resumption, ends, Switch.resumed]
  have switched := perform_switched here.stack (.owner .calling) ends
  generalize s.perform none here.stack (.owner .calling) (.call .root) = t at switched
  have root : t.machine.saved .root = ⟨.root, .entry, none⟩ := by
    rw [switched.saved, Function.update_of_ne (by simp)]
    exact owns.uncalled rfl
  apply inv.switched executes switched
  · intro v apart
    cases v with
    | none => exact absurd rfl apart
    | some i => simp [home]
  · intro v _ fiber _
    simp [resumes]
  · intro v _ same
    cases same
  · rw [root]
    left
    refine ⟨rfl, rfl, ?_, ?_, fun _ => rfl⟩
    · rw [switched.current, Function.update_self]
      rfl
    · rw [switched.scheduler]
      exact scheduler
  · simp [root]
  · intro other same
    cases same
  · apply inv.keeps (by rw [switched.fibers]) switched.executing switched.closed
    left
    rw [root]
    rfl

omit [DecidableEq F] in
theorem Serves.ends (serves : Serves userCaller s w) (fiber : F) :
    s.machine.ends w (.swapIn (.task fiber)) = some (home w, .task fiber) := by
  simp [Machine.ends, serves.scheduler]

/-- The worker resumes the fiber that it has popped. -/
theorem swapIn_inv {fiber : F} (inv : Inv userCaller trace s)
    (executes : s.machine.executing w = some here) (held : here.point = .popped fiber) :
    Inv userCaller (trace ++ [(s, .thread w .swapIn)])
      (s.perform w here.stack .swapped (.swapIn (.task fiber))) := by
  obtain ⟨on, serves⟩ := inv.in_run executes held trivial
  have slot : s.pool.slot w = .given fiber := by
    rw [pool_slot executes]
    exact slotOf_popped on held
  have ends := serves.ends fiber
  have resumes : resumed s (.thread w .swapIn) = some (.task fiber) := by
    simp [resumed, resumption, point, executes, held, ends, Switch.resumed]
  have switched := perform_switched here.stack .swapped ends
  generalize s.perform w here.stack .swapped (.swapIn (.task fiber)) = t at switched
  have loaded := switched.loaded (task_ne_home fiber w)
  have suspended := inv.suspended fiber
  have opened := inv.single.given w fiber slot
  have carries : Carries userCaller (trace ++ [(s, .thread w .swapIn)]) t w fiber := by
    have number : lastSwapIn (trace ++ [(s, .thread w .swapIn)]) w = some s.machine.swaps := by
      rw [lastSwapIn, lastSwap_snoc, if_pos rfl]
    refine ⟨?_, ?_, serves.caller, ?_, by rw [number]; rfl, ?_⟩
    · rw [switched.current, Function.update_self]
    · rw [switched.scheduler]
      exact serves.scheduler
    · rw [switched.saved, Function.update_self, number, on]
    · rw [number, lastResume, lastSwap_snoc, if_pos resumes]
  have place : (t.machine.saved (.task fiber)).point = .entry ∨
      (t.machine.saved (.task fiber)).point = .body ∧ t.cur (.task fiber) = some (.task fiber) := by
    rw [loaded, switched.cur]
    rcases suspended.place with entry | body | ran
    · exact Or.inl entry
    · exact Or.inr body
    · exact absurd (ran.symm.trans opened) (by simp)
  have stack : (t.machine.saved (.task fiber)).stack = .task fiber := by
    rw [loaded]
    exact suspended.stack
  apply inv.switched executes switched
  · intro v apart same
    apply apart
    cases v <;> cases w <;> simp_all [home]
  · intro v apart other begun
    rw [resumes]
    rintro (same : some (FiberId.task fiber) = some (.task other))
    cases same
    exact apart (inv.single.once fiber v w (by rw [begun]; rfl) (by rw [slot]; rfl))
  · intro v apart same
    cases same
    exact apart rfl
  · unfold Placed
    rcases place with entry | ⟨body, entered⟩
    · rw [entry]
      exact Or.inr ⟨fiber, stack, carries⟩
    · rw [body]
      exact ⟨fiber, stack, entered, carries⟩
  · rcases place with entry | ⟨body, _⟩
    · simp [entry]
    · simp [body]
  · intro other same
    exact absurd same.symm (task_ne_home other w)
  · rw [pool_update switched.executing, switched.fibers, switched.closed, slotOf_task stack]
    apply inv.single.setSlot
    · intro other holds
      rw [slot]
      exact holds
    · simp

theorem Carries.ends {fiber : F} (carries : Carries userCaller trace s w fiber) :
    s.machine.ends w (.swapOut (.task fiber)) = some (.task fiber, home w) := by
  simp [Machine.ends, carries.scheduler]

/-- When a fiber swaps out, its thread goes on behind its last `swapIn`. -/
theorem Carries.returns {fiber : F} {stack : FiberId n F} (after : Point F)
    (carries : Carries userCaller trace s w fiber) :
    (s.perform w stack after (.swapOut (.task fiber))).machine.executing w =
        some ⟨home w, .swapped, lastSwapIn trace w⟩ ∧
      (s.perform w stack after (.swapOut (.task fiber))).machine.current w = some (home w) := by
  have switched := perform_switched stack after carries.ends
  constructor
  · rw [switched.loads (task_ne_home fiber w).symm, Function.update_self, carries.waits]
  · rw [switched.current, Function.update_self]

theorem swapOut_inv {fiber : F} {action : Act n F} {after : Point F}
    (inv : Inv userCaller trace s) (executes : s.machine.executing w = some here)
    (on : here.stack = .task fiber) (carries : Carries userCaller trace s w fiber)
    (quiet : resumed s (.thread w action) = none) (calls : action ≠ .swapIn)
    (place : after = .body ∧ s.cur (.task fiber) = some (.task fiber) ∨ s.closed fiber = true) :
    Inv userCaller (trace ++ [(s, .thread w action)])
      (s.perform w here.stack after (.swapOut (.task fiber))) := by
  have switched := perform_switched here.stack after carries.ends
  generalize s.perform w here.stack after (.swapOut (.task fiber)) = t at switched
  have loaded : t.machine.saved (home w) = ⟨home w, .swapped, lastSwapIn trace w⟩ := by
    rw [switched.loaded (task_ne_home fiber w).symm, carries.waits]
  apply inv.switched executes switched
  · intro v _
    cases v <;> simp [home]
  · intro v _ other _
    simp [quiet]
  · intro v _ same
    injection same with _ swaps
    exact calls swaps
  · rw [loaded]
    refine ⟨rfl, ?_, ?_, carries.caller⟩
    · rw [switched.current, Function.update_self]
    · rw [switched.scheduler]
      exact carries.scheduler
  · simp [loaded]
  · rintro other same
    cases same
    constructor
    · rw [switched.saved, Function.update_self]
      exact on
    · rw [switched.saved, Function.update_self, switched.cur, switched.closed]
      rcases place with ⟨rfl, entered⟩ | ran
      · exact Or.inr (Or.inl ⟨rfl, entered⟩)
      · exact Or.inr (Or.inr ran)
  · apply inv.keeps (by rw [switched.fibers]) switched.executing switched.closed
    left
    rw [loaded]
    exact slotOf_home rfl (by simp)

/-- The last `swapOut` of the root fiber leads to the root fiber itself. -/
theorem rootEnds_inv (inv : Inv userCaller trace s)
    (executes : s.machine.executing none = some here) (on : here.stack = .root)
    (serves : Serves userCaller s none) :
    Inv userCaller (trace ++ [(s, .thread none .endMain)])
      (s.perform none here.stack .behind (.swapOut .root)) := by
  have ends : s.machine.ends none (.swapOut .root) = some (.root, .root) := by
    simp [Machine.ends, serves.scheduler, home]
  have switched := perform_switched here.stack .behind ends
  generalize s.perform none here.stack .behind (.swapOut .root) = t at switched
  have loaded : t.machine.saved .root = ⟨.root, .behind, some s.machine.swaps⟩ := by
    rw [switched.saved, Function.update_self, on]
  apply inv.switched executes switched
  · intro v apart
    cases v with
    | none => exact absurd rfl apart
    | some i => simp [home]
  · intro v _ other _ resumes
    cases resumes
  · intro v _ same
    cases same
  · rw [loaded]
    refine ⟨rfl, rfl, ?_, ?_, serves.caller⟩
    · rw [switched.current, Function.update_self]
      rfl
    · rw [switched.scheduler]
      exact serves.scheduler
  · simp [loaded]
  · intro other same
    cases same
  · apply inv.keeps (by rw [switched.fibers]) switched.executing switched.closed
    left
    rw [loaded]
    rfl

/-- The first statement of `run` on a thread of its own. -/
theorem begin_inv (inv : Inv userCaller trace s) (executes : s.machine.executing w = some here)
    (begins : here.point = .begins) (other : userCaller = true → w ≠ none) :
    Inv userCaller (trace ++ [(s, .thread w .begin)])
      ({ (s.getThis w).1 with
        machine := (s.getThis w).1.machine.setScheduler w (s.getThis w).2 }.move w .locking) := by
  rcases inv.at_begin executes begins with ⟨worker, on, fresh⟩ | ⟨caller, _, serves⟩
  · obtain ⟨i, rfl⟩ := Option.ne_none_iff_exists'.mp worker
    rw [getThis_fresh fresh]
    have known : ∀ stack, s.cur stack = some stack → s.cur stack = some stack :=
      fun _ entered => entered
    refine inv.acted executes (move_executing _ _ _ executes) (fun v apart => ?_) known
      (fun _ ran => ran) (fun _ _ _ _ => by simp [resumed, resumption])
      (fun _ _ => by simp) ⟨on, ?_, ?_, by simp⟩ (by simp)
      (fun fiber => ?_) inv.cur ?_
    · constructor
      · exact Function.update_of_ne apart ..
      · exact Function.update_of_ne apart ..
      · exact Function.update_of_ne apart ..
      · apply Function.update_of_ne
        cases v with
        | none => simp [home]
        | some j => simpa [home] using apart
    · exact Function.update_self ..
    · exact Function.update_self ..
    · have saved : Function.update s.machine.saved (.main (some i))
          ⟨.main (some i), .constructed, none⟩ (.task fiber) = s.machine.saved (.task fiber) :=
        Function.update_of_ne (by simp) ..
      exact (inv.suspended fiber).frame saved known (fun ran => ran)
    · exact inv.keeps rfl (move_executing _ _ _ executes) rfl (Or.inl (slotOf_home on (by simp)))
  · exact absurd caller (other (serves.caller caller))

/-- The callback of the root fiber ends. -/
theorem runEnds_inv (inv : Inv userCaller trace s) (executes : s.machine.executing none = some here)
    (on : here.stack = home none) (serves : Serves userCaller s none) :
    Inv userCaller (trace ++ [(s, .thread none .checkStopping)])
      (s.callbackEnds none here.stack false) := by
  unfold callbackEnds
  split
  · rename_i fiber entered
    have root := (inv.cur _ _ entered).trans on
    subst root
    have closed : ∀ fiber, s.closed fiber = true → s.closed fiber = true := fun _ ran => ran
    refine inv.moved executes rfl (fun _ known => known) closed rfl (fun _ => nofun)
      (Or.inl ⟨rfl, on, serves.current, serves.scheduler, serves.caller⟩) nofun inv.cur ?_
    exact inv.keeps rfl (move_executing _ _ _ executes) rfl (Or.inl (slotOf_home on nofun))
  · exact inv.exited rfl (fun _ => nofun)

/-- The callback of a fiber returns or throws. -/
theorem finish_inv {fiber : F} (threw : Bool) (inv : Inv userCaller trace s)
    (executes : s.machine.executing w = some here) (on : here.stack = .task fiber)
    (entered : s.cur (.task fiber) = some (.task fiber))
    (carries : Carries userCaller trace s w fiber) :
    Inv userCaller (trace ++ [(s, .thread w (.finish threw))])
      (s.callbackEnds w here.stack threw) := by
  unfold callbackEnds
  rw [on, entered]
  let last : FiberState := if threw then .except else .term
  let state := Function.update s.state (.task fiber) last
  let t : Control n F := { s with state := state }.move w .ended
  have machine : t.machine = s.machine.move w .ended := rfl
  have mine : t.closed fiber = true := by
    change (Function.update s.state (.task fiber) last (.task fiber)).finished = true
    rw [Function.update_self]
    cases threw <;> rfl
  have others : ∀ other, other ≠ fiber → t.closed other = s.closed other := by
    intro other apart
    change (Function.update s.state (.task fiber) last (.task other)).finished = _
    rw [Function.update_of_ne (by simpa using apart)]
    rfl
  have closed : ∀ other, s.closed other = true → t.closed other = true := by
    intro other before
    by_cases same : other = fiber
    · rw [same]
      exact mine
    · rwa [others other same]
  have begun := pool_begun executes on
  have slot : slotOf { here with point := .ended } = s.pool.slot w := by
    rw [pool_slot executes, slotOf_moved_task on]
  refine inv.moved executes machine (fun _ known => known) closed rfl (fun _ => nofun) ?_ nofun
    inv.cur ?_
  · right
    exact ⟨fiber, on, entered, mine, carries.frame (Same.of_move machine w) (lastResume_none rfl)
      (lastSwapIn_quiet (by simp))⟩
  · have pool : t.pool = s.pool := by
      rw [pool_update (move_executing _ _ _ executes), slot, Function.update_eq_self]
      rfl
    rw [pool]
    exact inv.single.close begun others

/-- `MainFunc` stores the fiber that it is the code of. -/
theorem enter_cur (inv : Inv userCaller trace s) (fiber : FiberId n F) :
    (∀ stack, s.cur stack = some stack →
      Function.update s.cur fiber (some fiber) stack = some stack) ∧
    ∀ stack own, Function.update s.cur fiber (some fiber) stack = some own → own = stack := by
  constructor
  · intro stack entered
    rw [Function.update_apply]
    split
    · rename_i same
      rw [same]
    · exact entered
  · intro stack own stored
    rw [Function.update_apply] at stored
    split at stored
    · rename_i same
      rw [same]
      exact (Option.some.inj stored).symm
    · exact inv.cur stack own stored

theorem enterRoot_inv (inv : Inv userCaller trace s)
    (executes : s.machine.executing none = some here) (on : here.stack = home none)
    (serves : Serves userCaller s none) :
    Inv userCaller (trace ++ [(s, .thread none .enter)])
      ({ s with cur := Function.update s.cur here.stack (some .root) }.move none .begins) := by
  obtain ⟨known, truth⟩ := enter_cur inv .root
  rw [on]
  refine inv.moved executes rfl known (fun _ ran => ran) rfl (fun _ => nofun)
    (Or.inr ⟨rfl, on, serves.current, serves.scheduler, serves.caller⟩) nofun truth ?_
  exact inv.keeps rfl (move_executing _ _ _ executes) rfl (Or.inl (slotOf_home on nofun))

theorem enter_inv {fiber : F} (inv : Inv userCaller trace s)
    (executes : s.machine.executing w = some here) (on : here.stack = .task fiber)
    (carries : Carries userCaller trace s w fiber) :
    Inv userCaller (trace ++ [(s, .thread w .enter)])
      ({ s with cur := Function.update s.cur here.stack (some (.task fiber)) }.move w .body) := by
  obtain ⟨known, truth⟩ := enter_cur inv (.task fiber)
  rw [on]
  have slot : slotOf { here with point := .body } = s.pool.slot w := by
    rw [pool_slot executes, slotOf_moved_task on]
  have placed : Placed userCaller (trace ++ [(s, .thread w .enter)])
      ({ s with cur := Function.update s.cur (.task fiber) (some (.task fiber)) }.move w .body) w
      { here with point := .body } :=
    ⟨fiber, on, Function.update_self .., carries.frame (Same.of_move rfl w) (lastResume_none rfl)
      (lastSwapIn_quiet (by simp))⟩
  refine inv.moved executes rfl known (fun _ ran => ran) rfl (fun _ => nofun) placed nofun truth ?_
  exact inv.keeps rfl (move_executing _ _ _ executes) rfl (Or.inr slot)

/-- `GetThis` in the code of the user: nothing, or a main fiber for the caller. -/
theorem getThis_inv (inv : Inv userCaller trace s) (executes : s.machine.executing w = some here)
    (user : here.point.user = true) :
    Inv userCaller (trace ++ [(s, .thread w .getThis)]) (s.getThis w).1 := by
  cases current : s.machine.current w with
  | some fiber =>
    rw [getThis_known current]
    exact inv.queued rfl rfl rfl rfl (by simp) inv.single
  | none =>
    rw [getThis_fresh current]
    cases place : here.point with
    | owner pc =>
      obtain ⟨rfl, on, apart, owns⟩ := inv.at_owner executes place
      have plain : userCaller = false := by
        cases caller : userCaller with
        | false => rfl
        | true => simp [(owns.pointers caller).1] at current
      have still : s.machine.executing = Function.update s.machine.executing none (some here) := by
        rw [← executes, Function.update_eq_self]
      have known : ∀ stack, s.cur stack = some stack → s.cur stack = some stack :=
        fun _ entered => entered
      subst plain
      refine inv.acted executes still (fun v elsewhere => ?_) known (fun _ ran => ran)
        (fun _ _ _ _ => by simp [resumed, resumption]) (fun _ _ => by simp) ?_ ?_
        (fun fiber => ?_) inv.cur inv.single
      · constructor
        · exact Function.update_of_ne elsewhere ..
        · exact Function.update_of_ne elsewhere ..
        · rfl
        · apply Function.update_of_ne
          cases v <;> simp [home]
      · unfold Placed
        rw [place]
        exact ⟨rfl, on, apart, by simp, by simp⟩
      · intro pc at_pc
        exact ⟨pc, at_pc, fun _ late => late⟩
      · have saved : Function.update s.machine.saved (.main none) ⟨.main none, .constructed, none⟩
            (.task fiber) = s.machine.saved (.task fiber) := Function.update_of_ne (by simp) ..
        exact (inv.suspended fiber).frame saved known (fun ran => ran)
    | body =>
      obtain ⟨_, _, _, carries⟩ := inv.in_body executes place
      simp [carries.current] at current
    | _ =>
      rw [place] at user
      cases user

/-- Every step of a disciplined run keeps the threads, the pointers and the contexts in
order. -/
theorem inv_step (inv : Inv userCaller trace s) (disciplined : Disciplined s e)
    (step : Step userCaller s e t) : Inv userCaller (trace ++ [(s, e)]) t := by
  cases step
  case outside fiber =>
    exact inv.queued rfl rfl rfl rfl (fun _ => nofun) (inv.pushes disciplined rfl rfl rfl)
  case walk executes walks => exact walks.inv inv executes disciplined rfl rfl rfl rfl
  case spawn executes at_owner inside => exact spawn_inv inv executes at_owner inside
  case callRoot executes at_owner caller =>
    subst caller
    exact callRoot_inv inv executes at_owner
  case beginRoot here executes begins caller =>
    rcases inv.at_begin executes begins with ⟨worker, _⟩ | ⟨_, on, serves⟩
    · exact absurd rfl worker
    · refine inv.moved executes rfl (fun _ known => known) (fun _ ran => ran) rfl (fun _ => nofun)
        ⟨on, serves.current, serves.scheduler, serves.caller⟩ nofun inv.cur ?_
      exact inv.keeps rfl (move_executing _ _ _ executes) rfl (Or.inl (slotOf_home on nofun))
  case begin executes begins other => exact begin_inv inv executes begins other
  case swapIn executes held => exact swapIn_inv inv executes held
  case leave w v here executes null _ on_thread =>
    obtain ⟨on, serves⟩ := inv.in_run executes null trivial
    have worker : w ≠ none := by
      rintro rfl
      rw [on] at on_thread
      cases on_thread
    refine inv.moved executes rfl (fun _ known => known) (fun _ ran => ran) rfl (fun _ => nofun)
      ⟨worker, on, serves.current, serves.scheduler, serves.caller⟩ nofun inv.cur ?_
    exact inv.keeps rfl (move_executing _ _ _ executes) rfl (Or.inl (slotOf_home on nofun))
  case again w here executes null _ =>
    obtain ⟨on, serves⟩ := inv.in_run executes null trivial
    refine inv.moved executes rfl (fun _ known => known) (fun _ ran => ran) rfl (fun _ => nofun)
      ⟨on, serves.current, serves.scheduler, serves.caller⟩ nofun inv.cur ?_
    exact inv.keeps rfl (move_executing _ _ _ executes) rfl (Or.inl (slotOf_home on nofun))
  case runEnds w here executes null _ on_fiber =>
    obtain ⟨on, serves⟩ := inv.in_run executes null trivial
    cases w with
    | none => exact runEnds_inv inv executes on serves
    | some i => exact absurd on (on_fiber (some i))
  case enterRoot w here executes entry this =>
    rcases inv.at_entry executes entry with ⟨rfl, on, serves⟩ | ⟨fiber, on, carries⟩
    · rw [getThis_known serves.current]
      exact enterRoot_inv inv executes on serves
    · rw [getThis_known carries.current] at this
      cases this
  case enter w here fiber executes entry this =>
    rcases inv.at_entry executes entry with ⟨rfl, on, serves⟩ | ⟨own, on, carries⟩
    · rw [getThis_known serves.current] at this
      cases this
    · rw [getThis_known carries.current] at this ⊢
      cases this
      exact enter_inv inv executes on carries
  case enterNone w v here executes entry this =>
    rcases inv.at_entry executes entry with ⟨rfl, on, serves⟩ | ⟨own, on, carries⟩
    · rw [getThis_known serves.current] at this
      cases this
    · rw [getThis_known carries.current] at this
      cases this
  case getThis executes user => exact getThis_inv inv executes user
  case yield w here executes user =>
    have inside : here.point = .body := by simpa [Disciplined, point, executes] using disciplined
    obtain ⟨fiber, on, entered, carries⟩ := inv.in_body executes inside
    rw [getThis_known carries.current, inside]
    exact swapOut_inv inv executes on carries rfl nofun (Or.inl ⟨rfl, entered⟩)
  case finish w here threw executes inside =>
    obtain ⟨fiber, on, entered, carries⟩ := inv.in_body executes inside
    exact finish_inv threw inv executes on entered carries
  case endMain w here fiber executes ended cur =>
    rcases inv.at_end executes ended with ⟨rfl, on, serves⟩ | ⟨own, on, _, ran, carries⟩
    · obtain rfl : fiber = .root := (inv.cur _ _ cur).trans on
      exact rootEnds_inv inv executes on serves
    · obtain rfl : fiber = .task own := (inv.cur _ _ cur).trans on
      exact swapOut_inv inv executes on carries rfl nofun (Or.inr ran)
  case endLost w here executes ended cur =>
    rcases inv.at_end executes ended with ⟨rfl, _, _⟩ | ⟨own, on, entered, _, _⟩
    · exact inv.exited rfl (fun _ => nofun)
    · rw [on, entered] at cur
      cases cur
  case fallOff w here executes behind =>
    obtain ⟨rfl, _, _⟩ := inv.behind_end executes behind
    exact inv.exited rfl (fun _ => nofun)
  case perform | reset => exact disciplined.elim

end Steps

section Plain

variable {trace : List (Control n F × Event n F)} {s t : Control n F} {e : Event n F}
  {w : WorkerId n}

omit [DecidableEq F] in
theorem Serves.worker (serves : Serves false s w) : ∃ i, w = some i := by
  cases w with
  | none => exact absurd (serves.caller rfl) nofun
  | some i => exact ⟨i, rfl⟩

theorem Carries.worker {fiber : F} (carries : Carries false trace s w fiber) : ∃ i, w = some i := by
  cases w with
  | none => exact absurd (carries.caller rfl) nofun
  | some i => exact ⟨i, rfl⟩

/-- The steps of a disciplined run without `user_caller`, each with what is known there. -/
inductive Plain (trace : List (Control n F × Event n F)) (s : Control n F) :
    Event n F → Control n F → Prop
  | outside (fiber : Option F)
      (resting : ∀ own ∈ fiber, TaskPool.Resting s.pool s.closed own) :
      Plain trace s (.outside fiber) { s with fibers := s.fibers ++ [fiber] }
  | owner {here : Context (FiberId n F) (Point F)} {action : Act n F} {pc after : OwnerPc}
      (stopping : Bool) (executes : s.machine.executing none = some here)
      (on : here.stack = .main none) (at_owner : here.point = .owner pc)
      (calls : action ∈
        [.start, .startReturns, .stop, .notifyAll, .swapThreads, .join, .stopReturns]) :
      Plain trace s (.thread none action)
        ({ s with stopping := stopping }.move none (.owner after))
  | spawn {here : Context (FiberId n F) (Point F)} {created : Nat}
      (executes : s.machine.executing none = some here)
      (at_owner : here.point = .owner (.starting created)) (inside : created < n) :
      Plain trace s (.thread none .spawn)
        { s with
          machine := (s.machine.move none (.owner (.starting (created + 1)))).setExecuting
            (some ⟨created, inside⟩) (some ⟨.main (some ⟨created, inside⟩), .begins, none⟩) }
  | begin {i : Fin n} {here : Context (FiberId n F) (Point F)}
      (executes : s.machine.executing (some i) = some here) (on : here.stack = .main (some i))
      (begins : here.point = .begins) (fresh : s.machine.current (some i) = none) :
      Plain trace s (.thread (some i) .begin)
        ({ (s.getThis (some i)).1 with
          machine :=
            (s.getThis (some i)).1.machine.setScheduler (some i) (s.getThis (some i)).2 }.move
              (some i) .locking)
  | pop {i : Fin n} {here : Context (FiberId n F) (Point F)} {rest : List (Option F)} {fiber : F}
      (executes : s.machine.executing (some i) = some here) (on : here.stack = .main (some i))
      (at_lock : here.point = .locking) (back : s.fibers = rest ++ [some fiber]) :
      Plain trace s (.thread (some i) .take)
        ({ s with fibers := rest }.move (some i) (.popped fiber))
  | popNull {i : Fin n} {here : Context (FiberId n F) (Point F)} {rest : List (Option F)}
      (executes : s.machine.executing (some i) = some here) (on : here.stack = .main (some i))
      (at_lock : here.point = .locking) (back : s.fibers = rest ++ [none]) :
      Plain trace s (.thread (some i) .take) ({ s with fibers := rest }.move (some i) .null)
  | nothing {i : Fin n} {here : Context (FiberId n F) (Point F)}
      (executes : s.machine.executing (some i) = some here) (on : here.stack = .main (some i))
      (at_lock : here.point = .locking) (empty : s.fibers = []) (stops : s.stopping = true) :
      Plain trace s (.thread (some i) .take) (s.move (some i) .null)
  | loop {i : Fin n} {here : Context (FiberId n F) (Point F)}
      (executes : s.machine.executing (some i) = some here) (on : here.stack = .main (some i))
      (behind : here.point = .swapped) :
      Plain trace s (.thread (some i) .loop) (s.move (some i) .locking)
  | push {i : Fin n} {here : Context (FiberId n F) (Point F)} {fiber : Option F} {own : F}
      (executes : s.machine.executing (some i) = some here) (on : here.stack = .task own)
      (inside : here.point = .body)
      (resting : ∀ other ∈ fiber, TaskPool.Resting s.pool s.closed other) :
      Plain trace s (.thread (some i) (.schedule fiber))
        ({ s with fibers := s.fibers ++ [fiber] }.move (some i) .body)
  | swapIn {i : Fin n} {here : Context (FiberId n F) (Point F)} {fiber : F}
      (executes : s.machine.executing (some i) = some here) (on : here.stack = .main (some i))
      (serves : Serves false s (some i)) (held : here.point = .popped fiber) :
      Plain trace s (.thread (some i) .swapIn)
        (s.perform (some i) here.stack .swapped (.swapIn (.task fiber)))
  | leave {i : Fin n} {here : Context (FiberId n F) (Point F)}
      (executes : s.machine.executing (some i) = some here) (on : here.stack = .main (some i))
      (null : here.point = .null) (stops : s.stopping = true) :
      Plain trace s (.thread (some i) .checkStopping) (s.move (some i) .left)
  | again {i : Fin n} {here : Context (FiberId n F) (Point F)}
      (executes : s.machine.executing (some i) = some here) (on : here.stack = .main (some i))
      (null : here.point = .null) (going : s.stopping = false) :
      Plain trace s (.thread (some i) .checkStopping) (s.move (some i) .locking)
  | enter {i : Fin n} {here : Context (FiberId n F) (Point F)} {fiber : F}
      (executes : s.machine.executing (some i) = some here) (on : here.stack = .task fiber)
      (entry : here.point = .entry) :
      Plain trace s (.thread (some i) .enter)
        ({ s with cur := Function.update s.cur here.stack (some (.task fiber)) }.move (some i)
          .body)
  | getThis {w : WorkerId n} {here : Context (FiberId n F) (Point F)}
      (executes : s.machine.executing w = some here) :
      Plain trace s (.thread w .getThis) (s.getThis w).1
  | yield {i : Fin n} {here : Context (FiberId n F) (Point F)} {fiber : F}
      (executes : s.machine.executing (some i) = some here) (on : here.stack = .task fiber)
      (inside : here.point = .body) (carries : Carries false trace s (some i) fiber) :
      Plain trace s (.thread (some i) .yield)
        (s.perform (some i) here.stack .body (.swapOut (.task fiber)))
  | finish {i : Fin n} {here : Context (FiberId n F) (Point F)} {fiber : F} (threw : Bool)
      (executes : s.machine.executing (some i) = some here) (on : here.stack = .task fiber)
      (inside : here.point = .body) :
      Plain trace s (.thread (some i) (.finish threw))
        ({ s with
          state := Function.update s.state (.task fiber) (if threw then .except else .term) }.move
            (some i) .ended)
  | endMain {i : Fin n} {here : Context (FiberId n F) (Point F)} {fiber : F}
      (executes : s.machine.executing (some i) = some here) (on : here.stack = .task fiber)
      (closed : s.closed fiber = true) (carries : Carries false trace s (some i) fiber) :
      Plain trace s (.thread (some i) .endMain)
        (s.perform (some i) here.stack .behind (.swapOut (.task fiber)))

theorem plain_step (inv : Inv false trace s) (disciplined : Disciplined s e)
    (step : Step false s e t) : Plain trace s e t := by
  cases step
  case outside fiber => exact .outside fiber disciplined
  case walk w here action fibers stopping place executes walks =>
    cases walks with
    | owner _ at_owner calls =>
      obtain ⟨rfl, on, _, _⟩ := inv.at_owner executes at_owner
      exact .owner _ executes on at_owner calls
    | pop at_lock back =>
      obtain ⟨on, serves⟩ := inv.in_run executes at_lock trivial
      obtain ⟨i, rfl⟩ := serves.worker
      exact .pop executes on at_lock back
    | popNull at_lock back =>
      obtain ⟨on, serves⟩ := inv.in_run executes at_lock trivial
      obtain ⟨i, rfl⟩ := serves.worker
      exact .popNull executes on at_lock back
    | nothing at_lock empty stops =>
      obtain ⟨on, serves⟩ := inv.in_run executes at_lock trivial
      obtain ⟨i, rfl⟩ := serves.worker
      exact .nothing executes on at_lock empty stops
    | loop behind =>
      obtain ⟨on, serves⟩ := inv.in_run executes behind trivial
      obtain ⟨i, rfl⟩ := serves.worker
      exact .loop executes on behind
    | push inside =>
      obtain ⟨own, on, _, carries⟩ := inv.in_body executes inside
      obtain ⟨i, rfl⟩ := carries.worker
      exact .push executes on inside disciplined
  case spawn executes at_owner inside =>
    obtain ⟨rfl, _⟩ := inv.at_owner executes at_owner
    exact .spawn executes at_owner inside
  case callRoot caller | beginRoot caller => cases caller
  case begin executes begins _ =>
    rcases inv.at_begin executes begins with ⟨worker, on, fresh⟩ | ⟨rfl, _, serves⟩
    · obtain ⟨i, rfl⟩ := Option.ne_none_iff_exists'.mp worker
      exact .begin executes on begins fresh
    · exact absurd (serves.caller rfl) nofun
  case swapIn executes held =>
    obtain ⟨on, serves⟩ := inv.in_run executes held trivial
    obtain ⟨i, rfl⟩ := serves.worker
    exact .swapIn executes on serves held
  case leave executes null stops _ =>
    obtain ⟨on, serves⟩ := inv.in_run executes null trivial
    obtain ⟨i, rfl⟩ := serves.worker
    exact .leave executes on null stops
  case again executes null going =>
    obtain ⟨on, serves⟩ := inv.in_run executes null trivial
    obtain ⟨i, rfl⟩ := serves.worker
    exact .again executes on null going
  case runEnds executes null _ on_fiber =>
    obtain ⟨on, serves⟩ := inv.in_run executes null trivial
    obtain ⟨i, rfl⟩ := serves.worker
    exact absurd on (on_fiber (some i))
  case enterRoot executes entry this =>
    rcases inv.at_entry executes entry with ⟨rfl, _, serves⟩ | ⟨fiber, _, carries⟩
    · exact absurd (serves.caller rfl) nofun
    · rw [getThis_known carries.current] at this
      cases this
  case enter executes entry this =>
    rcases inv.at_entry executes entry with ⟨rfl, _, serves⟩ | ⟨fiber, on, carries⟩
    · exact absurd (serves.caller rfl) nofun
    · obtain ⟨i, rfl⟩ := carries.worker
      rw [getThis_known carries.current] at this ⊢
      cases this
      exact .enter executes on entry
  case enterNone executes entry this =>
    rcases inv.at_entry executes entry with ⟨rfl, _, serves⟩ | ⟨fiber, _, carries⟩
    · exact absurd (serves.caller rfl) nofun
    · rw [getThis_known carries.current] at this
      cases this
  case getThis executes _ => exact .getThis executes
  case yield here executes _ =>
    have inside : here.point = .body := by simpa [Disciplined, point, executes] using disciplined
    obtain ⟨fiber, on, _, carries⟩ := inv.in_body executes inside
    obtain ⟨i, rfl⟩ := carries.worker
    rw [getThis_known carries.current, inside]
    exact .yield executes on inside carries
  case finish threw executes inside =>
    obtain ⟨fiber, on, entered, carries⟩ := inv.in_body executes inside
    obtain ⟨i, rfl⟩ := carries.worker
    rw [callbackEnds, on, entered]
    exact .finish threw executes on inside
  case endMain executes ended cur =>
    rcases inv.at_end executes ended with ⟨rfl, _, serves⟩ | ⟨own, on, _, ran, carries⟩
    · exact absurd (serves.caller rfl) nofun
    · cases (inv.cur _ _ cur).trans on
      obtain ⟨i, rfl⟩ := carries.worker
      exact .endMain executes on ran carries
  case endLost executes ended cur =>
    rcases inv.at_end executes ended with ⟨rfl, _, serves⟩ | ⟨own, on, entered, _⟩
    · exact absurd (serves.caller rfl) nofun
    · rw [on, entered] at cur
      cases cur
  case fallOff executes behind =>
    obtain ⟨rfl, _, serves⟩ := inv.behind_end executes behind
    exact absurd (serves.caller rfl) nofun
  case perform | reset => exact disciplined.elim

end Plain

theorem init_inv (userCaller : Bool) : Inv userCaller [] (init userCaller : Control n F) := by
  refine ⟨fun w here executes => ?_, fun w nothing => ?_, fun place pc first at_owner i _ => rfl,
    fun fiber => ⟨rfl, Or.inl rfl⟩, nofun, ?_⟩
  · cases w with
    | none =>
      cases executes
      refine ⟨rfl, rfl, nofun, fun caller => ?_, fun _ => rfl⟩
      subst caller
      exact ⟨rfl, rfl, rfl⟩
    | some i => cases executes
  · cases w with
    | none => exact Or.inl rfl
    | some i => simp [init]
  · refine ⟨by simp [pool, init], by simp [pool, init], fun fiber v w holds => ?_,
      fun w fiber given => ?_⟩
    · cases v <;> exact holds.elim
    · cases w <;> cases given

/-- `t_fiber` of a worker is the fiber whose context it executes, in `run` its own main
fiber. -/
def CurrentTrue (s : Control n F) (i : Fin n) : Prop :=
  ∀ here, s.machine.executing (some i) = some here → here.point ≠ .begins →
    s.machine.current (some i) = some here.stack ∧
      (InRun here.point → here.stack = .main (some i))

/-- The steps with which a callback or `MainFunc` gives control up. -/
def GivesUp : Act n F → Prop
  | .yield | .endMain | .fallOff => True
  | _ => False

/-- The worker is behind its last `swapIn` in its own `run`, with its main fiber as
`t_fiber`. -/
def ReturnsToRun (trace : List (Control n F × Event n F)) (t : Control n F) (i : Fin n) : Prop :=
  ∃ number, lastSwapIn trace (some i) = some number ∧
    t.machine.executing (some i) = some ⟨.main (some i), .swapped, some number⟩ ∧
    t.machine.current (some i) = some (.main (some i))

section Runs

variable {trace : List (Control n F × Event n F)} {s t : Control n F}

theorem run_inv {userCaller : Bool}
    (run : Run (next userCaller) Disciplined (init userCaller) trace s) :
    Inv userCaller trace s :=
  run.invariant_trace (init_inv userCaller)
    (fun _ _ _ _ inv disciplined step => inv_step inv disciplined (step_of_next step))

theorem Inv.currentTrue (inv : Inv false trace s) (i : Fin n) : CurrentTrue s i := by
  intro here executes begun
  cases place : here.point with
  | owner pc => cases (inv.at_owner executes place).1
  | begins => exact absurd place begun
  | locking | popped fiber | swapped | null =>
    obtain ⟨on, serves⟩ := inv.in_run executes place trivial
    rw [on]
    exact ⟨serves.current, fun _ => rfl⟩
  | left =>
    have placed := inv.placed (some i) here executes
    unfold Placed at placed
    rw [place] at placed
    rw [placed.2.1]
    exact ⟨placed.2.2.current, fun _ => rfl⟩
  | constructed =>
    have placed := inv.placed (some i) here executes
    unfold Placed at placed
    rw [place] at placed
    exact placed.elim
  | entry =>
    rcases inv.at_entry executes place with ⟨caller, _⟩ | ⟨fiber, on, carries⟩
    · cases caller
    · rw [on]
      exact ⟨carries.current, False.elim⟩
  | body =>
    obtain ⟨fiber, on, _, carries⟩ := inv.in_body executes place
    rw [on]
    exact ⟨carries.current, False.elim⟩
  | ended =>
    rcases inv.at_end executes place with ⟨caller, _⟩ | ⟨fiber, on, _, _, carries⟩
    · cases caller
    · rw [on]
      exact ⟨carries.current, False.elim⟩
  | behind => cases (inv.behind_end executes place).1

theorem Carries.returnsToRun {i : Fin n} {fiber : F} {stack : FiberId n F} (after : Point F)
    (carries : Carries false trace s (some i) fiber) :
    ReturnsToRun trace (s.perform (some i) stack after (.swapOut (.task fiber))) i := by
  obtain ⟨number, last⟩ := Option.isSome_iff_exists.mp carries.swapped
  obtain ⟨executing, current⟩ := carries.returns after
  rw [last] at executing
  exact ⟨number, last, executing, current⟩

theorem Inv.returnsToRun {e : Event n F} (inv : Inv false trace s) {i : Fin n} {action : Act n F}
    (by_worker : e = .thread (some i) action) (gives : GivesUp action)
    (disciplined : Disciplined s e) (step : Step false s e t) : ReturnsToRun trace t i := by
  cases plain_step inv disciplined step with
  | outside => cases by_worker
  | yield executes on inside carries =>
    cases by_worker
    exact carries.returnsToRun .body
  | endMain executes on ran carries =>
    cases by_worker
    exact carries.returnsToRun .behind
  | owner | spawn =>
    injection by_worker with thread
    cases thread
  | _ =>
    cases by_worker
    exact gives.elim

/-- In every disciplined run of a scheduler without `user_caller`, whichever workers a fiber
starts, yields and ends on: `t_fiber` of each worker is the fiber that it executes, and a fiber
that yields, returns or throws gives control back to the `run` of the worker that executes
it. -/
theorem current_fiber_true (run : Run (next false) Disciplined (init false) trace s) (i : Fin n) :
    CurrentTrue s i ∧
      ∀ action t, GivesUp action → Disciplined s (.thread (some i) action) →
        next false s (.thread (some i) action) = some t → ReturnsToRun trace t i :=
  ⟨(run_inv run).currentTrue i, fun _ _ gives disciplined step =>
    (run_inv run).returnsToRun rfl gives disciplined (step_of_next step)⟩

end Runs

instance (s : Control n F) (e : Event n F) : Decidable (Disciplined s e) :=
  match e with
  | .outside fiber | .thread _ (.schedule fiber) => inferInstanceAs (Decidable (∀ own ∈ fiber,
      TaskPool.Resting s.pool s.closed own))
  | .thread _ (.perform _) | .thread _ (.reset _) => inferInstanceAs (Decidable False)
  | .thread w .yield => inferInstanceAs (Decidable (s.point w = some .body))
  | .thread _ .start | .thread _ .spawn | .thread _ .startReturns | .thread _ .stop
  | .thread _ .notifyAll | .thread _ .swapThreads | .thread _ .join | .thread _ .callRoot
  | .thread _ .stopReturns | .thread _ .begin | .thread _ .take | .thread _ .swapIn
  | .thread _ .loop | .thread _ .checkStopping | .thread _ .enter | .thread _ .getThis
  | .thread _ (.finish _) | .thread _ .endMain | .thread _ .fallOff =>
    inferInstanceAs (Decidable True)

/-- A fiber yields on one of two workers and is scheduled again. -/
def migrates : List (Event 2 Nat) :=
  [.thread none .start, .thread none .spawn, .thread none .spawn, .thread none .startReturns,
    .outside (some 7), .thread worker0 .begin, .thread worker1 .begin, .thread worker0 .take,
    .thread worker0 .swapIn, .thread worker0 .enter, .thread worker0 .yield, .outside (some 7)]

/-- It ends on the other one. -/
theorem current_fiber_true_migrates : ∃ (trace : List (Control 2 Nat × Event 2 Nat))
    (s t : Control 2 Nat), s.machine.current worker1 = some (.task 7) ∧ CurrentTrue s 1 ∧
      ReturnsToRun trace t 1 := by
  have run := Run.of_replay (show replay (guarded (next false) Disciplined) (init false)
    (migrates ++ [.thread worker1 .take, .thread worker1 .swapIn, .thread worker1 (.finish true)]) =
      some (_, _) from rfl)
  obtain ⟨known, returns⟩ := current_fiber_true run 1
  exact ⟨_, _, _, rfl, known, returns .endMain _ trivial trivial rfl⟩

end ZnetServer.Scheduler.Control
