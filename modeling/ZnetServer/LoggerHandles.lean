import ZnetServer.LoggerReconcile

set_option autoImplicit false

/- Which object a name stands for, over a whole run. -/
namespace ZnetServer.LoggerManager

open Transition

/-- The handle that a call returns, with its name. -/
def obtains (m : LoggerManager) : Op → Option (String × Nat)
  | .getLogger name => some (name, (m.getLogger name).2)
  | .createLogger name level pattern appenders outputPath =>
    some (name, (m.createLogger name level pattern appenders outputPath).2)
  | _ => none

/-- The call takes the name out of the registry, at least for a moment. -/
def Removes (name : String) : Op → Prop
  | .removeLogger own => own = name
  | .logInit newValue => newValue.find name = none
  | _ => False

section Steps

variable {m n : LoggerManager} {name : String} {l : Nat}

theorem getLogger_registered (registered : m.loggers[name]? = some l) :
    m.getLogger name = (m, l) := by
  rw [getLogger, registered]

theorem getLogger_loggers (other : String) (registered : m.loggers[name]? = some l) :
    (m.getLogger other).1.loggers[name]? = some l := by
  unfold getLogger
  split
  · exact registered
  · rename_i missing
    have apart : other ≠ name := by
      rintro rfl
      rw [missing] at registered
      cases registered
    change (m.loggers.insert other m.loggerStore.next)[name]? = _
    rw [Std.ExtTreeMap.getElem?_insert,
      if_neg (fun same => apart (Std.LawfulEqCmp.eq_of_compare same)), registered]

theorem getLogger_bound (name : String) :
    (m.getLogger name).1.loggers[name]? = some (m.getLogger name).2 := by
  unfold getLogger
  split
  · assumption
  · change (m.loggers.insert name m.loggerStore.next)[name]? = _
    rw [Std.ExtTreeMap.getElem?_insert_self]

/-- The calls below change objects and leave both members alone. -/
def SameRegistry (m n : LoggerManager) : Prop := n.loggers = m.loggers ∧ n.root = m.root

theorem SameRegistry.trans {o : LoggerManager} (first : SameRegistry m n)
    (second : SameRegistry n o) : SameRegistry m o :=
  ⟨second.1.trans first.1, second.2.trans first.2⟩

theorem foldl_sameRegistry {α : Type} {f : LoggerManager → α → LoggerManager}
    (step : ∀ m a, SameRegistry m (f m a)) (list : List α) (m : LoggerManager) :
    SameRegistry m (list.foldl f m) := by
  apply List.foldlRecOn (motive := SameRegistry m)
  · exact ⟨rfl, rfl⟩
  · intro n same a _
    exact same.trans (step n a)

theorem addNew_sameRegistry (m : LoggerManager) (l : Nat) (object : LogAppender) :
    SameRegistry m (m.addNew l object) :=
  ⟨addNew_loggers l object, addNew_root l object⟩

theorem addSome_sameRegistry (l : Nat) (m : LoggerManager) (object : Option LogAppender) :
    SameRegistry m (addSome l m object) := by
  cases object with
  | none => exact ⟨rfl, rfl⟩
  | some object => exact addNew_sameRegistry m l object

theorem updateLevel_sameRegistry (m : LoggerManager) (l : Nat) (level : LogLevel)
    (isChanged : Bool) : SameRegistry m (m.updateLevel l level isChanged).1 := by
  unfold updateLevel
  split
  · exact ⟨rfl, rfl⟩
  · split <;> exact ⟨rfl, rfl⟩

theorem updatePattern_sameRegistry (m : LoggerManager) (l : Nat) (pattern : String)
    (isChanged : Bool) : SameRegistry m (m.updatePattern l pattern isChanged).1 := by
  unfold updatePattern
  split
  · exact ⟨rfl, rfl⟩
  · split
    · have set : SameRegistry m (m.modifyLogger l fun y => { y with formatter := .new pattern }) :=
        ⟨rfl, rfl⟩
      apply set.trans
      apply foldl_sameRegistry
      intro n a
      exact ⟨rfl, rfl⟩
    · exact ⟨rfl, rfl⟩

theorem updateStdout_sameRegistry (m : LoggerManager) (l : Nat) (isChanged : Bool) :
    SameRegistry m (m.updateStdout l isChanged).1 := by
  unfold updateStdout
  split
  · exact ⟨rfl, rfl⟩
  · exact addNew_sameRegistry m l _

theorem updateFile_sameRegistry (m : LoggerManager) (l : Nat) (outputPath : String)
    (isChanged : Bool) : SameRegistry m (m.updateFile l outputPath isChanged).1 := by
  have looped : SameRegistry m
      ((m.appendersOf l).foldl (updatePath outputPath) (m, isChanged, false)).1 := by
    apply List.foldlRecOn (motive := fun t : LoggerManager × Bool × Bool => SameRegistry m t.1)
    · exact ⟨rfl, rfl⟩
    · intro t same a _
      apply same.trans
      unfold updatePath
      split
      · split <;> exact ⟨rfl, rfl⟩
      · exact ⟨rfl, rfl⟩
      · exact ⟨rfl, rfl⟩
  simp only [updateFile]
  split
  · exact looped
  · exact looped.trans (addNew_sameRegistry _ l _)

/-- On a registered name `updateLogger` works on the logger registered under it. -/
theorem updateLogger_eq (wf : WellFormed m) (registered : m.loggers[name]? = some l)
    (level : LogLevel) (pattern : String) (appenders : List String) (outputPath : String) :
    m.updateLogger name level pattern appenders outputPath =
      appenders.foldl (updateKind l outputPath)
        ((m.updateLevel l level false).1.updatePattern l pattern
          (m.updateLevel l level false).2) := by
  obtain ⟨x, found, rfl⟩ := wf.keyed name l registered
  simp only [updateLogger, registered, Option.bind_some, found, getLogger_registered registered]

theorem updateLogger_sameRegistry (wf : WellFormed m) (name : String) (level : LogLevel)
    (pattern : String) (appenders : List String) (outputPath : String) :
    SameRegistry m (m.updateLogger name level pattern appenders outputPath).1 := by
  cases registered : m.loggers[name]? with
  | none =>
      simp only [updateLogger, registered, Option.bind_none]
      exact ⟨rfl, rfl⟩
  | some l =>
      rw [updateLogger_eq wf registered]
      apply updateKinds_keep
        (fun n isChanged same => same.trans (updateStdout_sameRegistry n l isChanged))
        (fun n isChanged same => same.trans (updateFile_sameRegistry n l outputPath isChanged))
      exact (updateLevel_sameRegistry m l level false).trans
        (updatePattern_sameRegistry _ l pattern _)

/-- Constructing a logger and setting its appenders up touches no registry. -/
theorem constructed_sameRegistry (m : LoggerManager) (name : String) (level : LogLevel)
    (pattern : String) (appenders : List String) (outputPath : String) :
    SameRegistry m ((m.constructLogger name level pattern appenders outputPath).inheritSettings
      m.loggerStore.next level pattern) := by
  have made : SameRegistry (m.newLogger (.new name level pattern))
      (m.constructLogger name level pattern appenders outputPath) :=
    foldl_sameRegistry (fun n kind => addSome_sameRegistry _ n (ofKind outputPath kind)) _ _
  have base : SameRegistry m (m.newLogger (.new name level pattern)) := ⟨rfl, rfl⟩
  apply (base.trans made).trans
  apply foldl_sameRegistry
  intro n a
  exact ⟨rfl, rfl⟩

theorem createLogger_loggers (wf : WellFormed m) (other : String) (level : LogLevel)
    (pattern : String) (appenders : List String) (outputPath : String)
    (registered : m.loggers[name]? = some l) :
    (m.createLogger other level pattern appenders outputPath).1.loggers[name]? = some l := by
  unfold createLogger
  split
  · rw [(updateLogger_sameRegistry wf other level pattern appenders outputPath).1, registered]
  · rename_i missing
    have apart : other ≠ name := by
      rintro rfl
      rw [missing] at registered
      cases registered
    have same := (constructed_sameRegistry m other level pattern appenders outputPath).1
    simp only [same]
    rw [Std.ExtTreeMap.getElem?_insert,
      if_neg (fun equal => apart (Std.LawfulEqCmp.eq_of_compare equal)), registered]

theorem createLogger_bound (wf : WellFormed m) (name : String) (level : LogLevel)
    (pattern : String) (appenders : List String) (outputPath : String) :
    (m.createLogger name level pattern appenders outputPath).1.loggers[name]? =
      some (m.createLogger name level pattern appenders outputPath).2 := by
  unfold createLogger
  split
  · rename_i l registered
    rw [(updateLogger_sameRegistry wf name level pattern appenders outputPath).1]
    exact registered
  · exact Std.ExtTreeMap.getElem?_insert_self

theorem configureLogger_root (m : LoggerManager) (ld : LogDefine) :
    (m.configureLogger ld).root = m.root := by
  have kept : ∀ (n : LoggerManager) l, (n.updateAppender l ld).root = n.root := by
    intro n l
    apply List.foldlRecOn (motive := fun k : LoggerManager => k.root = n.root)
    · rfl
    · intro k same define _
      unfold addDefine
      split
      · exact same
      · exact (addSome_sameRegistry l k _).2.trans same
  unfold configureLogger
  split
  · exact kept _ _
  · exact kept _ _

theorem configureLogger_keeps (ld : LogDefine) (registered : m.loggers[name]? = some l) :
    (m.configureLogger ld).loggers[name]? = some l := by
  rw [configureLogger_loggers]
  split
  · rename_i same
    rw [same, registered, Option.getD_some]
  · exact registered

theorem logInit_keeps {newValue : LogDefineSet} (kept : newValue.find name ≠ none)
    (registered : m.loggers[name]? = some l) :
    (m.logInit newValue).loggers[name]? = some l := by
  have removed := (removeAll_spec newValue name (m := m) m.loggers.keys).1
  rw [if_neg (fun both => kept both.2), registered] at removed
  apply List.foldlRecOn (motive := fun n : LoggerManager => n.loggers[name]? = some l)
  · exact removed
  · intro n same ld _
    exact configureLogger_keeps ld same

/-- Only a removal unbinds a name. -/
theorem next_keeps {op : Op} (wf : WellFormed m) (step : next m op = some n)
    (stays : ¬ Removes name op) (registered : m.loggers[name]? = some l) :
    n.loggers[name]? = some l := by
  cases op with
  | getLogger other => exact Option.some.inj step ▸ getLogger_loggers other registered
  | createLogger other level pattern appenders outputPath =>
      exact Option.some.inj step ▸
        createLogger_loggers wf other level pattern appenders outputPath registered
  | updateLogger other level pattern appenders outputPath =>
      obtain rfl := Option.some.inj step
      rw [(updateLogger_sameRegistry wf other level pattern appenders outputPath).1, registered]
  | configureLogger ld => exact Option.some.inj step ▸ configureLogger_keeps ld registered
  | removeLogger other =>
      obtain rfl := Option.some.inj step
      rw [removeLogger, Std.ExtTreeMap.getElem?_erase,
        if_neg (fun same => stays (Std.LawfulEqCmp.eq_of_compare same)), registered]
  | logInit newValue => exact Option.some.inj step ▸ logInit_keeps stays registered
  | newAppender sink => exact Option.some.inj step ▸ registered
  | addAppender k a =>
      simp only [next] at step
      split at step
      · obtain rfl := Option.some.inj step
        unfold addAppender
        split <;> exact registered
      · cases step
  | addFresh k sink =>
      simp only [next] at step
      split at step
      · obtain rfl := Option.some.inj step
        rw [addNew_loggers, registered]
      · cases step

/-- No call replaces the root logger's pointer. -/
theorem next_root {op : Op} (wf : WellFormed m) (step : next m op = some n) : n.root = m.root := by
  cases op with
  | getLogger other =>
      obtain rfl := Option.some.inj step
      unfold getLogger
      split <;> rfl
  | createLogger other level pattern appenders outputPath =>
      obtain rfl := Option.some.inj step
      unfold createLogger
      split
      · exact (updateLogger_sameRegistry wf other level pattern appenders outputPath).2
      · exact (constructed_sameRegistry m other level pattern appenders outputPath).2
  | updateLogger other level pattern appenders outputPath =>
      obtain rfl := Option.some.inj step
      exact (updateLogger_sameRegistry wf other level pattern appenders outputPath).2
  | configureLogger ld => exact Option.some.inj step ▸ configureLogger_root m ld
  | removeLogger other => exact Option.some.inj step ▸ rfl
  | logInit newValue =>
      obtain rfl := Option.some.inj step
      apply logInit_keep (P := fun k => k.root = m.root) ?_
        (fun k ld same => (configureLogger_root k ld).trans same) rfl
      intro k name same
      rw [← same]
      unfold removeMissing
      split <;> rfl
  | newAppender sink => exact Option.some.inj step ▸ rfl
  | addAppender k a =>
      simp only [next] at step
      split at step
      · obtain rfl := Option.some.inj step
        unfold addAppender
        split <;> rfl
      · cases step
  | addFresh k sink =>
      simp only [next] at step
      split at step
      · exact Option.some.inj step ▸ addNew_root k _
      · cases step

theorem obtains_bound {op : Op} (wf : WellFormed m) (step : next m op = some n)
    (handle : obtains m op = some (name, l)) : n.loggers[name]? = some l := by
  cases op with
  | getLogger own =>
      obtain ⟨rfl, rfl⟩ := Prod.mk.inj (Option.some.inj handle)
      exact Option.some.inj step ▸ getLogger_bound own
  | createLogger own level pattern appenders outputPath =>
      obtain ⟨rfl, rfl⟩ := Prod.mk.inj (Option.some.inj handle)
      exact Option.some.inj step ▸ createLogger_bound wf own level pattern appenders outputPath
  | updateLogger | configureLogger | removeLogger | logInit | newAppender | addAppender |
      addFresh => cases handle

end Steps

section Runs

variable {trace : List (LoggerManager × Op)} {s : LoggerManager}

/-- A binding survives a run that does not remove the name. -/
theorem run_keeps {m : LoggerManager} {name : String} {l : Nat} (wf : WellFormed m)
    (registered : m.loggers[name]? = some l) (run : Run next anyStep m trace s)
    (stays : ∀ step ∈ trace, ¬ Removes name step.2) : s.loggers[name]? = some l := by
  have kept := run.invariant_trace
    (I := fun trace s => WellFormed s ∧
      ((∀ step ∈ trace, ¬ Removes name step.2) → s.loggers[name]? = some l))
    ⟨wf, fun _ => registered⟩ ?_
  · exact kept.2 stays
  · intro trace s op t before _ step
    refine ⟨next_wellFormed before.1 step, fun none_removes => ?_⟩
    have here := none_removes (s, op) (List.mem_append_right trace (List.mem_singleton_self _))
    exact next_keeps before.1 step here
      (before.2 fun earlier member => none_removes earlier (List.mem_append_left _ member))

theorem init_loggers : init.loggers["root"]? = some init.root := by
  rw [init, addNew_loggers, addNew_root, Std.ExtTreeMap.getElem?_insert_self]

/-- A name stands for an object: it is the registered one, and a definition of the name
reconfigures it. -/
def Bound (s : LoggerManager) (name : String) (l : Nat) : Prop :=
  s.loggers[name]? = some l ∧
    ∀ ld, ld.name = name → (s.configureLogger ld).viewOf l = some ld.reconciled

theorem bound_of_registered {name : String} {l : Nat} (wf : WellFormed s)
    (registered : s.loggers[name]? = some l) : Bound s name l := by
  refine ⟨registered, fun ld same => ?_⟩
  subst same
  have shown := configureLogger_view wf ld ld.name
  rw [view, configureLogger_loggers, if_pos rfl, if_pos rfl, registered, Option.getD_some,
    Option.bind_some] at shown
  exact shown

/-- A handle stays bound to its name until the name is removed, and `getRoot()` until
'root' is. -/
theorem handles_bound (run : Run next anyStep init trace s) :
    (∀ front m op back name l, trace = front ++ (m, op) :: back →
      obtains m op = some (name, l) → (∀ step ∈ back, ¬ Removes name step.2) →
      Bound s name l) ∧
    ((∀ step ∈ trace, ¬ Removes "root" step.2) → Bound s "root" s.root) := by
  have reached := reachable_wellFormed run.reachable
  refine ⟨fun front m op back name l shape handle stays => ?_, fun stays => ?_⟩
  · have whole : trace = (front ++ [(m, op)]) ++ back := by
      rw [shape, List.append_assoc, List.singleton_append]
    rw [whole] at run
    obtain ⟨middle, first, later⟩ := run.split
    obtain ⟨before, _, step⟩ := first.of_snoc
    have wf := reachable_wellFormed before.reachable
    have given := obtains_bound wf step handle
    exact bound_of_registered reached
      (run_keeps (next_wellFormed wf step) given later stays)
  · have kept := run_keeps init_wellFormed init_loggers run stays
    have root : WellFormed s ∧ s.root = init.root := run.invariant
      (I := fun s => WellFormed s ∧ s.root = init.root) ⟨init_wellFormed, rfl⟩
      fun s op t inv _ step => ⟨next_wellFormed inv.1 step, (next_root inv.1 step).trans inv.2⟩
    rw [← root.2] at kept
    exact bound_of_registered reached kept

end Runs

/-- 'net' is requested, configured, and requested again under a definition of the call's own,
while other names come and go. -/
def configuredLater : List Op :=
  [.getLogger "net", .configureLogger ⟨"old", .debug, "%m", []⟩, .logInit sampleDefines,
    .removeLogger "old", .configureLogger ⟨"net", .error, "%p %m", [{ type := "stdout" }]⟩,
    .createLogger "net" .debug "%m" ["stdout"] ""]

theorem configuredLater_keeps :
    ∀ op ∈ configuredLater, ¬ Removes "net" op ∧ ¬ Removes "root" op := by
  have listed : sampleDefines.find "net" ≠ none ∧ sampleDefines.find "root" ≠ none := by decide
  simp [configuredLater, Removes, listed]

theorem handles_bound_net : ∃ trace s, Run next anyStep init trace s ∧
    events trace = configuredLater ∧ Bound s "net" 1 ∧ Bound s "root" s.root := by
  have run := Run.of_replay (show replay (guarded next anyStep) init configuredLater =
    some ((init, .getLogger "net") :: _, _) from rfl)
  refine ⟨_, _, run, rfl, (handles_bound run).1 [] init _ _ "net" 1 rfl (by decide) ?_,
    (handles_bound run).2 ?_⟩
  · intro step member
    exact (configuredLater_keeps step.2 (List.mem_cons_of_mem _ (List.mem_map_of_mem member))).1
  · intro step member
    exact (configuredLater_keeps step.2 (List.mem_map_of_mem member)).2

/-- 'net' is requested, then configurations come without and with it, and likewise for
'root'. -/
def reload : List Op :=
  [.getLogger "net", .logInit OrderedSet.empty, .logInit sampleDefines]

/-- A name that disappears and comes back stands for another object, for the root logger
as for any other. -/
theorem removed_name_rebinds : ∃ trace s m op l k r,
    Run next anyStep init trace s ∧ (m, op) ∈ trace ∧ obtains m op = some ("net", l) ∧
    s.loggers["net"]? = some k ∧ k ≠ l ∧ s.loggers["root"]? = some r ∧ r ≠ s.root := by
  have run := Run.of_replay (show replay (guarded next anyStep) init reload = some (_, _) from rfl)
  exact ⟨_, _, init, .getLogger "net", 1, 2, 3, run, List.mem_cons_self, by decide, by decide,
    by decide, by decide, by decide⟩

end ZnetServer.LoggerManager
