import ZnetServer.LoggerManager
import ZnetServer.Transition

set_option autoImplicit false

/- What every call keeps: registered names are those of their loggers, and every
attached appender exists and has a formatter. -/
namespace ZnetServer.LoggerManager

section Fields

variable (m : LoggerManager) (l a : Nat)

@[simp] theorem modifyAppender_loggers (f : LogAppender → LogAppender) :
    (m.modifyAppender a f).loggers = m.loggers := rfl
@[simp] theorem modifyAppender_root (f : LogAppender → LogAppender) :
    (m.modifyAppender a f).root = m.root := rfl
@[simp] theorem modifyAppender_logger (f : LogAppender → LogAppender) :
    (m.modifyAppender a f).logger l = m.logger l := rfl

theorem modifyAppender_appender (b : Nat) (f : LogAppender → LogAppender) :
    (m.modifyAppender a f).appender b =
      if a = b then (m.appender a).map f else m.appender b :=
  m.appenderStore.read_modify f a b

@[simp] theorem modifyLogger_loggers (f : Logger → Logger) :
    (m.modifyLogger l f).loggers = m.loggers := rfl
@[simp] theorem modifyLogger_root (f : Logger → Logger) :
    (m.modifyLogger l f).root = m.root := rfl
@[simp] theorem modifyLogger_appender (f : Logger → Logger) :
    (m.modifyLogger l f).appender a = m.appender a := rfl

theorem modifyLogger_logger (k : Nat) (f : Logger → Logger) :
    (m.modifyLogger l f).logger k = if l = k then (m.logger l).map f else m.logger k :=
  m.loggerStore.read_modify f l k

@[simp] theorem newAppender_loggers (object : LogAppender) :
    (m.newAppender object).loggers = m.loggers := rfl
@[simp] theorem newAppender_root (object : LogAppender) :
    (m.newAppender object).root = m.root := rfl
@[simp] theorem newAppender_logger (object : LogAppender) :
    (m.newAppender object).logger l = m.logger l := rfl

theorem newAppender_appender (object : LogAppender) :
    (m.newAppender object).appender a =
      if a = m.appenderStore.next then some object else m.appender a :=
  m.appenderStore.read_alloc object a

@[simp] theorem newLogger_loggers (object : Logger) :
    (m.newLogger object).loggers = m.loggers := rfl
@[simp] theorem newLogger_root (object : Logger) : (m.newLogger object).root = m.root := rfl
@[simp] theorem newLogger_appender (object : Logger) :
    (m.newLogger object).appender a = m.appender a := rfl

theorem newLogger_logger (object : Logger) :
    (m.newLogger object).logger l =
      if l = m.loggerStore.next then some object else m.logger l :=
  m.loggerStore.read_alloc object l

variable {m}

/-- An existing appender is not the next one to be made. -/
theorem appender_ne_next {x : LogAppender} (found : m.appender a = some x) :
    a ≠ m.appenderStore.next :=
  Nat.ne_of_lt (ObjectStore.Store.read_lt found)

theorem logger_ne_next {x : Logger} (found : m.logger l = some x) : l ≠ m.loggerStore.next :=
  Nat.ne_of_lt (ObjectStore.Store.read_lt found)

/-- What `addAppender` does to a new object and its logger. -/
theorem addNew_eq {x : Logger} (object : LogAppender) (found : m.logger l = some x) :
    m.addNew l object =
      ((m.newAppender object).modifyAppender m.appenderStore.next fun y =>
        { y with formatter := y.formatter.or (some x.formatter) }).modifyLogger l fun y =>
          { y with appenders := y.appenders ++ [m.appenderStore.next] } := by
  rw [addNew, addAppender, newAppender_logger, found]

theorem addNew_logger {x : Logger} (object : LogAppender) (found : m.logger l = some x)
    (k : Nat) : (m.addNew l object).logger k =
      if l = k then some { x with appenders := x.appenders ++ [m.appenderStore.next] }
      else m.logger k := by
  rw [addNew_eq l object found, modifyLogger_logger, modifyAppender_logger,
    modifyAppender_logger, newAppender_logger, newAppender_logger, found, Option.map_some]

theorem addNew_appender {x : Logger} (object : LogAppender) (found : m.logger l = some x)
    (a : Nat) : (m.addNew l object).appender a =
      if a = m.appenderStore.next then
        some { object with formatter := object.formatter.or (some x.formatter) }
      else m.appender a := by
  rw [addNew_eq l object found, modifyLogger_appender, modifyAppender_appender,
    newAppender_appender, newAppender_appender, if_pos rfl, Option.map_some]
  by_cases last : a = m.appenderStore.next
  · rw [if_pos last.symm, if_pos last]
  · rw [if_neg (fun same => last same.symm), if_neg last, if_neg last]

@[simp] theorem addNew_loggers (object : LogAppender) :
    (m.addNew l object).loggers = m.loggers := by
  unfold addNew addAppender
  split <;> rfl

@[simp] theorem addNew_root (object : LogAppender) : (m.addNew l object).root = m.root := by
  unfold addNew addAppender
  split <;> rfl

@[simp] theorem inheritSettings_logger (level : LogLevel) (pattern : String) (k : Nat) :
    (m.inheritSettings l level pattern).logger k = m.logger k := by
  apply List.foldlRecOn (motive := fun n : LoggerManager => n.logger k = m.logger k)
  · rfl
  · intro n same a _
    rw [modifyAppender_logger, same]

end Fields

/-- What the two branches of the loop of `updateLogger` keep, the loop keeps. -/
theorem updateKinds_keep {P : LoggerManager → Prop} {l : Nat} {outputPath : String}
    (stdout : ∀ m isChanged, P m → P (m.updateStdout l isChanged).1)
    (file : ∀ m isChanged, P m → P (m.updateFile l outputPath isChanged).1)
    {s : LoggerManager × Bool} (start : P s.1) (appenders : List String) :
    P (appenders.foldl (updateKind l outputPath) s).1 := by
  apply List.foldlRecOn (motive := fun s : LoggerManager × Bool => P s.1)
  · exact start
  · intro s inv kind _
    unfold updateKind
    split
    · exact stdout s.1 s.2 inv
    · split
      · exact file s.1 s.2 inv
      · exact inv

/-- The listener of `LogInit` keeps what its two loops keep. -/
theorem logInit_keep {P : LoggerManager → Prop} {m : LoggerManager} {newValue : LogDefineSet}
    (remove : ∀ m name, P m → P (m.removeMissing newValue name))
    (configure : ∀ m ld, P m → P (m.configureLogger ld)) (start : P m) :
    P (m.logInit newValue) := by
  apply List.foldlRecOn (motive := P)
  · apply List.foldlRecOn (motive := P)
    · exact start
    · intro n inv name _
      exact remove n name inv
  · intro n inv ld _
    exact configure n ld inv

structure WellFormed (m : LoggerManager) : Prop where
  keyed : ∀ name l, m.loggers[name]? = some l → ∃ x, m.logger l = some x ∧ x.name = name
  attached : ∀ l x, m.logger l = some x → ∀ a ∈ x.appenders,
    ∃ y, m.appender a = some y ∧ y.formatter.isSome = true
  rooted : ∃ x, m.logger m.root = some x

namespace WellFormed

variable {m : LoggerManager} (wf : WellFormed m)

include wf

theorem modifyAppender (a : Nat) {f : LogAppender → LogAppender}
    (keeps : ∀ x, x.formatter.isSome = true → (f x).formatter.isSome = true) :
    WellFormed (m.modifyAppender a f) := by
  refine ⟨wf.keyed, fun l x found b member => ?_, wf.rooted⟩
  obtain ⟨y, present, formatted⟩ := wf.attached l x found b member
  rw [modifyAppender_appender]
  split
  · rename_i same
    subst same
    exact ⟨f y, by rw [present, Option.map_some], keeps y formatted⟩
  · exact ⟨y, present, formatted⟩

/-- A change that keeps the name and attaches nothing new. -/
theorem modifyLogger (l : Nat) {f : Logger → Logger} (name : ∀ x, (f x).name = x.name)
    (appenders : ∀ x, ∀ a ∈ (f x).appenders, a ∈ x.appenders) :
    WellFormed (m.modifyLogger l f) := by
  have still : ∀ k x, m.logger k = some x →
      ∃ y, (m.modifyLogger l f).logger k = some y ∧ y.name = x.name := by
    intro k x found
    rw [modifyLogger_logger]
    split
    · rename_i same
      subst same
      exact ⟨f x, by rw [found, Option.map_some], name x⟩
    · exact ⟨x, found, rfl⟩
  refine ⟨fun own k registered => ?_, fun k x found a member => ?_, ?_⟩
  · obtain ⟨x, found, named⟩ := wf.keyed own k registered
    obtain ⟨y, present, same⟩ := still k x found
    exact ⟨y, present, same.trans named⟩
  · rw [modifyLogger_logger] at found
    split at found
    · obtain ⟨y, present, rfl⟩ := Option.map_eq_some_iff.mp found
      exact wf.attached l y present a (appenders y a member)
    · exact wf.attached k x found a member
  · obtain ⟨x, found⟩ := wf.rooted
    obtain ⟨y, present, _⟩ := still m.root x found
    exact ⟨y, present⟩

theorem newAppender (object : LogAppender) : WellFormed (m.newAppender object) := by
  refine ⟨wf.keyed, fun l x found a member => ?_, wf.rooted⟩
  obtain ⟨y, present, formatted⟩ := wf.attached l x found a member
  rw [newAppender_appender, if_neg (appender_ne_next a present)]
  exact ⟨y, present, formatted⟩

theorem newLogger (object : Logger) (bare : object.appenders = []) :
    WellFormed (m.newLogger object) := by
  refine ⟨fun name l registered => ?_, fun l x found a member => ?_, ?_⟩
  · obtain ⟨x, present, named⟩ := wf.keyed name l registered
    exact ⟨x, by rw [newLogger_logger, if_neg (logger_ne_next l present), present], named⟩
  · rw [newLogger_logger] at found
    split at found
    · obtain rfl := Option.some.inj found
      rw [bare] at member
      cases member
    · exact wf.attached l x found a member
  · obtain ⟨x, present⟩ := wf.rooted
    exact ⟨x, by
      rw [newLogger_root, newLogger_logger, if_neg (logger_ne_next m.root present), present]⟩

/-- An existing appender gets a formatter before it is attached. -/
theorem addAppender (l : Nat) {a : Nat} {y : LogAppender} (present : m.appender a = some y) :
    WellFormed (m.addAppender l a) := by
  unfold LoggerManager.addAppender
  split
  · exact wf
  · rename_i x found
    have given := wf.modifyAppender a (f := fun z =>
      { z with formatter := z.formatter.or (some x.formatter) })
      (fun z _ => by simp)
    refine ⟨fun name k registered => ?_, fun k z read b member => ?_, ?_⟩
    · obtain ⟨z, read, named⟩ := wf.keyed name k registered
      rw [modifyLogger_logger]
      split
      · rename_i same
        subst same
        exact ⟨{ z with appenders := z.appenders ++ [a] },
          by rw [modifyAppender_logger, read, Option.map_some], named⟩
      · exact ⟨z, read, named⟩
    · rw [modifyLogger_logger] at read
      split at read
      · obtain ⟨old, before, rfl⟩ := Option.map_eq_some_iff.mp read
        rcases List.mem_append.mp member with earlier | last
        · exact given.attached l old before b earlier
        · obtain rfl := List.mem_singleton.mp last
          refine ⟨{ y with formatter := y.formatter.or (some x.formatter) }, ?_, by simp⟩
          rw [modifyLogger_appender, modifyAppender_appender, if_pos rfl, present,
            Option.map_some]
      · exact given.attached k z read b member
    · obtain ⟨z, read⟩ := wf.rooted
      change ∃ w, LoggerManager.logger _ m.root = some w
      rw [modifyLogger_logger]
      split
      · rename_i same
        subst same
        exact ⟨_, by rw [modifyAppender_logger, read, Option.map_some]⟩
      · exact ⟨z, read⟩

theorem addNew (l : Nat) (object : LogAppender) : WellFormed (m.addNew l object) := by
  refine (wf.newAppender object).addAppender l (y := object) ?_
  rw [newAppender_appender, if_pos rfl]

theorem addSome (l : Nat) (object : Option LogAppender) :
    WellFormed (LoggerManager.addSome l m object) := by
  cases object with
  | none => exact wf
  | some object => exact wf.addNew l object

/-- A logger is registered under its own name. -/
theorem register {l : Nat} {x : Logger} (found : m.logger l = some x) :
    WellFormed { m with loggers := m.loggers.insert x.name l } := by
  refine ⟨fun name k registered => ?_, wf.attached, wf.rooted⟩
  rw [Std.ExtTreeMap.getElem?_insert] at registered
  split at registered
  · rename_i same
    obtain rfl := Std.LawfulEqCmp.eq_of_compare same
    obtain rfl := Option.some.inj registered
    exact ⟨x, found, rfl⟩
  · exact wf.keyed name k registered

theorem removeLogger (name : String) : WellFormed (m.removeLogger name) := by
  refine ⟨fun other l registered => wf.keyed other l ?_, wf.attached, wf.rooted⟩
  rw [LoggerManager.removeLogger, Std.ExtTreeMap.getElem?_erase] at registered
  split at registered
  · cases registered
  · exact registered

theorem getLogger (name : String) : WellFormed (m.getLogger name).1 := by
  unfold LoggerManager.getLogger
  split
  · exact wf
  · have made := wf.newLogger
      { Logger.new name .debug defaultPattern with root := some m.root } rfl
    exact made.register (by rw [newLogger_logger, if_pos rfl])

theorem updateLevel (l : Nat) (level : LogLevel) (isChanged : Bool) :
    WellFormed (m.updateLevel l level isChanged).1 := by
  unfold LoggerManager.updateLevel
  split
  · exact wf
  · split
    · exact wf.modifyLogger l (fun _ => rfl) (fun _ _ member => member)
    · exact wf

theorem updatePattern (l : Nat) (pattern : String) (isChanged : Bool) :
    WellFormed (m.updatePattern l pattern isChanged).1 := by
  unfold LoggerManager.updatePattern
  split
  · exact wf
  · split
    · apply List.foldlRecOn (motive := WellFormed)
      · exact wf.modifyLogger l (fun _ => rfl) (fun _ _ member => member)
      · intro n inv a _
        exact inv.modifyAppender a (fun _ _ => rfl)
    · exact wf

theorem updateStdout (l : Nat) (isChanged : Bool) :
    WellFormed (m.updateStdout l isChanged).1 := by
  unfold LoggerManager.updateStdout
  split
  · exact wf
  · exact wf.addNew l _

theorem updateFile (l : Nat) (outputPath : String) (isChanged : Bool) :
    WellFormed (m.updateFile l outputPath isChanged).1 := by
  have looped : WellFormed
      ((m.appendersOf l).foldl (updatePath outputPath) (m, isChanged, false)).1 := by
    apply List.foldlRecOn (motive := fun s : LoggerManager × Bool × Bool => WellFormed s.1)
    · exact wf
    · intro s inv a _
      unfold updatePath
      split
      · split
        · exact inv.modifyAppender a (fun _ formatted => formatted)
        · exact inv
      · exact inv
      · exact inv
  simp only [LoggerManager.updateFile]
  split
  · exact looped
  · exact looped.addNew l _

theorem updateLogger (name : String) (level : LogLevel) (pattern : String)
    (appenders : List String) (outputPath : String) :
    WellFormed (m.updateLogger name level pattern appenders outputPath).1 := by
  unfold LoggerManager.updateLogger
  split
  · exact wf
  · rename_i found _
    apply updateKinds_keep (fun _ isChanged inv => inv.updateStdout _ isChanged)
      (fun _ isChanged inv => inv.updateFile _ outputPath isChanged)
    exact ((wf.getLogger found.name).updateLevel _ level false).updatePattern _ pattern _

omit wf in
theorem constructLogger (wf : WellFormed m) (name : String) (level : LogLevel)
    (pattern : String) (appenders : List String) (outputPath : String) :
    WellFormed (m.constructLogger name level pattern appenders outputPath) ∧
      ∃ x, (m.constructLogger name level pattern appenders outputPath).logger
        m.loggerStore.next = some x ∧ x.name = name := by
  apply List.foldlRecOn (motive := fun n : LoggerManager => WellFormed n ∧
    ∃ x, n.logger m.loggerStore.next = some x ∧ x.name = name)
  · refine ⟨wf.newLogger _ rfl, Logger.new name level pattern, ?_, rfl⟩
    rw [newLogger_logger, if_pos rfl]
  · intro n inv kind _
    obtain ⟨kept, x, found, named⟩ := inv
    refine ⟨kept.addSome _ _, ?_⟩
    cases ofKind outputPath kind with
    | none => exact ⟨x, found, named⟩
    | some object =>
        refine ⟨{ x with appenders := x.appenders ++ [n.appenderStore.next] }, ?_, named⟩
        change (n.addNew _ object).logger _ = _
        rw [addNew_logger _ object found, if_pos rfl]

theorem inheritSettings (l : Nat) (level : LogLevel) (pattern : String) :
    WellFormed (m.inheritSettings l level pattern) := by
  apply List.foldlRecOn (motive := WellFormed)
  · exact wf
  · intro n inv a _
    exact inv.modifyAppender a (fun _ _ => rfl)

theorem createLogger (name : String) (level : LogLevel) (pattern : String)
    (appenders : List String) (outputPath : String) :
    WellFormed (m.createLogger name level pattern appenders outputPath).1 := by
  unfold LoggerManager.createLogger
  split
  · exact wf.updateLogger name level pattern appenders outputPath
  · obtain ⟨made, x, found, rfl⟩ := wf.constructLogger name level pattern appenders outputPath
    refine (made.inheritSettings m.loggerStore.next level pattern).register ?_
    rw [inheritSettings_logger]
    exact found

theorem updateAppender (l : Nat) (ld : LogDefine) : WellFormed (m.updateAppender l ld) := by
  apply List.foldlRecOn (motive := WellFormed)
  · exact wf.modifyLogger l (fun _ => rfl) (fun _ _ member => by cases member)
  · intro n inv define _
    unfold addDefine
    split
    · exact inv
    · exact inv.addSome l _

theorem configureLogger (ld : LogDefine) : WellFormed (m.configureLogger ld) := by
  unfold LoggerManager.configureLogger
  split
  · apply WellFormed.updateAppender
    exact wf.modifyLogger _ (fun _ => rfl) (fun _ _ member => member)
  · have made := wf.newLogger (.new ld.name ld.level ld.formatter) rfl
    exact (made.register (by rw [newLogger_logger, if_pos rfl])).updateAppender _ ld

theorem removeMissing (newValue : LogDefineSet) (name : String) :
    WellFormed (m.removeMissing newValue name) := by
  unfold LoggerManager.removeMissing
  split
  · exact wf
  · exact wf.removeLogger name

theorem logInit (newValue : LogDefineSet) : WellFormed (m.logInit newValue) :=
  logInit_keep (fun _ name inv => inv.removeMissing newValue name)
    (fun _ ld inv => inv.configureLogger ld) wf

end WellFormed

theorem init_wellFormed : WellFormed init := by
  refine WellFormed.addNew ⟨fun name l registered => ?_, fun l x found a member => ?_, ?_⟩ 0 _
  · simp only [Std.ExtTreeMap.getElem?_insert, Std.ExtTreeMap.getElem?_empty] at registered
    split at registered
    · rename_i same
      obtain rfl := Std.LawfulEqCmp.eq_of_compare same
      obtain rfl := Option.some.inj registered
      exact ⟨_, rfl, rfl⟩
    · cases registered
  · cases l with
    | zero =>
        obtain rfl := Option.some.inj found
        cases member
    | succ l => cases found
  · exact ⟨_, rfl⟩

/-- The calls that reach the manager's loggers. -/
inductive Op where
  | getLogger (name : String)
  | createLogger (name : String) (level : LogLevel) (pattern : String)
      (appenders : List String) (outputPath : String)
  | updateLogger (name : String) (level : LogLevel) (pattern : String)
      (appenders : List String) (outputPath : String)
  | configureLogger (ld : LogDefine)
  | removeLogger (name : String)
  | logInit (newValue : LogDefineSet)
  /-- An appender that no logger has yet. -/
  | newAppender (sink : Sink)
  /-- `addAppender` through any pointers that somebody holds. -/
  | addAppender (l a : Nat)
  /-- `addAppender` of an appender made for this call. -/
  | addFresh (l : Nat) (sink : Sink)

/-- One call; a pointer must be one to an object. -/
def next (m : LoggerManager) : Op → Option LoggerManager
  | .getLogger name => some (m.getLogger name).1
  | .createLogger name level pattern appenders outputPath =>
    some (m.createLogger name level pattern appenders outputPath).1
  | .updateLogger name level pattern appenders outputPath =>
    some (m.updateLogger name level pattern appenders outputPath).1
  | .configureLogger ld => some (m.configureLogger ld)
  | .removeLogger name => some (m.removeLogger name)
  | .logInit newValue => some (m.logInit newValue)
  | .newAppender sink => some (m.newAppender (.new sink))
  | .addAppender l a =>
    if (m.logger l).isSome && (m.appender a).isSome then some (m.addAppender l a) else none
  | .addFresh l sink => if (m.logger l).isSome then some (m.addNew l (.new sink)) else none

theorem next_wellFormed {m n : LoggerManager} {op : Op} (wf : WellFormed m)
    (step : next m op = some n) : WellFormed n := by
  cases op with
  | getLogger name => exact Option.some.inj step ▸ wf.getLogger name
  | createLogger name level pattern appenders outputPath =>
      exact Option.some.inj step ▸ wf.createLogger name level pattern appenders outputPath
  | updateLogger name level pattern appenders outputPath =>
      exact Option.some.inj step ▸ wf.updateLogger name level pattern appenders outputPath
  | configureLogger ld => exact Option.some.inj step ▸ wf.configureLogger ld
  | removeLogger name => exact Option.some.inj step ▸ wf.removeLogger name
  | logInit newValue => exact Option.some.inj step ▸ wf.logInit newValue
  | newAppender sink => exact Option.some.inj step ▸ wf.newAppender _
  | addAppender l a =>
      simp only [next] at step
      split at step
      · rename_i present
        obtain ⟨y, found⟩ := Option.isSome_iff_exists.mp (Bool.and_eq_true_iff.mp present).2
        exact Option.some.inj step ▸ wf.addAppender l found
      · cases step
  | addFresh l sink =>
      simp only [next] at step
      split at step
      · exact Option.some.inj step ▸ wf.addNew l _
      · cases step

theorem reachable_wellFormed {m : LoggerManager} (reachable : Transition.Reachable next init m) :
    WellFormed m := by
  obtain ⟨trace, run⟩ := reachable
  exact run.invariant init_wellFormed (fun _ _ _ wf _ step => next_wellFormed wf step)

end ZnetServer.LoggerManager
