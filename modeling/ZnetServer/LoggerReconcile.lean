import ZnetServer.LogYaml

set_option autoImplicit false

/- The listener of `LogInit` as a function from definitions to loggers, whatever was
registered before. -/
namespace ZnetServer

/-- The class of appender that a definition asks for; other types ask for none. -/
def LogAppenderDefine.sink (define : LogAppenderDefine) : Option Sink :=
  match define.type with
  | "file" => some (.file define.path)
  | "stdout" => some .stdout
  | _ => none

/-- The appender's own level or else the logger's. -/
def LogDefine.levelOf (ld : LogDefine) (define : LogAppenderDefine) : LogLevel :=
  if define.level = .unknow then ld.level else define.level

/-- The appender's own pattern or else the logger's. -/
def LogDefine.patternOf (ld : LogDefine) (define : LogAppenderDefine) : String :=
  if define.formatter = "" then ld.formatter else define.formatter

/-- The appender that a definition asks for. -/
def LogDefine.wants (ld : LogDefine) (define : LogAppenderDefine) : Option LogAppender :=
  define.sink.map fun sink => {
    sink := sink
    level := ld.levelOf define
    formatter := some (.new (ld.patternOf define))
    hasCustomFormatter := define.formatter != "" }

/-- The logger that a definition asks for. -/
def LogDefine.reconciled (ld : LogDefine) : LoggerView where
  level := ld.level
  formatter := .new ld.formatter
  appenders := ld.appender.filterMap ld.wants

/-- The definition of a name. -/
def LogDefineSet.find (defines : LogDefineSet) (name : String) : Option LogDefine :=
  defines.toList.find? (·.name = name)

namespace LoggerManager

theorem ofDefine_wants (ld : LogDefine) (define : LogAppenderDefine) :
    ofDefine ld (.new ld.formatter) define = ld.wants define := by
  have level : (if define.hasCustomLevel = true then define.level else ld.level) =
      ld.levelOf define := by
    by_cases unset : define.level = .unknow <;>
      simp [LogAppenderDefine.hasCustomLevel, LogDefine.levelOf, unset]
  have formatter : (if define.hasCustomFormatter = true then LogFormatter.new define.formatter
      else .new ld.formatter) = .new (ld.patternOf define) := by
    by_cases unset : define.formatter = "" <;>
      simp [LogAppenderDefine.hasCustomFormatter, LogDefine.patternOf, unset]
  have sink : (if define.type = "file" then some (Sink.file define.path)
      else if define.type = "stdout" then some .stdout else none) = define.sink := by
    unfold LogAppenderDefine.sink
    symm
    split
    · rename_i file
      rw [if_pos file]
    · rename_i stdout
      rw [if_neg (by rw [stdout]; decide), if_pos stdout]
    · rename_i file stdout
      rw [if_neg file, if_neg stdout]
  simp only [ofDefine, LogDefine.wants, sink, level, formatter]
  rfl

/-- Only the logger `l` and objects that were made meanwhile differ. -/
structure Touches (l : Nat) (m n : LoggerManager) : Prop where
  loggers : n.loggers = m.loggers
  logger : ∀ k, k ≠ l → n.logger k = m.logger k
  appender : ∀ a x, m.appender a = some x → n.appender a = some x

namespace Touches

variable {l : Nat} {m n o : LoggerManager}

theorem refl (l : Nat) (m : LoggerManager) : Touches l m m :=
  ⟨rfl, fun _ _ => rfl, fun _ _ found => found⟩

theorem trans (first : Touches l m n) (second : Touches l n o) : Touches l m o where
  loggers := second.loggers.trans first.loggers
  logger := fun k apart => (second.logger k apart).trans (first.logger k apart)
  appender := fun a x found => second.appender a x (first.appender a x found)

theorem resolve (touches : Touches l m n) {appenders : List Nat}
    (present : ∀ a ∈ appenders, ∃ y, m.appender a = some y) :
    n.resolve appenders = m.resolve appenders := by
  apply List.filterMap_congr
  intro a member
  obtain ⟨y, found⟩ := present a member
  rw [found, touches.appender a y found]

/-- The other loggers look as before. -/
theorem viewOf (touches : Touches l m n) (wf : WellFormed m) {k : Nat} (apart : k ≠ l) :
    n.viewOf k = m.viewOf k := by
  unfold LoggerManager.viewOf
  rw [touches.logger k apart]
  cases found : m.logger k with
  | none => rfl
  | some x =>
      have same : n.resolve x.appenders = m.resolve x.appenders :=
        touches.resolve fun a member => by
          obtain ⟨y, present, _⟩ := wf.attached k x found a member
          exact ⟨y, present⟩
      rw [Option.map_some, Option.map_some, same]

end Touches

section Steps

variable {m : LoggerManager} {l : Nat} {x : Logger}

theorem modifyLogger_touches (f : Logger → Logger) : Touches l m (m.modifyLogger l f) where
  loggers := rfl
  logger := fun k apart => by rw [modifyLogger_logger, if_neg (fun same => apart same.symm)]
  appender := fun _ _ found => found

theorem addNew_touches (object : LogAppender) (found : m.logger l = some x) :
    Touches l m (m.addNew l object) where
  loggers := addNew_loggers l object
  logger := fun k apart => by
    rw [addNew_logger l object found, if_neg (fun same => apart same.symm)]
  appender := fun a y present => by
    rw [addNew_appender l object found, if_neg (appender_ne_next a present), present]

/-- The loop of `updateAppender` appends what the definitions ask for. -/
theorem addDefines (ld : LogDefine) (defines : List LogAppenderDefine)
    (found : m.logger l = some x) (present : ∀ a ∈ x.appenders, ∃ y, m.appender a = some y) :
    Touches l m (defines.foldl (addDefine l ld) m) ∧
    ∃ added, (defines.foldl (addDefine l ld) m).logger l =
        some { x with appenders := x.appenders ++ added } ∧
      (defines.foldl (addDefine l ld) m).resolve (x.appenders ++ added) =
        m.resolve x.appenders ++ defines.filterMap (ofDefine ld x.formatter) := by
  induction defines generalizing m x with
  | nil =>
      exact ⟨Touches.refl l m, [], by rw [List.append_nil]; exact found, by simp⟩
  | cons define rest ih =>
      rw [List.foldl_cons]
      have step : addDefine l ld m define = addSome l m (ofDefine ld x.formatter define) := by
        rw [addDefine, found]
      rw [step]
      cases made : ofDefine ld x.formatter define with
      | none =>
          rw [List.filterMap_cons_none made]
          exact ih found present
      | some object =>
          have formatted : object.formatter.or (some x.formatter) = object.formatter := by
            obtain ⟨sink, _, rfl⟩ := Option.map_eq_some_iff.mp made
            rfl
          rw [show addSome l m (some object) = m.addNew l object from rfl]
          have touches := addNew_touches object found
          have here := addNew_logger l object found l
          rw [if_pos rfl] at here
          have last := addNew_appender l object found m.appenderStore.next
          rw [if_pos rfl, formatted] at last
          obtain ⟨later, added, logger, resolved⟩ := ih here (by
            intro a member
            rcases List.mem_append.mp member with old | new
            · obtain ⟨y, before⟩ := present a old
              exact ⟨y, touches.appender a y before⟩
            · rw [List.mem_singleton.mp new]
              exact ⟨object, last⟩)
          refine ⟨touches.trans later, m.appenderStore.next :: added, ?_, ?_⟩
          · rw [logger, List.append_assoc, List.singleton_append]
          · have grown : (m.addNew l object).resolve (x.appenders ++ [m.appenderStore.next]) =
                m.resolve x.appenders ++ [object] := by
              rw [resolve, List.filterMap_append, List.filterMap_cons_some last,
                List.filterMap_nil]
              exact congrArg (· ++ [object]) (touches.resolve present)
            rw [List.append_assoc, List.singleton_append, grown, List.append_assoc,
              List.singleton_append] at resolved
            rw [resolved, List.filterMap_cons_some made]

theorem updateAppender_spec (ld : LogDefine) (found : m.logger l = some x) :
    Touches l m (m.updateAppender l ld) ∧
    (m.updateAppender l ld).viewOf l =
      some ⟨x.level, x.formatter, ld.appender.filterMap (ofDefine ld x.formatter)⟩ := by
  have cleared : (m.modifyLogger l fun y => { y with appenders := [] }).logger l =
      some { x with appenders := [] } := by
    rw [modifyLogger_logger, if_pos rfl, found, Option.map_some]
  obtain ⟨touches, added, logger, resolved⟩ := addDefines ld ld.appender cleared
    (fun a member => by cases member)
  refine ⟨(modifyLogger_touches _).trans touches, ?_⟩
  unfold viewOf
  change Option.map _ (LoggerManager.logger (ld.appender.foldl (addDefine l ld) _) l) = _
  rw [logger, Option.map_some]
  congr 2

end Steps

section Views

variable {m : LoggerManager}

theorem WellFormed.viewOf (wf : WellFormed m) {name : String} {l : Nat}
    (registered : m.loggers[name]? = some l) : ∃ v, m.viewOf l = some v := by
  obtain ⟨x, found, _⟩ := wf.keyed name l registered
  exact ⟨_, by rw [LoggerManager.viewOf, found, Option.map_some]⟩

/-- Two names never share a logger. -/
theorem WellFormed.apart (wf : WellFormed m) {name other : String} {l k : Nat}
    (first : m.loggers[name]? = some l) (second : m.loggers[other]? = some k)
    (different : name ≠ other) : k ≠ l := by
  rintro rfl
  obtain ⟨x, found, named⟩ := wf.keyed name k first
  obtain ⟨y, present, own⟩ := wf.keyed other k second
  obtain rfl := Option.some.inj (found.symm.trans present)
  exact different (named.symm.trans own)

theorem WellFormed.view_isSome (wf : WellFormed m) (name : String) :
    (m.view name).isSome = (m.loggers[name]?).isSome := by
  unfold view
  cases registered : m.loggers[name]? with
  | none => rfl
  | some l =>
      obtain ⟨v, shown⟩ := wf.viewOf registered
      rw [Option.bind_some, shown]
      rfl

theorem configureLogger_existing {ld : LogDefine} {l : Nat}
    (registered : m.loggers[ld.name]? = some l) :
    m.configureLogger ld = (m.modifyLogger l fun x =>
      { x with level := ld.level, formatter := .new ld.formatter }).updateAppender l ld := by
  rw [configureLogger, registered]

/-- The manager in which `configureLogger` has registered a new logger. -/
def registerNew (m : LoggerManager) (ld : LogDefine) : LoggerManager :=
  { m.newLogger (.new ld.name ld.level ld.formatter) with
    loggers := m.loggers.insert ld.name m.loggerStore.next }

theorem configureLogger_new {ld : LogDefine} (missing : m.loggers[ld.name]? = none) :
    m.configureLogger ld = (m.registerNew ld).updateAppender m.loggerStore.next ld := by
  rw [configureLogger, missing]
  rfl

theorem registerNew_logger (ld : LogDefine) :
    (m.registerNew ld).logger m.loggerStore.next =
      some (.new ld.name ld.level ld.formatter) := by
  change (m.newLogger _).logger _ = _
  rw [newLogger_logger, if_pos rfl]

theorem WellFormed.registerNew (wf : WellFormed m) (ld : LogDefine) :
    WellFormed (m.registerNew ld) := by
  have made := wf.newLogger (.new ld.name ld.level ld.formatter) rfl
  exact made.register (by rw [newLogger_logger, if_pos rfl])

theorem registerNew_viewOf (ld : LogDefine) {k : Nat} {x : Logger} (found : m.logger k = some x) :
    (m.registerNew ld).viewOf k = m.viewOf k := by
  have same : (m.registerNew ld).logger k = m.logger k := by
    change (m.newLogger _).logger k = _
    rw [newLogger_logger, if_neg (logger_ne_next k found)]
  unfold LoggerManager.viewOf
  rw [same]
  rfl

/-- The registry behind `configureLogger`. -/
theorem configureLogger_loggers (ld : LogDefine) (name : String) :
    (m.configureLogger ld).loggers[name]? =
      if ld.name = name then some ((m.loggers[ld.name]?).getD m.loggerStore.next)
      else m.loggers[name]? := by
  have kept : ∀ (n : LoggerManager) l, (n.updateAppender l ld).loggers = n.loggers := by
    intro n l
    apply List.foldlRecOn (motive := fun k : LoggerManager => k.loggers = n.loggers)
    · rfl
    · intro k same define _
      unfold addDefine
      split
      · exact same
      · rename_i x _
        cases ofDefine ld x.formatter define with
        | none => exact same
        | some object => exact (addNew_loggers l object).trans same
  cases registered : m.loggers[ld.name]? with
  | some l =>
      rw [configureLogger_existing registered, kept, modifyLogger_loggers]
      split
      · rename_i same
        rw [← same, registered]
        rfl
      · rfl
  | none =>
      rw [configureLogger_new registered, kept]
      change (m.loggers.insert ld.name m.loggerStore.next)[name]? = _
      rw [Std.ExtTreeMap.getElem?_insert]
      simp only [Std.LawfulEqCmp.compare_eq_iff_eq]
      rfl

/-- `configureLogger` gives the logger its definition and changes no other. -/
theorem configureLogger_view (wf : WellFormed m) (ld : LogDefine) (name : String) :
    (m.configureLogger ld).view name =
      if ld.name = name then some ld.reconciled else m.view name := by
  have asked : ld.appender.filterMap (ofDefine ld (.new ld.formatter)) =
      ld.appender.filterMap ld.wants :=
    List.filterMap_congr fun define _ => ofDefine_wants ld define
  unfold view
  rw [configureLogger_loggers]
  cases registered : m.loggers[ld.name]? with
  | some l =>
      rw [configureLogger_existing registered]
      obtain ⟨x, found, _⟩ := wf.keyed ld.name l registered
      have set : (m.modifyLogger l fun y =>
          { y with level := ld.level, formatter := .new ld.formatter }).logger l =
          some { x with level := ld.level, formatter := .new ld.formatter } := by
        rw [modifyLogger_logger, if_pos rfl, found, Option.map_some]
      obtain ⟨later, shown⟩ := updateAppender_spec ld set
      by_cases same : ld.name = name
      · rw [if_pos same, if_pos same, Option.getD_some, Option.bind_some, shown, asked]
        rfl
      · rw [if_neg same, if_neg same]
        cases other : m.loggers[name]? with
        | none => rfl
        | some k =>
            exact ((modifyLogger_touches _).trans later).viewOf wf
              (wf.apart registered other same)
  | none =>
      rw [configureLogger_new registered]
      obtain ⟨later, shown⟩ := updateAppender_spec ld (registerNew_logger (m := m) ld)
      by_cases same : ld.name = name
      · rw [if_pos same, if_pos same, Option.getD_none, Option.bind_some, shown]
        exact congrArg (fun appenders : List LogAppender =>
          some (LoggerView.mk ld.level (.new ld.formatter) appenders)) asked
      · rw [if_neg same, if_neg same]
        cases other : m.loggers[name]? with
        | none => rfl
        | some k =>
            obtain ⟨x, found, _⟩ := wf.keyed name k other
            exact (later.viewOf (wf.registerNew ld) (logger_ne_next k found)).trans
              (registerNew_viewOf ld found)

end Views

section Listener

variable {m : LoggerManager} (newValue : LogDefineSet) (name : String)

theorem any_find : newValue.toList.any (·.name = name) = (newValue.find name).isSome := by
  rw [Bool.eq_iff_iff, LogDefineSet.find, List.find?_isSome, List.any_eq_true]

theorem removeMissing_loggers (key : String) :
    (m.removeMissing newValue key).loggers[name]? =
      if key = name ∧ newValue.find name = none then none else m.loggers[name]? := by
  unfold removeMissing
  rw [any_find]
  by_cases same : key = name
  · subst same
    cases newValue.find key with
    | some ld => simp
    | none => simp [removeLogger]
  · rw [if_neg (fun both : key = name ∧ _ => same both.1)]
    cases (newValue.find key).isSome with
    | true => rfl
    | false =>
      change (m.removeLogger key).loggers[name]? = _
      rw [removeLogger, Std.ExtTreeMap.getElem?_erase,
        if_neg (fun equal => same (Std.LawfulEqCmp.eq_of_compare equal))]

/-- Erasing touches no object. -/
theorem removeMissing_viewOf (key : String) (l : Nat) :
    (m.removeMissing newValue key).viewOf l = m.viewOf l := by
  unfold removeMissing
  split <;> rfl

/-- The first loop of the listener. -/
theorem removeAll_spec (keys : List String) :
    (keys.foldl (removeMissing newValue) m).loggers[name]? =
        (if name ∈ keys ∧ newValue.find name = none then none else m.loggers[name]?) ∧
    ∀ l, (keys.foldl (removeMissing newValue) m).viewOf l = m.viewOf l := by
  induction keys generalizing m with
  | nil => simp
  | cons key rest ih =>
      obtain ⟨loggers, views⟩ := ih (m := m.removeMissing newValue key)
      rw [List.foldl_cons]
      refine ⟨?_, fun l => (views l).trans (removeMissing_viewOf newValue key l)⟩
      rw [loggers, removeMissing_loggers]
      by_cases missing : newValue.find name = none
      · by_cases later : name ∈ rest
        · simp [missing, later]
        · simp [missing, later, eq_comm]
      · simp [missing]

theorem removeAll_view :
    (m.loggers.keys.foldl (removeMissing newValue) m).view name =
      if newValue.find name = none then none else m.view name := by
  obtain ⟨loggers, views⟩ := removeAll_spec newValue name (m := m) m.loggers.keys
  unfold view
  rw [loggers, show (m.loggers.keys.foldl (removeMissing newValue) m).viewOf = m.viewOf from
    funext views]
  by_cases missing : newValue.find name = none
  · rw [if_pos missing]
    by_cases member : name ∈ m.loggers.keys
    · rw [if_pos ⟨member, missing⟩, Option.bind_none]
    · rw [if_neg (fun both => member both.1)]
      have absent : m.loggers[name]? = none :=
        Std.ExtTreeMap.getElem?_eq_none fun inside => member (Std.ExtTreeMap.mem_keys.mpr inside)
      rw [absent, Option.bind_none]
  · rw [if_neg missing, if_neg (fun both => missing both.2)]

/-- The second loop of the listener. -/
theorem configureAll_view {defines : List LogDefine}
    (distinct : defines.Pairwise (·.name < ·.name)) (wf : WellFormed m) :
    (defines.foldl configureLogger m).view name =
      ((defines.find? (·.name = name)).map LogDefine.reconciled).or (m.view name) := by
  induction defines generalizing m with
  | nil => rfl
  | cons ld rest ih =>
      have above := List.pairwise_cons.mp distinct
      rw [List.foldl_cons, ih above.2 (wf.configureLogger ld), configureLogger_view wf]
      by_cases same : ld.name = name
      · have nowhere : rest.find? (·.name = name) = none := by
          rw [List.find?_eq_none]
          intro other member equal
          have below := above.1 other member
          rw [same, of_decide_eq_true equal] at below
          exact lt_irrefl name below
        rw [nowhere, List.find?_cons_of_pos (by simp [same]), if_pos same]
        rfl
      · rw [List.find?_cons_of_neg (by simp [same]), if_neg same]

/-- After the listener each name has what its definition asks for, and nothing else is
registered. -/
theorem logInit_view (wf : WellFormed m) :
    (m.logInit newValue).view name = (newValue.find name).map LogDefine.reconciled := by
  have removed : WellFormed (m.loggers.keys.foldl (removeMissing newValue) m) := by
    apply List.foldlRecOn (motive := WellFormed)
    · exact wf
    · intro n inv key _
      exact inv.removeMissing newValue key
  rw [logInit, configureAll_view name newValue.sorted removed, removeAll_view]
  change (Option.map LogDefine.reconciled (newValue.find name)).or _ = _
  cases newValue.find name <;> rfl

end Listener

section Export

variable {m n : LoggerManager}

/-- What is exported depends on what is shown under each name. -/
theorem defines_congr (left : WellFormed m) (right : WellFormed n)
    (same : ∀ name, m.view name = n.view name) : m.defines = n.defines := by
  have shown : ∀ {k : LoggerManager}, WellFormed k → ∀ name,
      (k.loggers.map fun _ l => k.viewOf l)[name]? = (k.view name).map some := by
    intro k wf name
    rw [Std.ExtTreeMap.getElem?_map, view]
    cases registered : k.loggers[name]? with
    | none => rfl
    | some l =>
        obtain ⟨v, looks⟩ := wf.viewOf registered
        rw [Option.map_some, Option.bind_some, looks]
        rfl
  have maps : (m.loggers.map fun _ l => m.viewOf l) = n.loggers.map fun _ l => n.viewOf l := by
    apply Std.ExtTreeMap.ext_getElem?
    intro name
    rw [shown left, shown right, same]
  have listed : ∀ k : LoggerManager, k.defines =
      (k.loggers.map fun _ l => k.viewOf l).toList.filterMap
        fun i => i.2.map (·.define i.1) := by
    intro k
    rw [Std.ExtTreeMap.toList_map, List.filterMap_map]
    rfl
  rw [listed m, listed n, maps]

theorem find_mem {newValue : LogDefineSet} {ld : LogDefine} (member : ld ∈ newValue.toList) :
    newValue.find ld.name = some ld := by
  cases found : newValue.find ld.name with
  | none =>
      have absent := List.find?_eq_none.mp found ld member
      simp at absent
  | some other =>
      have same : other.name = ld.name := by simpa using List.find?_some found
      rw [newValue.eq_of_key (List.mem_of_find?_eq_some found) member same]

/-- The listener is exact and forgets what was there: the registered names are those of
the definitions, each logger is the one its definition asks for, and two managers give
the same export. -/
theorem logInit_exact (reachable : Transition.Reachable next init m) (newValue : LogDefineSet) :
    (∀ name, name ∈ (m.logInit newValue).loggers ↔ ∃ ld ∈ newValue.toList, ld.name = name) ∧
    (∀ ld ∈ newValue.toList, (m.logInit newValue).view ld.name = some ld.reconciled) ∧
    ∀ n, Transition.Reachable next init n → ∀ yaml,
      (n.logInit newValue).toYamlString yaml = (m.logInit newValue).toYamlString yaml := by
  have wf := reachable_wellFormed reachable
  refine ⟨fun name => ?_, fun ld member => ?_, fun n other yaml => ?_⟩
  · rw [Std.ExtTreeMap.mem_iff_isSome_getElem?, ← (wf.logInit newValue).view_isSome,
      logInit_view newValue name wf, Option.isSome_map, ← any_find, List.any_eq_true]
    simp only [decide_eq_true_eq]
  · rw [logInit_view newValue ld.name wf, find_mem member, Option.map_some]
  · have own := reachable_wellFormed other
    have same : (n.logInit newValue).defines = (m.logInit newValue).defines := by
      apply defines_congr (own.logInit newValue) (wf.logInit newValue)
      intro name
      rw [logInit_view newValue name own, logInit_view newValue name wf]
    rw [toYamlString, toYamlString, same]

/-- Two definitions for a manager that knows neither name. -/
def sampleDefines : LogDefineSet where
  toList := [⟨"net", .info, "%m", [{ type := "file", path := "net.log", level := .error },
      { type := "syslog" }, { type := "stdout", formatter := "%p %m" }]⟩,
    ⟨"root", .warn, "%c %m", []⟩]
  sorted := by decide

theorem logInit_exact_sample :
    ((init.configureLogger ⟨"old", .debug, "%m", []⟩).logInit sampleDefines).view "net" =
      some ⟨.info, .new "%m", [⟨.file "net.log", .error, some (.new "%m"), false⟩,
        ⟨.stdout, .info, some (.new "%p %m"), true⟩]⟩ :=
  (logInit_exact ⟨_, Transition.Run.nil.snoc trivial (show next init
      (.configureLogger ⟨"old", .debug, "%m", []⟩) = some _ from rfl)⟩ sampleDefines).2.1
    _ List.mem_cons_self

end Export

end LoggerManager

end ZnetServer
