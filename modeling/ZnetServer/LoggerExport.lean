import ZnetServer.FlowYaml
import ZnetServer.LogRoundTrip
import ZnetServer.LoggerSync

set_option autoImplicit false

/- Writing the loggers out with `toYamlString` and reading them in again. -/
namespace ZnetServer

open Yaml Transition

/-- The class, path and pattern of an appender. -/
def LogAppender.output (x : LogAppender) : Sink × Option String :=
  (x.sink, x.formatter.map LogFormatter.pattern)

/-- What the appenders that accept an event of the level write to, and with which pattern. -/
def LoggerView.accepting (v : LoggerView) (level : LogLevel) : List (Sink × Option String) :=
  if v.level ≤ level then (v.appenders.filter (·.level ≤ level)).map LogAppender.output else []

namespace LoggerManager

/-- Decoding the 'loggers' of a text and passing them to the listener of `LogInit`. -/
def reimport (yaml : YamlCpp) (text : String) (m : LoggerManager) :
    Except Fault LoggerManager := do
  let root ← yaml.load text
  let loggers ← Node.get "loggers" (some root)
  .ok (m.logInit (← LogDefineSet.ofText yaml (Node.emitted yaml loggers)))

section Definitions

variable {m : LoggerManager}

theorem mem_defines {ld : LogDefine} :
    ld ∈ m.defines ↔ ∃ name v, m.view name = some v ∧ v.define name = ld := by
  rw [defines, List.mem_filterMap]
  constructor
  · intro inside
    obtain ⟨entry, member, shown⟩ := inside
    obtain ⟨v, looks, rfl⟩ := Option.map_eq_some_iff.mp shown
    have registered := Std.ExtTreeMap.mem_toList_iff_getElem?_eq_some.mp member
    exact ⟨entry.1, v, by rw [view, registered, Option.bind_some, looks], rfl⟩
  · intro inside
    obtain ⟨name, v, looks, rfl⟩ := inside
    obtain ⟨l, registered, shown⟩ := Option.bind_eq_some_iff.mp looks
    have member := Std.ExtTreeMap.mem_toList_iff_getElem?_eq_some.mpr registered
    exact ⟨(name, l), member, by rw [shown, Option.map_some]⟩

/-- The export is in the order of the names. -/
theorem defines_sorted (m : LoggerManager) : m.defines.Pairwise (·.name < ·.name) := by
  apply Std.ExtTreeMap.ordered_keys_toList.filterMap
  intro first second before one shown other looks
  obtain ⟨v, _, rfl⟩ := Option.map_eq_some_iff.mp shown
  obtain ⟨w, _, rfl⟩ := Option.map_eq_some_iff.mp looks
  exact compare_lt_iff_lt.mp before

theorem define_plain (x : LogAppender) : x.define.Plain := by
  intro other
  cases sink : x.sink with
  | stdout => simp only [LogAppender.define, sink]
  | file path => exact absurd (by simp only [LogAppender.define, sink, Sink.type]) other

theorem defines_plain (m : LoggerManager) : ∀ ld ∈ m.defines, ld.Plain := by
  intro ld member i inside
  obtain ⟨name, v, _, rfl⟩ := mem_defines.mp member
  obtain ⟨x, _, rfl⟩ := List.mem_map.mp inside
  exact define_plain x

/-- Looking a name up in the exported set. -/
theorem find_defines (m : LoggerManager) (name : String) :
    LogDefineSet.find (.ofList m.defines) name = (m.view name).map (·.define name) := by
  have listed : (OrderedSet.ofList m.defines : LogDefineSet).toList = m.defines :=
    OrderedSet.toList_ofList m.defines_sorted
  cases looks : m.view name with
  | some v =>
      have member : v.define name ∈ (OrderedSet.ofList m.defines : LogDefineSet).toList := by
        rw [listed]
        exact mem_defines.mpr ⟨name, v, looks, rfl⟩
      exact find_mem member
  | none =>
      rw [LogDefineSet.find, listed, Option.map_none, List.find?_eq_none]
      intro ld member same
      obtain ⟨other, v, shown, rfl⟩ := mem_defines.mp member
      have equal : other = name := of_decide_eq_true same
      rw [equal, looks] at shown
      cases shown

end Definitions

section Behaviour

/-- The appender's definition asks for an appender that writes the same, and accepts the
same levels among those of the logger. -/
theorem wants_define (v : LoggerView) (name : String) {x : LogAppender}
    (synced : Synced v.formatter x) :
    ∃ y, (v.define name).wants x.define = some y ∧ y.output = x.output ∧
      ∀ level, v.level ≤ level → (y.level ≤ level ↔ x.level ≤ level) := by
  obtain ⟨f, given, pattern⟩ := synced
  have sink : x.define.sink = some x.sink := by
    cases sink : x.sink <;> simp only [LogAppenderDefine.sink, LogAppender.define, sink, Sink.type]
  have formatter : (v.define name).patternOf x.define = f.pattern := by
    cases flag : x.hasCustomFormatter with
    | true =>
        rw [flag, if_pos rfl] at pattern
        simp [LogDefine.patternOf, LogAppender.define, flag, given, pattern]
    | false =>
        rw [flag, if_neg Bool.false_ne_true] at pattern
        simp [LogDefine.patternOf, LogAppender.define, LoggerView.define, flag, pattern]
  refine ⟨_, by rw [LogDefine.wants, sink, Option.map_some], ?_, fun level passes => ?_⟩
  · simp [LogAppender.output, given, formatter]
  · by_cases unset : x.level = .unknow
    · have inherited : (v.define name).levelOf x.define = v.level := by
        simp [LogDefine.levelOf, LogAppender.define, LoggerView.define, unset]
      simp only [inherited, unset, passes, LogLevel.unknow_le]
    · have own : (v.define name).levelOf x.define = x.level := by
        simp [LogDefine.levelOf, LogAppender.define, unset]
      simp only [own]

theorem wants_accepting (v : LoggerView) (name : String) {level : LogLevel}
    (passes : v.level ≤ level) {appenders : List LogAppender}
    (synced : ∀ x ∈ appenders, Synced v.formatter x) :
    (((appenders.map LogAppender.define).filterMap (v.define name).wants).filter
        (·.level ≤ level)).map LogAppender.output =
      (appenders.filter (·.level ≤ level)).map LogAppender.output := by
  induction appenders with
  | nil => rfl
  | cons x rest ih =>
      have later := ih fun other member => synced other (List.mem_cons_of_mem x member)
      obtain ⟨y, wanted, output, accepts⟩ := wants_define v name (synced x List.mem_cons_self)
      have same := accepts level passes
      rw [List.map_cons, List.filterMap_cons_some wanted]
      by_cases here : x.level ≤ level
      · rw [List.filter_cons_of_pos (by simpa using same.mpr here),
          List.filter_cons_of_pos (by simpa using here), List.map_cons, List.map_cons, output,
          later]
      · rw [List.filter_cons_of_neg (by simpa using fun level => here (same.mp level)),
          List.filter_cons_of_neg (by simpa using here), later]

/-- What is imported for a logger accepts what the logger accepts. -/
theorem reconciled_accepting (v : LoggerView) (name : String)
    (synced : ∀ x ∈ v.appenders, Synced v.formatter x) (level : LogLevel) :
    (v.define name).reconciled.accepting level = v.accepting level := by
  have same : (v.define name).reconciled.level = v.level := rfl
  rw [LoggerView.accepting, LoggerView.accepting, same]
  by_cases passes : v.level ≤ level
  · rw [if_pos passes, if_pos passes]
    exact wants_accepting v name passes synced
  · rw [if_neg passes, if_neg passes]

theorem Consistent.view_synced {m : LoggerManager} (con : Consistent m) {name : String}
    {v : LoggerView} (looks : m.view name = some v) :
    ∀ x ∈ v.appenders, Synced v.formatter x := by
  intro x inside
  obtain ⟨l, _, shown⟩ := Option.bind_eq_some_iff.mp looks
  obtain ⟨logger, found, rfl⟩ := Option.map_eq_some_iff.mp shown
  obtain ⟨a, member, present⟩ := List.mem_filterMap.mp inside
  obtain ⟨y, same, synced⟩ := con.synced l logger found a member
  obtain rfl := Option.some.inj (present.symm.trans same)
  exact synced

end Behaviour

section RoundTrip

variable {m : LoggerManager} {yaml : YamlCpp}

/-- The document that is exported. -/
def document (m : LoggerManager) : Node :=
  .ofFields [("loggers", .ofItems (m.defines.map LogDefine.node))]

theorem document_built (nonempty : m.defines ≠ []) : Built m.document := by
  apply Built.map
  · exact List.cons_ne_nil _ _
  · exact List.pairwise_singleton _ _
  · intro field member
    rw [List.mem_singleton.mp member]
    exact LogDefineSet.nodes_built nonempty

theorem toYamlString_document (faithful : yaml.Faithful) (nonempty : m.defines ≠ []) :
    m.toYamlString yaml = .ok (yaml.dump m.document) := by
  have nodes := LogDefineSet.load_toTexts faithful m.defines
  have filled : m.defines.map LogDefine.node ≠ [] := by
    simpa using nonempty
  simp only [toYamlString, nodes, bind, Except.bind, if_neg filled, document]

/-- Reading the exported document decodes the exported definitions. -/
theorem reimport_document (faithful : yaml.Faithful) (nonempty : m.defines ≠ [])
    (other : LoggerManager) :
    other.reimport yaml (yaml.dump m.document) = .ok (other.logInit (.ofList m.defines)) := by
  have root := faithful.load_dump _ (document_built nonempty)
  have loggers : Node.get "loggers" (some m.document) =
      .ok (some (.ofItems (m.defines.map LogDefine.node))) := rfl
  have decoded := LogDefineSet.ofText_nodes faithful m.defines_plain
    (faithful.load_emit _ (LogDefineSet.nodes_built nonempty))
  simp only [reimport, root, loggers, Node.emitted, decoded, bind, Except.bind]

theorem defines_ne_nil (wf : WellFormed m) {name : String} (registered : name ∈ m.loggers) :
    m.defines ≠ [] := by
  rw [Std.ExtTreeMap.mem_iff_isSome_getElem?, ← wf.view_isSome] at registered
  obtain ⟨v, looks⟩ := Option.isSome_iff_exists.mp registered
  exact List.ne_nil_of_mem (mem_defines.mpr ⟨name, v, looks, rfl⟩)

/-- Exporting a registry in which some name is registered and importing it, into the same
registry or any other, gives the same names, and loggers whose accepting appenders write
the same for events of every level. -/
theorem reimport_accepting {trace : List (LoggerManager × Op)}
    (run : Run next AttachesFresh init trace m) (some_name : ∃ name, name ∈ m.loggers)
    (faithful : yaml.Faithful) :
    ∃ text, m.toYamlString yaml = .ok text ∧
      ∀ other, Reachable next init other → ∃ n, other.reimport yaml text = .ok n ∧
        (∀ name, name ∈ n.loggers ↔ name ∈ m.loggers) ∧
        ∀ name level, (n.view name).map (·.accepting level) =
          (m.view name).map (·.accepting level) := by
  obtain ⟨con, wf⟩ := run_consistent run
  obtain ⟨name, registered⟩ := some_name
  have nonempty := defines_ne_nil wf registered
  refine ⟨_, toYamlString_document faithful nonempty, fun other reached => ?_⟩
  have own := reachable_wellFormed reached
  have views : ∀ name, (other.logInit (.ofList m.defines)).view name =
      (m.view name).map fun v => (v.define name).reconciled := by
    intro name
    rw [logInit_view _ _ own, find_defines, Option.map_map]
    rfl
  refine ⟨_, reimport_document faithful nonempty other, fun name => ?_, fun name level => ?_⟩
  · rw [Std.ExtTreeMap.mem_iff_isSome_getElem?, Std.ExtTreeMap.mem_iff_isSome_getElem?,
      ← (own.logInit _).view_isSome, ← wf.view_isSome, views, Option.isSome_map]
  · rw [views, Option.map_map]
    apply Option.map_congr
    intro v looks
    exact reconciled_accepting v name (con.view_synced looks) level

/-- A root logger whose appender takes its level from the logger. -/
def inheriting : LogDefine :=
  ⟨"root", .info, "%m", [{ type := "stdout", formatter := "%p" }]⟩

/-- Its export in block style. -/
def inheritingText : String :=
  "loggers:\n  - name: root\n    level: info\n    formatter: \"%m\"\n    appender:\n" ++
    "      - type: stdout\n        level: info\n        formatter: \"%p\""

/-- Block style for the documents that are read and written on the way. -/
def blockStyle : YamlCpp := flowExcept [
  ((init.configureLogger inheriting).document, inheritingText),
  (.ofItems ((init.configureLogger inheriting).defines.map LogDefine.node),
    "- name: root\n  level: info\n  formatter: \"%m\"\n  appender:\n" ++
      "    - type: stdout\n      level: info\n      formatter: \"%p\""),
  (({ inheriting with appender := [{ type := "stdout", level := .info, formatter := "%p" }] } :
      LogDefine).node,
    "name: root\nlevel: info\nformatter: \"%m\"\nappender:\n" ++
      "  - type: stdout\n    level: info\n    formatter: \"%p\"")]

theorem reimport_accepting_root :
    (init.configureLogger inheriting).toYamlString blockStyle = .ok inheritingText ∧
    ∃ n, init.reimport blockStyle inheritingText = .ok n ∧
      (n.view "root").map (·.accepting .info) = some [(.stdout, some "%p")] := by
  have run : Run next AttachesFresh init [(init, .configureLogger inheriting)]
      (init.configureLogger inheriting) := Run.nil.snoc trivial rfl
  have faithful : blockStyle.Faithful := flowExcept_faithful _
  have dumped : blockStyle.dump (init.configureLogger inheriting).document = inheritingText := by
    decide +kernel
  have written : (init.configureLogger inheriting).toYamlString blockStyle =
      .ok inheritingText := by
    rw [toYamlString_document faithful (by decide), dumped]
  obtain ⟨text, exported, imports⟩ :=
    reimport_accepting run ⟨"root", by decide⟩ faithful
  obtain rfl := Except.ok.inj (written.symm.trans exported)
  obtain ⟨n, read, _, same⟩ := imports init ⟨[], .nil⟩
  exact ⟨written, n, read, (same "root" .info).trans (by decide)⟩

end RoundTrip

end LoggerManager

end ZnetServer
