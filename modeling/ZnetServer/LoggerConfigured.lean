import ZnetServer.LogRecords
import ZnetServer.LoggerLoad

set_option autoImplicit false

/- From the text of a configuration to what the log statements write. -/
namespace ZnetServer

open Yaml

namespace LogDefineSet

/-- The definitions of a text, in its order. -/
def listed (yaml : YamlCpp) (text : String) : Except Fault (List LogDefine) := do
  let node ← yaml.load text
  (List.range node.size).mapM fun i => do
    LogDefine.ofText yaml (Node.emitted yaml (← Node.at_ yaml i (some node)))

theorem bind_ok {ε α β : Type} (result : Except ε α) (f : α → β) :
    (result >>= fun value => .ok (f value)) = result.map f := by
  cases result <;> rfl

theorem ofText_listed (yaml : YamlCpp) (text : String) :
    ofText yaml text = (listed yaml text).map .ofList := by
  unfold ofText listed
  cases yaml.load text with
  | error what => rfl
  | ok node => exact bind_ok _ _

/-- Two texts decode to the same set exactly when every name is defined first in the same way:
what defines a name again is not seen, and the order of different names is not either. -/
theorem listed_agree {yaml : YamlCpp} {text other : String} {ds es : List LogDefine}
    (lists : listed yaml text = .ok ds) (others : listed yaml other = .ok es) :
    (ofText yaml text = ofText yaml other ↔
      ∀ name, ds.find? (·.name = name) = es.find? (·.name = name)) ∧
    (ds.Perm es → (ds.map LogDefine.name).Nodup → ofText yaml text = ofText yaml other) := by
  rw [ofText_listed, ofText_listed, lists, others]
  refine ⟨?_, fun perm distinct => congrArg Except.ok (OrderedSet.ofList_perm perm distinct)⟩
  rw [← OrderedSet.ofList_eq_iff]
  exact ⟨Except.ok.inj, congrArg Except.ok⟩

/-- A text that loads as the nodes of definitions. -/
theorem listed_nodes {yaml : YamlCpp} (faithful : yaml.Faithful) {defines : List LogDefine}
    (plain : ∀ v ∈ defines, v.Plain) {text : String}
    (loads : yaml.load text = .ok (.ofItems (defines.map LogDefine.node))) :
    listed yaml text = .ok defines := by
  have each : ∀ v ∈ defines,
      LogDefine.ofText yaml (Node.emitted yaml (some v.node)) = .ok v := by
    intro v member
    exact LogDefine.ofText_node (plain v member) (faithful.load_emit v.node v.node_built)
  have elements := Node.mapM_at yaml
    (f := fun node => LogDefine.ofText yaml (Node.emitted yaml node)) each
  rw [List.map_id'] at elements
  rw [listed, loads]
  exact elements

/-- Two loggers, of which the first is defined twice. -/
def twice : List LogDefine :=
  [⟨"root", .warn, "%m", []⟩, ⟨"net", .info, "%p", []⟩, ⟨"root", .debug, "%t", []⟩]

/-- The same without the second definition, in the other order. -/
def swapped : List LogDefine := [⟨"net", .info, "%p", []⟩, ⟨"root", .warn, "%m", []⟩]

theorem listed_agree_twice :
    ofText flowYaml (flowYaml.dump (.ofItems (twice.map LogDefine.node))) =
      ofText flowYaml (flowYaml.dump (.ofItems (swapped.map LogDefine.node))) := by
  have reads : ∀ {defines : List LogDefine}, defines ≠ [] → (∀ v ∈ defines, v.Plain) →
      listed flowYaml (flowYaml.dump (.ofItems (defines.map LogDefine.node))) = .ok defines :=
    fun some_define plain => listed_nodes flowYaml_faithful plain
      (flowYaml_faithful.load_dump _ (nodes_built some_define))
  have plain : ∀ v ∈ twice ++ swapped, v.Plain := by
    unfold LogDefine.Plain LogAppenderDefine.Plain
    decide
  have left := reads (List.cons_ne_nil _ _) fun v member => plain v (List.mem_append_left _ member)
  have right := reads (List.cons_ne_nil _ _) fun v member =>
    plain v (List.mem_append_right _ member)
  apply (listed_agree left right).1.mpr
  intro name
  by_cases root : name = "root"
  · subst root
    decide
  · by_cases net : name = "net"
    · subst net
      decide
    · simp [Ne.symm root, Ne.symm net]

end LogDefineSet

/-- The files of the definition can be opened. -/
def LogDefine.Writable (host : Host) (ld : LogDefine) : Prop :=
  ∀ d ∈ ld.appender, d.type = "file" → host.openable d.path = true

/-- An appender to a file comes from a definition of that file. -/
theorem LogDefine.wants_file {ld : LogDefine} {d : LogAppenderDefine} {x : LogAppender}
    {path : String} (wanted : ld.wants d = some x) (file : x.sink = .file path) :
    d.type = "file" ∧ d.path = path := by
  obtain ⟨sink, kind, rfl⟩ := Option.map_eq_some_iff.mp wanted
  change sink = .file path at file
  rw [file] at kind
  unfold LogAppenderDefine.sink at kind
  split at kind
  · rename_i type
    exact ⟨type, Sink.file.inj (Option.some.inj kind)⟩
  · cases Option.some.inj kind
  · cases kind

theorem LogDefine.Writable.reconciled {host : Host} {ld : LogDefine} (writable : ld.Writable host) :
    ld.reconciled.Writable host := by
  intro x inside path file
  obtain ⟨d, member, wanted⟩ := List.mem_filterMap.mp inside
  obtain ⟨type, rfl⟩ := wants_file wanted file
  exact writable d member type

namespace LoggerManager

variable {host : Host} {m : LoggerManager} {ld : LogDefine}

/-- What a logger without appenders that is new to `getLogger` writes. -/
theorem getLogger_silent {name : String} (missing : m.loggers[name]? = none) (level : LogLevel)
    (event : LogEvent) (out : Output) (depth : Nat) :
    log host (m.getLogger name).1 (depth + 1) (m.getLogger name).2 level event out =
      some out := by
  have made : (m.getLogger name).1.logger (m.getLogger name).2 =
      some { Logger.new name .debug defaultPattern with root := some m.root } := by
    rw [getLogger, missing]
    exact (newLogger_logger _ _ _).trans (if_pos rfl)
  exact log_bare made rfl depth out

/-- What a logger writes that is as its definition asks. -/
theorem view_writes (wf : WellFormed m) {name : String} (looks : m.view name = some ld.reconciled)
    (writable : ld.Writable host) :
    ∃ l, m.getLogger name = (m, l) ∧ ∀ level event out depth, ∃ list : List Record,
      log host m (depth + 2) l level event out = some (list.foldl (put host m) out) ∧
      list.filterMap (written host m) = ld.reconciled.writes host name level event := by
  obtain ⟨l, registered, shown⟩ := Option.bind_eq_some_iff.mp looks
  obtain ⟨x, found, rfl⟩ := wf.keyed name l registered
  exact ⟨l, getLogger_registered registered, log_view wf found shown writable.reconciled⟩

end LoggerManager

namespace LoggerLoad

open LoggerManager Config

variable {ι : Type} {types : ι → ConfigType} {yaml : YamlCpp} {process : Process yaml types}
  {value : LogDefineSet}

/-- From a document to the log statements after it: under each name that it defines a call
writes what the first definition of the name says, and under any other name nothing. -/
theorem configured_writes (wired : Wired process value)
    (reached : Transition.Reachable next init process.2) {node : Node} {text : String}
    {defines : List LogDefine} (single : textsNamed yaml node "loggers" = [text])
    (lists : LogDefineSet.listed yaml text = .ok defines)
    (told : equalLists LogDefine.equals value.toList
      (OrderedSet.ofList defines : LogDefineSet).toList = false) (host : Host) (name : String) :
    let m := (Config.loadFromYaml yaml quiet process.1 node process.2).2
    (∀ ld, defines.find? (·.name = name) = some ld → ld.Writable host →
      ∃ l, m.getLogger name = (m, l) ∧ ∀ level event out depth,
        let writes := ld.reconciled.writes host name level event
        ∃ list : List Record, list.filterMap (written host m) = writes ∧
          log host m (depth + 2) l level event out = some (list.foldl (put host m) out) ∧
          (list.foldl (put host m) out).cout = out.cout ++ printed writes) ∧
    (defines.find? (·.name = name) = none → name ∉ m.loggers ∧
      ∀ level event out depth, log host (m.getLogger name).1 (depth + 1) (m.getLogger name).2
        level event out = some out) := by
  intro m
  have loggers : m = process.2.logInit (.ofList defines) := by
    change (Config.loadFromYaml yaml quiet process.1 node process.2).2 = _
    rw [(wired.load node).2, single, takeAll, List.foldl_cons, List.foldl_nil, take,
      LogDefineSet.ofText_listed, lists]
    simp only [Except.map, told, Bool.false_eq_true, ↓reduceIte]
  have before := reachable_wellFormed reached
  have wf : WellFormed m := loggers ▸ before.logInit _
  have looks : m.view name = (defines.find? (·.name = name)).map LogDefine.reconciled := by
    rw [loggers, logInit_view _ name before]
    exact congrArg (Option.map LogDefine.reconciled) (OrderedSet.find_ofList defines name)
  constructor
  · intro ld first writable
    rw [first, Option.map_some] at looks
    obtain ⟨l, obtained, writes⟩ := view_writes wf looks writable
    refine ⟨l, obtained, fun level event out depth => ?_⟩
    obtain ⟨list, logged, shown⟩ := writes level event out depth
    exact ⟨list, shown, logged, by rw [puts_cout, shown]⟩
  · intro undefined
    have missing : m.loggers[name]? = none := by
      rw [← Option.isNone_iff_eq_none, ← Option.not_isSome, ← wf.view_isSome, looks, undefined]
      decide
    refine ⟨fun registered => ?_, getLogger_silent missing⟩
    rw [Std.ExtTreeMap.mem_iff_isSome_getElem?, missing] at registered
    cases registered

/-- The document gives the root logger a pattern for its appender; 'net' is not in it. -/
theorem configured_writes_root :
    let process := sampleProcess blockStyle init
    let m := (loadFromYaml blockStyle quiet process.1
      (init.configureLogger inheriting).document process.2).2
    (∃ l after, m.getLogger "root" = (m, l) ∧
      log sampleHost m 2 l .info sampleEvent ⟨"", ∅, ∅⟩ = some after ∧ after.cout = "INFO") ∧
    "net" ∉ m.loggers := by
  dsimp only
  have faithful : blockStyle.Faithful := flowExcept_faithful _
  have nonempty : (init.configureLogger inheriting).defines ≠ [] := by decide
  have lists := LogDefineSet.listed_nodes faithful
    (init.configureLogger inheriting).defines_plain
    (faithful.load_emit _ (LogDefineSet.nodes_built nonempty))
  have told : equalLists LogDefine.equals (OrderedSet.empty : LogDefineSet).toList
      (OrderedSet.ofList (init.configureLogger inheriting).defines : LogDefineSet).toList =
        false := by
    rw [OrderedSet.toList_ofList (defines_sorted _)]
    decide
  have writes := configured_writes (sampleProcess_wired blockStyle init) ⟨[], .nil⟩
    (document_texts nonempty) lists told sampleHost
  have shows : printed ((LogDefine.reconciled ⟨"root", .info, "%m",
      [{ type := "stdout", level := .info, formatter := "%p" }]⟩).writes sampleHost "root" .info
        sampleEvent) = "INFO" := by decide +kernel
  obtain ⟨l, obtained, logs⟩ := (writes "root").1 _ rfl (by unfold LogDefine.Writable; decide)
  obtain ⟨list, _, logged, cout⟩ := logs .info sampleEvent ⟨"", ∅, ∅⟩ 0
  refine ⟨⟨l, _, obtained, logged, ?_⟩, ((writes "net").2 (by decide)).1⟩
  rw [cout]
  exact congrArg ("" ++ ·) shows

end LoggerLoad

end ZnetServer
