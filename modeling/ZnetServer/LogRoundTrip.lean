import ZnetServer.FlowYaml
import ZnetServer.LogYaml

set_option autoImplicit false

/- The decoders of logger definitions undo the encoders. -/
namespace ZnetServer

open Yaml

@[simp] theorem LogLevel.fromString_text (level : LogLevel) :
    LogLevel.fromString (toLower level.text) = level := by
  cases level <;> decide

theorem Yaml.ofItems_built {items : List Node} (nonempty : items ≠ [])
    (parts : ∀ item ∈ items, Built item) : Built (.ofItems items) := by
  cases items with
  | nil => exact absurd rfl nonempty
  | cons item rest => exact .sequence nonempty parts

namespace LogAppenderDefine

/-- Only a file appender has a path. -/
def Plain (i : LogAppenderDefine) : Prop := i.type ≠ "file" → i.path = ""

section Lookups

variable (i : LogAppenderDefine)

theorem get_type : Node.get "type" (some i.node) = .ok (some (.scalar i.type)) := by
  rw [node, Node.get_ofFields]
  rfl

theorem get_file (file : i.type = "file") :
    Node.get "file" (some i.node) = .ok (some (.scalar i.path)) := by
  rw [node, Node.get_ofFields, if_pos file]
  rfl

theorem get_level : Node.get "level" (some i.node) =
    .ok (if i.hasCustomLevel then some (.scalar i.level.text) else none) := by
  rw [node, Node.get_ofFields]
  by_cases file : i.type = "file" <;> cases i.hasCustomLevel <;> cases i.hasCustomFormatter <;>
    simp [file]

theorem get_formatter : Node.get "formatter" (some i.node) =
    .ok (if i.hasCustomFormatter then some (.scalar i.formatter) else none) := by
  rw [node, Node.get_ofFields]
  by_cases file : i.type = "file" <;> cases i.hasCustomLevel <;> cases i.hasCustomFormatter <;>
    simp [file]

theorem node_built : Built i.node := by
  refine .map (by simp) ?_ ?_
  · by_cases file : i.type = "file" <;> cases i.hasCustomLevel <;>
      cases i.hasCustomFormatter <;> simp [file]
  · intro field member
    simp only [List.mem_append, List.mem_ite_nil_right, List.mem_singleton] at member
    rcases member with ((rfl | ⟨_, rfl⟩) | ⟨_, rfl⟩) | ⟨_, rfl⟩ <;> exact .scalar _

end Lookups

theorem ofNode_node (yaml : YamlCpp) {i : LogAppenderDefine} (plain : i.Plain) :
    ofNode yaml (some i.node) = .ok i := by
  have level : ((if i.hasCustomLevel then some i.level.text else none).map fun text =>
      LogLevel.fromString (toLower text)).getD .unknow = i.level := by
    by_cases unset : i.level = .unknow <;> simp [hasCustomLevel, unset]
  have formatter : (if i.hasCustomFormatter then some i.formatter else none).getD "" =
      i.formatter := by
    by_cases unset : i.formatter = "" <;> simp [hasCustomFormatter, unset]
  have levels : Node.textIfDefined yaml "level" (some i.node) =
      .ok (if i.hasCustomLevel then some i.level.text else none) := by
    simp only [Node.textIfDefined, i.get_level]
    cases i.hasCustomLevel <;> rfl
  have formatters : Node.textIfDefined yaml "formatter" (some i.node) =
      .ok (if i.hasCustomFormatter then some i.formatter else none) := by
    simp only [Node.textIfDefined, i.get_formatter]
    cases i.hasCustomFormatter <;> rfl
  have type : Node.textAt yaml "type" (some i.node) = .ok i.type := by
    simp only [Node.textAt, i.get_type]
    rfl
  simp only [ofNode, type, levels, formatters, bind, Except.bind, level, formatter]
  by_cases file : i.type = "file"
  · have path : Node.textAt yaml "file" (some i.node) = .ok i.path := by
      simp only [Node.textAt, i.get_file file]
      rfl
    simp only [if_pos file, path]
  · have path := plain file
    simp only [if_neg file, ← path]

end LogAppenderDefine

namespace LogDefine

def Plain (v : LogDefine) : Prop := ∀ i ∈ v.appender, i.Plain

section Lookups

variable (v : LogDefine)

theorem get_name : Node.get "name" (some v.node) = .ok (some (.scalar v.name)) := by
  rw [node, Node.get_ofFields]
  rfl

theorem get_level : Node.get "level" (some v.node) = .ok (some (.scalar v.level.text)) := by
  rw [node, Node.get_ofFields]
  rfl

theorem get_formatter :
    Node.get "formatter" (some v.node) = .ok (some (.scalar v.formatter)) := by
  rw [node, Node.get_ofFields]
  rfl

theorem get_appender : Node.get "appender" (some v.node) =
    .ok (if v.appender = [] then none
      else some (.ofItems (v.appender.map LogAppenderDefine.node))) := by
  rw [node, Node.get_ofFields]
  split <;> rfl

end Lookups

theorem node_built (v : LogDefine) : Built v.node := by
  refine .map (by simp) ?_ ?_
  · split <;> simp
  · intro field member
    rcases List.mem_append.mp member with scalars | appenders
    · simp only [List.mem_cons, List.not_mem_nil, or_false] at scalars
      rcases scalars with rfl | rfl | rfl <;> exact .scalar _
    · split at appenders
      · cases appenders
      · rename_i some_appender
        rw [List.mem_singleton.mp appenders]
        have parts : ∀ item ∈ v.appender.map LogAppenderDefine.node, Built item := by
          intro item inside
          obtain ⟨i, _, rfl⟩ := List.mem_map.mp inside
          exact i.node_built
        exact ofItems_built (by simpa using some_appender) parts

/-- Decoding a text that loads as the node of a definition. -/
theorem ofText_node {yaml : YamlCpp} {v : LogDefine} (plain : v.Plain) {text : String}
    (loads : yaml.load text = .ok v.node) : ofText yaml text = .ok v := by
  have name : Node.textAt yaml "name" (some v.node) = .ok v.name := by
    simp only [Node.textAt, v.get_name]
    rfl
  have level : Node.textAt yaml "level" (some v.node) = .ok v.level.text := by
    simp only [Node.textAt, v.get_level]
    rfl
  have formatter : Node.textAt yaml "formatter" (some v.node) = .ok v.formatter := by
    simp only [Node.textAt, v.get_formatter]
    rfl
  have each : ∀ i ∈ v.appender,
      LogAppenderDefine.ofNode yaml (some i.node) = .ok i :=
    fun i member => LogAppenderDefine.ofNode_node yaml (plain i member)
  have appenders := Node.mapM_at yaml each
  rw [List.map_id'] at appenders
  simp only [bind, Except.bind] at appenders
  simp only [ofText, loads, name, level, formatter, v.get_appender, bind, Except.bind,
    LogLevel.fromString_text]
  by_cases bare : v.appender = []
  · simp only [if_pos bare]
    rw [← bare]
  · simp only [if_neg bare, appenders]

theorem load_toText {yaml : YamlCpp} (faithful : yaml.Faithful) (v : LogDefine) :
    yaml.load (v.toText yaml) = .ok v.node :=
  faithful.load_dump v.node v.node_built

end LogDefine

namespace LogDefineSet

variable {yaml : YamlCpp} {defines : List LogDefine}

theorem nodes_built (nonempty : defines ≠ []) : Built (.ofItems (defines.map LogDefine.node)) := by
  apply ofItems_built
  · simpa using nonempty
  · intro item member
    obtain ⟨v, _, rfl⟩ := List.mem_map.mp member
    exact v.node_built

/-- Decoding a text that loads as the nodes of definitions. -/
theorem ofText_nodes (faithful : yaml.Faithful) (plain : ∀ v ∈ defines, v.Plain) {text : String}
    (loads : yaml.load text = .ok (.ofItems (defines.map LogDefine.node))) :
    ofText yaml text = .ok (.ofList defines) := by
  have each : ∀ v ∈ defines,
      LogDefine.ofText yaml (Node.emitted yaml (some v.node)) = .ok v := by
    intro v member
    exact LogDefine.ofText_node (plain v member) (faithful.load_emit v.node v.node_built)
  have elements := Node.mapM_at yaml
    (f := fun node => LogDefine.ofText yaml (Node.emitted yaml node)) each
  rw [List.map_id'] at elements
  simp only [bind, Except.bind] at elements
  simp only [ofText, loads, elements, bind, Except.bind]

/-- Each definition is written on its own and read back as a node. -/
theorem load_toTexts (faithful : yaml.Faithful) (l : List LogDefine) :
    l.mapM (fun i => yaml.load (i.toText yaml)) = .ok (l.map LogDefine.node) :=
  mapM_ok fun i _ => i.load_toText faithful

/-- The text of a set is its sorted nodes. -/
theorem toText_nodes (faithful : yaml.Faithful) (v : LogDefineSet) :
    toText yaml v = .ok (yaml.dump (.ofItems (v.toList.map LogDefine.node))) := by
  simp only [toText, load_toTexts faithful, bind, Except.bind]

end LogDefineSet

section Accepted

variable {yaml : YamlCpp}

theorem LogAppenderDefine.ofNode_plain {element : Option Node} {i : LogAppenderDefine}
    (read : ofNode yaml element = .ok i) : i.Plain := by
  obtain ⟨type, _, read⟩ := bind_ok_iff.mp read
  dsimp only at read
  split at read
  · rename_i file
    obtain ⟨path, _, read⟩ := bind_ok_iff.mp read
    obtain ⟨level, _, read⟩ := bind_ok_iff.mp read
    obtain ⟨formatter, _, read⟩ := bind_ok_iff.mp read
    rw [← Except.ok.inj read]
    exact fun other => absurd file other
  · obtain ⟨path, unread, read⟩ := bind_ok_iff.mp read
    obtain ⟨level, _, read⟩ := bind_ok_iff.mp read
    obtain ⟨formatter, _, read⟩ := bind_ok_iff.mp read
    rw [← Except.ok.inj read]
    exact fun _ => (Except.ok.inj unread).symm

theorem LogDefine.ofText_plain {text : String} {v : LogDefine} (read : ofText yaml text = .ok v) :
    v.Plain := by
  obtain ⟨node, _, read⟩ := bind_ok_iff.mp read
  obtain ⟨name, _, read⟩ := bind_ok_iff.mp read
  obtain ⟨level, _, read⟩ := bind_ok_iff.mp read
  obtain ⟨formatter, _, read⟩ := bind_ok_iff.mp read
  obtain ⟨list, _, read⟩ := bind_ok_iff.mp read
  intro i inside
  dsimp only at read
  split at read
  · obtain ⟨appender, none_given, read⟩ := bind_ok_iff.mp read
    rw [← Except.ok.inj read, ← Except.ok.inj none_given] at inside
    cases inside
  · obtain ⟨appender, given, read⟩ := bind_ok_iff.mp read
    rw [← Except.ok.inj read] at inside
    obtain ⟨place, _, element⟩ := mem_mapM given inside
    obtain ⟨_, _, own⟩ := bind_ok_iff.mp element
    exact LogAppenderDefine.ofNode_plain own

namespace LogDefineSet

theorem ofText_plain {text : String} {v : LogDefineSet} (accepted : ofText yaml text = .ok v) :
    ∀ i ∈ v.toList, i.Plain := by
  obtain ⟨node, _, accepted⟩ := bind_ok_iff.mp accepted
  obtain ⟨elements, read, accepted⟩ := bind_ok_iff.mp accepted
  rw [← Except.ok.inj accepted]
  intro i inside
  obtain ⟨place, _, element⟩ := mem_mapM read (OrderedSet.mem_ofList inside)
  obtain ⟨node, _, own⟩ := bind_ok_iff.mp element
  exact LogDefine.ofText_plain own

/-- Decoding the text of a set with plain appenders gives the set back. -/
theorem ofText_dump (faithful : yaml.Faithful) (empty : yaml.load (yaml.dump .null) = .ok .null)
    {v : LogDefineSet} (plain : ∀ i ∈ v.toList, i.Plain) :
    ofText yaml (yaml.dump (.ofItems (v.toList.map LogDefine.node))) = .ok v := by
  have loads : yaml.load (yaml.dump (.ofItems (v.toList.map LogDefine.node))) =
      .ok (.ofItems (v.toList.map LogDefine.node)) := by
    by_cases bare : v.toList = []
    · rw [bare]
      exact empty
    · exact faithful.load_dump _ (nodes_built bare)
  rw [ofText_nodes faithful plain loads]
  exact congrArg Except.ok (OrderedSet.ext (OrderedSet.toList_ofList v.sorted))

/-- A set that was read from a text is the set that its own text is read as; `empty` is the
node that got no definition. -/
theorem ofText_toText (faithful : yaml.Faithful)
    (empty : yaml.load (yaml.dump .null) = .ok .null) {text : String} {v : LogDefineSet}
    (accepted : ofText yaml text = .ok v) :
    ∃ written, toText yaml v = .ok written ∧ ofText yaml written = .ok v :=
  ⟨_, toText_nodes faithful v, ofText_dump faithful empty (ofText_plain accepted)⟩

/-- A list that is out of order and names one logger twice. -/
def repeatedDefines : List LogDefine :=
  [⟨"root", .warn, "%m",
      [{ type := "file", path := "a.log" }, { type := "stdout", level := .info }]⟩,
    ⟨"net", .unknow, "", []⟩, ⟨"root", .debug, "%p", []⟩]

theorem ofText_toText_repeated :
    ofText flowYaml (flowYaml.dump (.ofItems (repeatedDefines.map LogDefine.node))) =
      .ok (.ofList repeatedDefines) ∧
    ∃ written, toText flowYaml (.ofList repeatedDefines) = .ok written ∧
      ofText flowYaml written = .ok (.ofList repeatedDefines) := by
  have plain : ∀ v ∈ repeatedDefines, v.Plain := by
    unfold LogDefine.Plain LogAppenderDefine.Plain
    decide
  have some_define : repeatedDefines ≠ [] := List.cons_ne_nil _ _
  have loads := flowYaml_faithful.load_dump _ (nodes_built some_define)
  have accepted := ofText_nodes flowYaml_faithful plain loads
  exact ⟨accepted, ofText_toText flowYaml_faithful (load_flow .null) accepted⟩

end LogDefineSet

end Accepted

end ZnetServer
