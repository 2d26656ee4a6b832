import ZnetServer.LoggerInvariant
import ZnetServer.Yaml

set_option autoImplicit false

/- The two `LexicalCast`s of `LogDefine`, those of a set of them, and `toYamlString`. -/
namespace ZnetServer

open Yaml

/-- What the getters of a logger and of its appenders show. -/
structure LoggerView where
  level : LogLevel
  formatter : LogFormatter
  appenders : List LogAppender
  deriving DecidableEq

namespace LoggerManager

def resolve (m : LoggerManager) (appenders : List Nat) : List LogAppender :=
  appenders.filterMap m.appender

def viewOf (m : LoggerManager) (l : Nat) : Option LoggerView :=
  (m.logger l).map fun x => ⟨x.level, x.formatter, m.resolve x.appenders⟩

/-- The logger registered under a name. -/
def view (m : LoggerManager) (name : String) : Option LoggerView :=
  (m.loggers[name]?).bind m.viewOf

end LoggerManager

def LogLevel.text (level : LogLevel) : String := toLower level.toString

namespace LogAppenderDefine

def node (i : LogAppenderDefine) : Node := .ofFields (
  [("type", .scalar i.type)] ++
  (if i.type = "file" then [("file", .scalar i.path)] else []) ++
  (if i.hasCustomLevel then [("level", .scalar i.level.text)] else []) ++
  (if i.hasCustomFormatter then [("formatter", .scalar i.formatter)] else []))

/-- The body of the loop over `node["appender"]`. -/
def ofNode (yaml : YamlCpp) (element : Option Node) : Except Fault LogAppenderDefine := do
  let type ← Node.textAt yaml "type" element
  let path ← if type = "file" then Node.textAt yaml "file" element else .ok ""
  let level ← Node.textIfDefined yaml "level" element
  let formatter ← Node.textIfDefined yaml "formatter" element
  .ok { type, path, level := (level.map fun text => .fromString (toLower text)).getD .unknow,
        formatter := formatter.getD "" }

end LogAppenderDefine

namespace LogDefine

def node (v : LogDefine) : Node := .ofFields (
  [("name", .scalar v.name), ("level", .scalar v.level.text),
    ("formatter", .scalar v.formatter)] ++
  (if v.appender = [] then []
    else [("appender", .ofItems (v.appender.map LogAppenderDefine.node))]))

/-- `LexicalCast<LogDefine, std::string>` -/
def toText (yaml : YamlCpp) (v : LogDefine) : String := yaml.dump v.node

/-- `LexicalCast<std::string, LogDefine>` -/
def ofText (yaml : YamlCpp) (text : String) : Except Fault LogDefine := do
  let node ← yaml.load text
  let name ← Node.textAt yaml "name" (some node)
  let level ← Node.textAt yaml "level" (some node)
  let formatter ← Node.textAt yaml "formatter" (some node)
  let appender ← match ← Node.get "appender" (some node) with
    | none => .ok []
    | some list => (List.range list.size).mapM fun i => do
      LogAppenderDefine.ofNode yaml (← Node.at_ yaml i (some list))
  .ok { name, level := .fromString (toLower level), formatter, appender }

end LogDefine

namespace LogDefineSet

/-- `LexicalCast<std::set<LogDefine>, std::string>` -/
def toText (yaml : YamlCpp) (v : LogDefineSet) : Except Fault String := do
  let nodes ← v.toList.mapM fun i => yaml.load (i.toText yaml)
  .ok (yaml.dump (.ofItems nodes))

/-- `LexicalCast<std::string, std::set<LogDefine>>` -/
def ofText (yaml : YamlCpp) (text : String) : Except Fault LogDefineSet := do
  let node ← yaml.load text
  let elements ← (List.range node.size).mapM fun i => do
    LogDefine.ofText yaml (Node.emitted yaml (← Node.at_ yaml i (some node)))
  .ok (.ofList elements)

end LogDefineSet

/-- The definition that `toYamlString` writes for an appender. -/
def LogAppender.define (i : LogAppender) : LogAppenderDefine where
  type := i.sink.type
  path := match i.sink with
    | .file filepath => filepath
    | .stdout => ""
  level := i.level
  formatter :=
    if i.hasCustomFormatter then (i.formatter.map LogFormatter.pattern).getD "" else ""

def LoggerView.define (name : String) (v : LoggerView) : LogDefine where
  name := name
  level := v.level
  formatter := v.formatter.pattern
  appender := v.appenders.map LogAppender.define

namespace LoggerManager

/-- The definitions that `toYamlString` makes, in the order of `m_loggers`. -/
def defines (m : LoggerManager) : List LogDefine :=
  m.loggers.toList.filterMap fun i => (m.viewOf i.2).map (·.define i.1)

def toYamlString (yaml : YamlCpp) (m : LoggerManager) : Except Fault String := do
  let nodes ← m.defines.mapM fun ld => yaml.load (ld.toText yaml)
  .ok (yaml.dump (if nodes = [] then .null else .ofFields [("loggers", .ofItems nodes)]))

end LoggerManager

end ZnetServer
