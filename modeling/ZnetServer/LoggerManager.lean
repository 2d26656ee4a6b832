import ZnetServer.Log
import ZnetServer.ObjectStore

set_option autoImplicit false

/- `LoggerManager` of `server/log.cpp` and the listener of `LogInit`, over the loggers and
appenders that anybody may hold a pointer to. The log statements inside these functions
write to streams only and are left out. -/
namespace ZnetServer

open ObjectStore (Store)

structure LoggerManager where
  appenderStore : Store LogAppender
  loggerStore : Store Logger
  /-- `m_loggers` -/
  loggers : Std.ExtTreeMap String Nat
  /-- `m_root` -/
  root : Nat

namespace LoggerManager

def appender (m : LoggerManager) (a : Nat) : Option LogAppender := m.appenderStore.read a

def logger (m : LoggerManager) (l : Nat) : Option Logger := m.loggerStore.read l

def modifyAppender (m : LoggerManager) (a : Nat) (f : LogAppender → LogAppender) :
    LoggerManager :=
  { m with appenderStore := m.appenderStore.modify a f }

def modifyLogger (m : LoggerManager) (l : Nat) (f : Logger → Logger) : LoggerManager :=
  { m with loggerStore := m.loggerStore.modify l f }

def newAppender (m : LoggerManager) (object : LogAppender) : LoggerManager :=
  { m with appenderStore := m.appenderStore.alloc object }

def newLogger (m : LoggerManager) (object : Logger) : LoggerManager :=
  { m with loggerStore := m.loggerStore.alloc object }

/-- `Logger::addAppender` on the logger `l`. -/
def addAppender (m : LoggerManager) (l a : Nat) : LoggerManager :=
  match m.logger l with
  | none => m
  | some logger =>
    (m.modifyAppender a fun x =>
        { x with formatter := x.formatter.or (some logger.formatter) }).modifyLogger l fun x =>
      { x with appenders := x.appenders ++ [a] }

/-- `addAppender` of an object that was just made. -/
def addNew (m : LoggerManager) (l : Nat) (object : LogAppender) : LoggerManager :=
  (m.newAppender object).addAppender l m.appenderStore.next

/-- `Logger::getAppenders()` -/
def appendersOf (m : LoggerManager) (l : Nat) : List Nat :=
  match m.logger l with
  | none => []
  | some logger => logger.appenders

/-- The constructor of the manager. -/
def init : LoggerManager :=
  ({ appenderStore := .empty, loggerStore := .alloc .empty (.new "root" .debug defaultPattern),
     loggers := (∅ : Std.ExtTreeMap String Nat).insert "root" 0, root := 0 } :
    LoggerManager).addNew 0 (.new .stdout)

def getLogger (m : LoggerManager) (name : String) : LoggerManager × Nat :=
  match m.loggers[name]? with
  | some l => (m, l)
  | none =>
    let l := m.loggerStore.next
    let m := m.newLogger { Logger.new name .debug defaultPattern with root := some m.root }
    ({ m with loggers := m.loggers.insert name l }, l)

section UpdateLogger

/- The parts of `updateLogger`, with `isChanged`. -/

def updateLevel (m : LoggerManager) (l : Nat) (level : LogLevel) (isChanged : Bool) :
    LoggerManager × Bool :=
  match m.logger l with
  | none => (m, isChanged)
  | some logger =>
    if level ≠ logger.level then (m.modifyLogger l fun x => { x with level }, true)
    else (m, isChanged)

/-- `setHasCustomFormatter(false)` and `setFormatter(new LogFormatter(pattern))`. -/
def resetFormatter (pattern : String) (x : LogAppender) : LogAppender :=
  { x with hasCustomFormatter := false, formatter := some (.new pattern) }

def updatePattern (m : LoggerManager) (l : Nat) (pattern : String) (isChanged : Bool) :
    LoggerManager × Bool :=
  match m.logger l with
  | none => (m, isChanged)
  | some logger =>
    if pattern ≠ logger.formatter.pattern then
      (logger.appenders.foldl (fun m a => m.modifyAppender a (resetFormatter pattern))
        (m.modifyLogger l fun x => { x with formatter := .new pattern }), true)
    else (m, isChanged)

def updateStdout (m : LoggerManager) (l : Nat) (isChanged : Bool) : LoggerManager × Bool :=
  if (m.appendersOf l).any fun a => (m.appender a).any (·.sink.isStdout) then (m, isChanged)
  else (m.addNew l (.new .stdout), true)

/-- The loop over the appenders, with `hasFile`. -/
def updatePath (outputPath : String) (s : LoggerManager × Bool × Bool) (a : Nat) :
    LoggerManager × Bool × Bool :=
  match (s.1.appender a).map LogAppender.sink with
  | some (.file filepath) =>
    if filepath ≠ outputPath then
      (s.1.modifyAppender a fun x => { x with sink := .file outputPath }, true, true)
    else (s.1, s.2.1, true)
  | some .stdout | none => s

def updateFile (m : LoggerManager) (l : Nat) (outputPath : String) (isChanged : Bool) :
    LoggerManager × Bool :=
  let s := (m.appendersOf l).foldl (updatePath outputPath) (m, isChanged, false)
  if s.2.2 then (s.1, s.2.1) else (s.1.addNew l (.new (.file outputPath)), true)

def updateKind (l : Nat) (outputPath : String) (s : LoggerManager × Bool) (kind : String) :
    LoggerManager × Bool :=
  if kind = "stdout" then s.1.updateStdout l s.2
  else if kind = "file" then s.1.updateFile l outputPath s.2
  else s

def updateLogger (m : LoggerManager) (name : String) (level : LogLevel) (pattern : String)
    (appenders : List String) (outputPath : String) : LoggerManager × Bool :=
  match (m.loggers[name]?).bind m.logger with
  | none => (m, false)
  | some found =>
    let got := m.getLogger found.name
    let s := got.1.updateLevel got.2 level false
    let s := s.1.updatePattern got.2 pattern s.2
    appenders.foldl (updateKind got.2 outputPath) s

end UpdateLogger

/-- The appender that the constructor of `Logger` makes for a kind. -/
def ofKind (outputPath kind : String) : Option LogAppender :=
  if kind = "stdout" then some (.new .stdout)
  else if kind = "file" then some (.new (.file outputPath))
  else none

/-- Adding what there is to add. -/
def addSome (l : Nat) (m : LoggerManager) : Option LogAppender → LoggerManager
  | none => m
  | some object => m.addNew l object

/-- The constructor of `Logger` that takes kinds of appenders. -/
def constructLogger (m : LoggerManager) (name : String) (level : LogLevel) (pattern : String)
    (appenders : List String) (outputPath : String) : LoggerManager :=
  appenders.foldl (fun n kind => addSome m.loggerStore.next n (ofKind outputPath kind))
    (m.newLogger (.new name level pattern))

/-- The loop of `createLogger` over the appenders of the new logger. -/
def inheritSettings (m : LoggerManager) (l : Nat) (level : LogLevel) (pattern : String) :
    LoggerManager :=
  (m.appendersOf l).foldl (fun n a => n.modifyAppender a fun x =>
    { x with level, formatter := some (.new pattern) }) m

def createLogger (m : LoggerManager) (name : String) (level : LogLevel) (pattern : String)
    (appenders : List String) (outputPath : String) : LoggerManager × Nat :=
  match m.loggers[name]? with
  | some l => ((m.updateLogger name level pattern appenders outputPath).1, l)
  | none =>
    let l := m.loggerStore.next
    let m := (m.constructLogger name level pattern appenders outputPath).inheritSettings l
      level pattern
    ({ m with loggers := m.loggers.insert name l }, l)

/-- The appender that `updateAppender` makes for a definition. -/
def ofDefine (ld : LogDefine) (formatter : LogFormatter) (define : LogAppenderDefine) :
    Option LogAppender :=
  let sink :=
    if define.type = "file" then some (Sink.file define.path)
    else if define.type = "stdout" then some Sink.stdout
    else none
  sink.map fun sink => {
    sink := sink
    level := if define.hasCustomLevel then define.level else ld.level
    formatter := some (if define.hasCustomFormatter then .new define.formatter else formatter)
    hasCustomFormatter := define.hasCustomFormatter }

def addDefine (l : Nat) (ld : LogDefine) (m : LoggerManager) (define : LogAppenderDefine) :
    LoggerManager :=
  match m.logger l with
  | none => m
  | some logger => addSome l m (ofDefine ld logger.formatter define)

def updateAppender (m : LoggerManager) (l : Nat) (ld : LogDefine) : LoggerManager :=
  ld.appender.foldl (addDefine l ld) (m.modifyLogger l fun x => { x with appenders := [] })

def configureLogger (m : LoggerManager) (ld : LogDefine) : LoggerManager :=
  match m.loggers[ld.name]? with
  | some l =>
    (m.modifyLogger l fun x =>
      { x with level := ld.level, formatter := .new ld.formatter }).updateAppender l ld
  | none =>
    let l := m.loggerStore.next
    let m := m.newLogger (.new ld.name ld.level ld.formatter)
    updateAppender { m with loggers := m.loggers.insert ld.name l } l ld

def removeLogger (m : LoggerManager) (name : String) : LoggerManager :=
  { m with loggers := m.loggers.erase name }

/-- The loop of the listener over the loggers that are registered at its start. -/
def removeMissing (newValue : LogDefineSet) (m : LoggerManager) (name : String) :
    LoggerManager :=
  if newValue.toList.any (·.name = name) then m else m.removeLogger name

/-- The listener of `LogInit`. -/
def logInit (m : LoggerManager) (newValue : LogDefineSet) : LoggerManager :=
  newValue.toList.foldl configureLogger (m.loggers.keys.foldl (removeMissing newValue) m)

end LoggerManager

end ZnetServer
