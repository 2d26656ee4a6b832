import Mathlib.Data.String.Basic
import ZnetServer.LogFormatter
import ZnetServer.OrderedSet

set_option autoImplicit false

/- The objects of `server/log.h`: appenders, loggers and their definitions. Streams are
not part of an appender here; see the module on delivery. -/
namespace ZnetServer

/-- The class of an appender with the members that only this class has. -/
inductive Sink where
  | stdout
  | file (filepath : String)
  deriving DecidableEq

/-- `getAppenderType()` -/
def Sink.type : Sink → String
  | .stdout => "stdout"
  | .file _ => "file"

def Sink.isStdout : Sink → Bool
  | .stdout => true
  | .file _ => false

structure LogAppender where
  sink : Sink
  level : LogLevel
  /-- A pointer, null until `setFormatter` or `addAppender`. -/
  formatter : Option LogFormatter
  hasCustomFormatter : Bool
  deriving DecidableEq

/-- The constructors `StdoutLogAppender()` and `FileLogAppender(filepath)`. -/
def LogAppender.new (sink : Sink) : LogAppender where
  sink := sink
  level := .debug
  formatter := none
  hasCustomFormatter := false

/-- The default argument `pattern` of `Logger::Logger`. -/
def defaultPattern : String := "%d{%Y-%m-%d %H:%M:%S}%T%t%T%F%T[%p]%T[%c]%T%f:%l%T%m"

structure Logger where
  name : String
  level : LogLevel
  /-- References to appenders. -/
  appenders : List Nat
  formatter : LogFormatter
  /-- `m_root`, a reference to a logger. -/
  root : Option Nat
  deriving DecidableEq

/-- The constructor without appenders. -/
def Logger.new (name : String) (level : LogLevel) (pattern : String) : Logger where
  name := name
  level := level
  appenders := []
  formatter := .new pattern
  root := none

structure LogAppenderDefine where
  type : String
  path : String := ""
  level : LogLevel := .unknow
  formatter : String := ""
  deriving DecidableEq

namespace LogAppenderDefine

/-- `operator==` -/
def equals (a b : LogAppenderDefine) : Bool := a.type == b.type && a.path == b.path

def hasCustomLevel (a : LogAppenderDefine) : Bool := a.level != .unknow

def hasCustomFormatter (a : LogAppenderDefine) : Bool := a.formatter != ""

end LogAppenderDefine

structure LogDefine where
  name : String
  level : LogLevel
  formatter : String
  appender : List LogAppenderDefine
  deriving DecidableEq

/-- `operator==` of two vectors or two sets, with that of their elements. -/
def equalLists {α : Type} (equals : α → α → Bool) : List α → List α → Bool
  | [], [] => true
  | a :: as, b :: bs => equals a b && equalLists equals as bs
  | _, _ => false

/-- `operator==` -/
def LogDefine.equals (a b : LogDefine) : Bool :=
  a.name == b.name && a.level == b.level && a.formatter == b.formatter &&
    equalLists LogAppenderDefine.equals a.appender b.appender

/-- `std::set<LogDefine>`: `operator<` compares the names. -/
abbrev LogDefineSet := OrderedSet LogDefine.name

end ZnetServer
