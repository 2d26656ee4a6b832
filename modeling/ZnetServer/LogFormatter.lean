import Mathlib.Order.Nat
import Mathlib.Order.Lattice

set_option autoImplicit false

/- `LogLevel`, `LogEvent` and `LogFormatter` of `server/log.h` and `server/log.cpp`. A
`std::string` is a `String` whose characters stand for its bytes; the character tests
are those of the C locale. -/
namespace ZnetServer

/-- `to_lower` of `server/util.h`. -/
def toLower (str : String) : String := String.ofList (str.toList.map Char.toLower)

inductive LogLevel where
  | unknow
  | debug
  | info
  | warn
  | error
  | fatal
  deriving DecidableEq

namespace LogLevel

/-- The enumerators' values. -/
def value : LogLevel → Nat
  | unknow => 0
  | debug => 1
  | info => 2
  | warn => 3
  | error => 4
  | fatal => 5

theorem value_injective : Function.Injective value := by
  intro a b same
  cases a <;> cases b <;> first | rfl | cases same

instance : LinearOrder LogLevel := LinearOrder.lift' value value_injective

theorem unknow_le (level : LogLevel) : unknow ≤ level := Nat.zero_le level.value

def toString : LogLevel → String
  | debug => "DEBUG"
  | info => "INFO"
  | warn => "WARN"
  | error => "ERROR"
  | fatal => "FATAL"
  | unknow => "UNKNOWN"

def fromString (str : String) : LogLevel :=
  if str = "debug" then debug
  else if str = "info" then info
  else if str = "warn" then warn
  else if str = "error" then error
  else if str = "fatal" then fatal
  else unknow

end LogLevel

structure LogEvent where
  file : String
  line : Int32
  elapse : UInt32
  threadId : UInt32
  fiberId : UInt32
  time : UInt64
  content : String
  level : LogLevel
  deriving DecidableEq

/-- `strftime` and `localtime_r`: the expansion of a format at a time, and what the
buffer holds when the expansion does not fit. -/
structure Strftime where
  expansion : String → UInt64 → String
  leftover : String → UInt64 → String

/-- The items with their members; the classes that ignore their format have none. -/
inductive FormatItem where
  | message
  | level
  | elapsed
  | name
  | threadId
  | newLine
  | time (format : String)
  | filename
  | line
  | tab
  | fiberId
  | string (str : String)
  deriving DecidableEq

namespace FormatItem

def defaultTimeFormat : String := "%Y-%m-%d %H:%M:%S"

/-- The constructor of `TimeFormatItem`. -/
def newTime (format : String) : FormatItem :=
  .time (if format = "" then defaultTimeFormat else format)

/-- `c_str()`, as a C function reads it. -/
def cString (str : String) : String := String.ofList (str.toList.takeWhile (· ≠ '\x00'))

/-- `char buf[64]` holds the expansion and its terminator. -/
def formatTime (clock : Strftime) (format : String) (time : UInt64) : String :=
  let text := clock.expansion (cString format) time
  if text.length + 1 ≤ 64 then text else clock.leftover format time

def format (clock : Strftime) (loggerName : String) (event : LogEvent) (level : LogLevel) :
    FormatItem → String
  | .message => event.content
  | .level => level.toString
  | .elapsed => ToString.toString event.elapse
  | .name => loggerName
  | .threadId => ToString.toString event.threadId
  | .newLine => "\n"
  | .time format => formatTime clock format event.time
  | .filename => event.file
  | .line => ToString.toString event.line
  | .tab => "\t"
  | .fiberId => ToString.toString event.fiberId
  | .string str => str

/-- `s_format_items` -/
def registered : List (String × (String → FormatItem)) :=
  [("m", fun _ => .message), ("p", fun _ => .level), ("r", fun _ => .elapsed),
    ("c", fun _ => .name), ("t", fun _ => .threadId), ("n", fun _ => .newLine),
    ("d", newTime), ("f", fun _ => .filename), ("l", fun _ => .line), ("T", fun _ => .tab),
    ("F", fun _ => .fiberId)]

/-- The item of a field. -/
def ofField (name format : String) : FormatItem :=
  match registered.lookup name with
  | none => .string ("<<error_format %" ++ name ++ ">>")
  | some make => make format

end FormatItem

namespace LogFormatter

/-- `fmt_status` with its values 0, 1 and 2. -/
inductive FmtStatus where
  | name
  | format
  | closed
  deriving DecidableEq

/-- The locals of the inner loop. -/
structure FieldScan where
  j : Nat
  status : FmtStatus
  fmtBegin : Nat
  field : List Char
  fmt : List Char
  deriving DecidableEq

def substr (pattern : List Char) (start count : Nat) : List Char :=
  (pattern.drop start).take count

/-- A character that ends a field name without opening a format. -/
def endsName (c : Char) : Bool := !c.isAlpha && c != '{' && c != '}'

/-- The inner loop of `init`. -/
def scanField (pattern : List Char) (i : Nat) (s : FieldScan) : FieldScan :=
  if inside : s.j < pattern.length then
    if s.status = .name ∧ endsName pattern[s.j] then
      { s with field := substr pattern (i + 1) (s.j - i - 1), j := s.j - 1 }
    else if s.status = .name ∧ pattern[s.j] = '{' then
      -- `j` stays; the brace is read again as part of the format.
      scanField pattern i
        { s with field := substr pattern (i + 1) (s.j - i - 1), status := .format,
                 fmtBegin := s.j + 1 }
    else if s.status = .format ∧ pattern[s.j] = '}' then
      { s with status := .closed, fmt := substr pattern s.fmtBegin (s.j - s.fmtBegin) }
    else scanField pattern i { s with j := s.j + 1 }
  else s
termination_by 2 * (pattern.length - s.j) + (if s.status = .name then 1 else 0)
decreasing_by
  · rename_i opens
    rw [if_pos opens.1]
    simp only [↓reduceIte]
    omega
  · omega

/-- The loop leaves `j` at `i` or behind. -/
theorem scanField_le (pattern : List Char) (i : Nat) (s : FieldScan) (behind : i + 1 ≤ s.j) :
    i ≤ (scanField pattern i s).j := by
  fun_induction scanField pattern i s with
  | case1 => simp only; omega
  | case2 _ _ _ _ ih => exact ih behind
  | case3 => simp only; omega
  | case4 _ _ _ _ _ ih => exact ih (by simp only; omega)
  | case5 => omega

/-- An entry of `vec`. -/
structure Piece where
  str : List Char
  fmt : List Char
  isField : Bool
  deriving DecidableEq

def Piece.text (str : List Char) : Piece := ⟨str, [], false⟩

def Piece.item (piece : Piece) : FormatItem :=
  if piece.isField then .ofField (String.ofList piece.str) (String.ofList piece.fmt)
  else .string (String.ofList piece.str)

/-- The inner loop's result as the entry of its field. -/
def FieldScan.piece (pattern : List Char) (i : Nat) (s : FieldScan) : Piece :=
  let field :=
    if s.j = pattern.length ∧ s.j - i - 1 > 0 then substr pattern (i + 1) (s.j - i - 1)
    else s.field
  if s.status = .format then ⟨"<<pattern_error>>".toList, s.fmt, false⟩
  else ⟨field, s.fmt, true⟩

/-- The locals at the top of the inner loop. -/
def FieldScan.start (i : Nat) : FieldScan := ⟨i + 1, .name, 0, [], []⟩

/-- `literal_str` becomes an entry unless it is empty. -/
def flush (vec : List Piece) (literal : List Char) : List Piece :=
  if literal = [] then vec else vec ++ [.text literal]

/-- The outer loop of `init`, with `vec` and `literal_str`. -/
def scan (pattern : List Char) (i : Nat) (vec : List Piece) (literal : List Char) :
    List Piece × List Char :=
  if inside : i < pattern.length then
    if pattern[i] ≠ '%' then scan pattern (i + 1) vec (literal ++ [pattern[i]])
    else if pattern[i + 1]? = some '%' then scan pattern (i + 1) vec (literal ++ ['%'])
    else
      let s := scanField pattern i (.start i)
      scan pattern (s.j + 1) (flush vec literal ++ [s.piece pattern i]) []
  else (vec, literal)
termination_by pattern.length - i
decreasing_by
  · omega
  · omega
  · have behind := scanField_le pattern i (.start i) (Nat.le_refl _)
    omega

end LogFormatter

structure LogFormatter where
  pattern : String
  items : List FormatItem
  deriving DecidableEq

namespace LogFormatter

/-- `init` appends to `m_items`; the text left in `literal_str` is dropped. -/
def init (formatter : LogFormatter) : LogFormatter :=
  { formatter with
    items := formatter.items ++ (scan formatter.pattern.toList 0 [] []).1.map Piece.item }

/-- The constructor. -/
def new (pattern : String) : LogFormatter := init ⟨pattern, []⟩

def setPattern (formatter : LogFormatter) (pattern : String) : LogFormatter :=
  init { formatter with pattern }

def format (clock : Strftime) (formatter : LogFormatter) (loggerName : String)
    (level : LogLevel) (event : LogEvent) : String :=
  String.join (formatter.items.map (·.format clock loggerName event level))

@[simp] theorem init_pattern (formatter : LogFormatter) :
    formatter.init.pattern = formatter.pattern := rfl

@[simp] theorem new_pattern (pattern : String) : (new pattern).pattern = pattern := rfl

theorem new_items (pattern : String) :
    (new pattern).items = (scan pattern.toList 0 [] []).1.map Piece.item := rfl

end LogFormatter

end ZnetServer
