import ZnetServer.LoggerInvariant

set_option autoImplicit false

/- `Logger::log` and the `log` of the two appenders, with the streams they write to. A
file appender whose file does not open logs that to the root logger, so the functions
call each other; a number bounds the depth of the calls. -/
namespace ZnetServer

/-- An open `m_filestream`: its file and the offset it writes at. -/
structure Stream where
  path : String
  offset : Nat
  deriving DecidableEq

structure Output where
  cout : String
  files : Std.ExtTreeMap String String
  /-- The open streams, by the reference of their appender. -/
  opened : Std.ExtTreeMap Nat Stream

/-- What logging reads from outside. -/
structure Host where
  clock : Strftime
  /-- Whether `open` succeeds on a path. -/
  openable : String → Bool
  /-- `gettid()` -/
  threadId : UInt32
  /-- `time(0)` -/
  now : UInt64
  /-- `__FILE__` in `server/log.cpp` -/
  logCpp : String

/-- A write at an offset: a gap is filled with zeros, what is there is replaced. -/
def writeAt (content : String) (offset : Nat) (text : String) : String :=
  let bytes := content.toList
  String.ofList (bytes.take offset ++ List.replicate (offset - bytes.length) '\x00' ++
    text.toList ++ bytes.drop (offset + text.length))

namespace Output

/-- `m_filestream << text` and `flush`. -/
def write (out : Output) (a : Nat) (stream : Stream) (text : String) : Output :=
  { out with
    files := out.files.insert stream.path
      (writeAt ((out.files[stream.path]?).getD "") stream.offset text)
    opened := out.opened.insert a { stream with offset := stream.offset + text.length } }

/-- `FileLogAppender::reopen`: `open` truncates the file. -/
def reopen (host : Host) (out : Output) (a : Nat) (path : String) : Output :=
  if host.openable path then
    { out with files := out.files.insert path "", opened := out.opened.insert a ⟨path, 0⟩ }
  else { out with opened := out.opened.erase a }

/-- The test of `is_open()` in front of `reopen`. -/
def ready (host : Host) (out : Output) (a : Nat) (path : String) : Output :=
  if a ∈ out.opened then out else out.reopen host a path

end Output

namespace LoggerManager

/-- `Logger::log` on a logger. -/
abbrev Log := Nat → LogLevel → LogEvent → Output → Option Output

/-- The event of `ZNS_LOG_ERROR` in `FileLogAppender::log`, with the end of line that
`~LogEventWrap` adds. -/
def openFailed (host : Host) (path : String) : LogEvent where
  file := host.logCpp
  line := 296
  elapse := 0
  threadId := host.threadId
  fiberId := 0
  time := host.now
  content := "Failed to open log file: " ++ path ++ "\n"
  level := .error

/-- `ZNS_LOG_ERROR(ZNS_LOG_ROOT())` -/
def logRootError (m : LoggerManager) (log : Log) (event : LogEvent) (out : Output) :
    Option Output :=
  match m.logger m.root with
  | none => none
  | some root => if root.level ≤ .error then log m.root event.level event out else some out

/-- `FileLogAppender::log` behind the first test of `is_open()`. -/
def fileLog (host : Host) (m : LoggerManager) (log : Log) (a : Nat) (path : String)
    (text : Option String) (out : Output) : Option Output :=
  match out.opened[a]? with
  | some stream => text.map (out.write a stream)
  | none => m.logRootError log (openFailed host path) out

/-- The `log` of an appender; `none` is a call that does not return. -/
def appenderLog (host : Host) (m : LoggerManager) (log : Log) (loggerName : String)
    (level : LogLevel) (event : LogEvent) (out : Output) (a : Nat) : Option Output :=
  match m.appender a with
  | none => none
  | some x =>
    if x.level ≤ level then
      let text := x.formatter.map fun f => f.format host.clock loggerName level event
      match x.sink with
      | .stdout => text.map fun text => { out with cout := out.cout ++ text }
      | .file path => m.fileLog host log a path text (out.ready host a path)
    else some out

/-- `Logger::log` with calls nested at most `depth` deep. -/
def log (host : Host) (m : LoggerManager) : Nat → Log
  | 0, _, _, _, _ => none
  | depth + 1, l, level, event, out =>
    match m.logger l with
    | none => none
    | some x =>
      if x.level ≤ level then
        x.appenders.foldlM (m.appenderLog host (log host m depth) x.name level event) out
      else some out

section Delivery

variable (host : Host) (m : LoggerManager)

/-- The appender accepts the level, is not open and cannot be opened. -/
def Fails (level : LogLevel) (out : Output) (a : Nat) : Prop :=
  ∃ x path, m.appender a = some x ∧ x.sink = .file path ∧ x.level ≤ level ∧
    out.opened[a]? = none ∧ host.openable path = false

/-- The logger passes the level on to such an appender. -/
def Unwritable (level : LogLevel) (out : Output) (l : Nat) : Prop :=
  ∃ x, m.logger l = some x ∧ x.level ≤ level ∧ ∃ a ∈ x.appenders, Fails host m level out a

/-- What logging does to the streams: none is closed, and none is opened on a path that
cannot be opened. -/
structure Later (before after : Output) : Prop where
  opened : ∀ a : Nat, before.opened[a]? ≠ none → after.opened[a]? ≠ none
  closed : ∀ (a : Nat) x path, m.appender a = some x → x.sink = .file path →
    host.openable path = false → before.opened[a]? = none → after.opened[a]? = none

variable {host m}

namespace Later

variable {before middle after : Output}

theorem refl (out : Output) : Later host m out out :=
  ⟨fun _ still => still, fun _ _ _ _ _ _ still => still⟩

theorem trans (first : Later host m before middle) (second : Later host m middle after) :
    Later host m before after where
  opened := fun a still => second.opened a (first.opened a still)
  closed := fun a x path found file shut still =>
    second.closed a x path found file shut (first.closed a x path found file shut still)

theorem fails_iff (later : Later host m before after) (level : LogLevel) (a : Nat) :
    Fails host m level after a ↔ Fails host m level before a := by
  constructor
  · intro fails
    obtain ⟨x, path, found, file, accepts, closed, shut⟩ := fails
    refine ⟨x, path, found, file, accepts, ?_, shut⟩
    by_contra still
    exact later.opened a still closed
  · intro fails
    obtain ⟨x, path, found, file, accepts, closed, shut⟩ := fails
    exact ⟨x, path, found, file, accepts, later.closed a x path found file shut closed, shut⟩

theorem unwritable_iff (later : Later host m before after) (level : LogLevel) (l : Nat) :
    Unwritable host m level after l ↔ Unwritable host m level before l := by
  simp only [Unwritable, later.fails_iff]

end Later

/-- Setting one stream, unless it opens a path that cannot be opened. -/
theorem insert_later {out after : Output} {a : Nat} {stream : Stream}
    (shape : after.opened = out.opened.insert a stream)
    (allowed : ∀ x path, m.appender a = some x → x.sink = .file path →
      host.openable path = false → out.opened[a]? ≠ none) : Later host m out after := by
  constructor
  · intro b still
    rw [shape, Std.ExtTreeMap.getElem?_insert]
    split
    · exact Option.some_ne_none _
    · exact still
  · intro b x path found file shut closed
    rw [shape, Std.ExtTreeMap.getElem?_insert]
    split
    · rename_i same
      obtain rfl := Std.LawfulEqCmp.eq_of_compare same
      exact absurd closed (allowed x path found file shut)
    · exact closed

theorem write_later (out : Output) {a : Nat} {stream : Stream}
    (here : out.opened[a]? = some stream) (text : String) :
    Later host m out (out.write a stream text) := by
  have open_already : out.opened[a]? ≠ none := by
    rw [here]
    exact Option.some_ne_none stream
  exact insert_later rfl fun _ _ _ _ _ => open_already

/-- Opening the file of an appender that is closed. -/
theorem reopen_later (out : Output) {a : Nat} {x : LogAppender} {path : String}
    (found : m.appender a = some x) (file : x.sink = .file path) (closed : a ∉ out.opened) :
    Later host m out (out.reopen host a path) := by
  unfold Output.reopen
  split
  · rename_i opens
    apply insert_later rfl
    intro y other present sink shut
    have same : y = x := Option.some.inj (present.symm.trans found)
    have named : other = path := Sink.file.inj ((sink.symm.trans (same ▸ rfl)).trans file)
    rw [named, opens] at shut
    cases shut
  · have gone : out.opened[a]? = none := Std.ExtTreeMap.getElem?_eq_none closed
    have same : ∀ b : Nat, (out.opened.erase a)[b]? = out.opened[b]? := by
      intro b
      rw [Std.ExtTreeMap.getElem?_erase]
      split
      · rename_i equal
        rw [← Std.LawfulEqCmp.eq_of_compare equal, gone]
      · rfl
    constructor
    · intro b still
      rw [same]
      exact still
    · intro b _ _ _ _ _ still
      rw [same]
      exact still

theorem ready_later (out : Output) {a : Nat} {x : LogAppender} {path : String}
    (found : m.appender a = some x) (file : x.sink = .file path) :
    Later host m out (out.ready host a path) := by
  unfold Output.ready
  split
  · exact Later.refl out
  · rename_i closed
    exact reopen_later out found file closed

variable {inner : Log} {name : String} {level : LogLevel} {event : LogEvent}

/-- What nested calls do to the streams. -/
def InnerLater (host : Host) (m : LoggerManager) (inner : Log) : Prop :=
  ∀ l level event before after, inner l level event before = some after →
    Later host m before after

theorem fileLog_later {out after : Output} {a : Nat} {path : String} {text : Option String}
    (nested : InnerLater host m inner)
    (returns : m.fileLog host inner a path text out = some after) : Later host m out after := by
  unfold fileLog at returns
  split at returns
  · rename_i stream here
    obtain ⟨text, _, rfl⟩ := Option.map_eq_some_iff.mp returns
    exact write_later out here text
  · unfold logRootError at returns
    split at returns
    · cases returns
    · split at returns
      · exact nested _ _ _ _ _ returns
      · exact Option.some.inj returns ▸ Later.refl out

theorem appenderLog_later {out after : Output} {a : Nat} (nested : InnerLater host m inner)
    (returns : m.appenderLog host inner name level event out a = some after) :
    Later host m out after := by
  unfold appenderLog at returns
  split at returns
  · cases returns
  · rename_i x found
    split at returns
    · split at returns
      · obtain ⟨text, _, rfl⟩ := Option.map_eq_some_iff.mp returns
        exact ⟨fun _ still => still, fun _ _ _ _ _ _ still => still⟩
      · rename_i path file
        exact (ready_later out found file).trans (fileLog_later nested returns)
    · exact Option.some.inj returns ▸ Later.refl out

theorem appenders_later (appenders : List Nat) {out after : Output}
    (nested : InnerLater host m inner)
    (returns : appenders.foldlM (m.appenderLog host inner name level event) out = some after) :
    Later host m out after := by
  induction appenders generalizing out with
  | nil => exact Option.some.inj returns ▸ Later.refl out
  | cons a rest ih =>
      rw [List.foldlM_cons] at returns
      obtain ⟨middle, first, later⟩ := Option.bind_eq_some_iff.mp returns
      exact (appenderLog_later nested first).trans (ih later)

theorem log_later (depth : Nat) : InnerLater host m (log host m depth) := by
  induction depth with
  | zero =>
      intro l level event before after returns
      cases returns
  | succ depth ih =>
      intro l level event before after returns
      unfold log at returns
      split at returns
      · cases returns
      · rename_i x _
        split at returns
        · exact appenders_later x.appenders ih returns
        · exact Option.some.inj returns ▸ Later.refl before

/-- An appender that is not ready after `reopen` is one that fails. -/
theorem ready_none {out : Output} {a : Nat} {path : String}
    (here : (out.ready host a path).opened[a]? = none) :
    out.opened[a]? = none ∧ host.openable path = false := by
  unfold Output.ready at here
  split at here
  · rename_i inside
    rw [Std.ExtTreeMap.getElem?_eq_some_getElem inside] at here
    cases here
  · rename_i closed
    refine ⟨Std.ExtTreeMap.getElem?_eq_none closed, ?_⟩
    unfold Output.reopen at here
    split at here
    · rw [Std.ExtTreeMap.getElem?_insert_self] at here
      cases here
    · rename_i shut
      simpa using shut

/-- The root logger returns from every error that is logged from now on. -/
def RootReturns (host : Host) (m : LoggerManager) (inner : Log) (out : Output) : Prop :=
  ∀ own after, Later host m out after → own.level = .error →
    ∃ last, m.logRootError inner own after = some last

/-- An appender returns if it does not fail or the root logger returns. -/
theorem appenderLog_returns {out : Output} {a : Nat} {x : LogAppender}
    (found : m.appender a = some x) (formatted : x.formatter.isSome = true)
    (fine : ¬ Fails host m level out a ∨ RootReturns host m inner out) :
    ∃ after, m.appenderLog host inner name level event out a = some after := by
  obtain ⟨formatter, given⟩ := Option.isSome_iff_exists.mp formatted
  by_cases accepts : x.level ≤ level
  · cases sink : x.sink with
    | stdout => simp [appenderLog, found, accepts, sink, given]
    | file path =>
        cases here : (out.ready host a path).opened[a]? with
        | some stream => simp [appenderLog, fileLog, found, accepts, sink, given, here]
        | none =>
            have failing : Fails host m level out a :=
              ⟨x, path, found, sink, accepts, ready_none here⟩
            rcases fine with writable | root
            · exact absurd failing writable
            · obtain ⟨last, returns⟩ := root (openFailed host path) _
                (ready_later out found sink) rfl
              exact ⟨last, by simp [appenderLog, fileLog, found, accepts, sink, here, returns]⟩
  · exact ⟨out, by simp [appenderLog, found, accepts]⟩

theorem appenders_return (wf : WellFormed m) {l : Nat} {x : Logger}
    (found : m.logger l = some x) (nested : InnerLater host m inner) (appenders : List Nat)
    (inside : appenders ⊆ x.appenders) {out : Output}
    (fine : (∀ a ∈ appenders, ¬ Fails host m level out a) ∨ RootReturns host m inner out) :
    ∃ after, appenders.foldlM (m.appenderLog host inner name level event) out = some after := by
  induction appenders generalizing out with
  | nil => exact ⟨out, rfl⟩
  | cons a rest ih =>
      obtain ⟨y, present, formatted⟩ := wf.attached l x found a (inside List.mem_cons_self)
      obtain ⟨middle, first⟩ :
          ∃ middle, m.appenderLog host inner name level event out a = some middle :=
        appenderLog_returns present formatted
          (fine.imp_left fun writable => writable a List.mem_cons_self)
      have later := appenderLog_later nested first
      have still : (∀ b ∈ rest, ¬ Fails host m level middle b) ∨
          RootReturns host m inner middle := by
        rcases fine with writable | root
        · refine Or.inl fun b member fails => ?_
          exact writable b (List.mem_cons_of_mem a member) ((later.fails_iff level b).mp fails)
        · exact Or.inr fun own after further => root own after (later.trans further)
      obtain ⟨after, last⟩ := ih (fun b member => inside (List.mem_cons_of_mem a member)) still
      exact ⟨after, by rw [List.foldlM_cons, first]; exact last⟩

/-- A logger returns if it has nothing to report to the root logger, or that one returns. -/
theorem log_returns (wf : WellFormed m) {l : Nat} {x : Logger} (found : m.logger l = some x)
    {depth : Nat} {out : Output}
    (fine : ¬ Unwritable host m level out l ∨ RootReturns host m (log host m depth) out) :
    ∃ after, log host m (depth + 1) l level event out = some after := by
  by_cases passes : x.level ≤ level
  · simp only [log, found, if_pos passes]
    apply appenders_return wf found (log_later depth) x.appenders (List.Subset.refl _)
    refine fine.imp_left fun writable a member fails => ?_
    exact writable ⟨x, found, passes, a, member, fails⟩
  · exact ⟨out, by simp only [log, found, if_neg passes]⟩

theorem root_returns (wf : WellFormed m) {out : Output}
    (writable : ¬ Unwritable host m .error out m.root) :
    RootReturns host m (log host m 1) out := by
  intro own after later error
  obtain ⟨root, found⟩ := wf.rooted
  by_cases passes : root.level ≤ .error
  · have still : ¬ Unwritable host m .error after m.root := by
      rw [later.unwritable_iff]
      exact writable
    obtain ⟨last, returns⟩ : ∃ last, log host m 1 m.root .error own after = some last :=
      log_returns wf found (Or.inl still)
    exact ⟨last, by simp only [logRootError, found, if_pos passes, error, returns]⟩
  · exact ⟨after, by simp only [logRootError, found, if_neg passes]⟩

/-- The root logger never returns from an error that is logged from now on. -/
def RootDiverges (host : Host) (m : LoggerManager) (inner : Log) (out : Output) : Prop :=
  ∀ own after, Later host m out after → own.level = .error →
    m.logRootError inner own after = none

theorem appenderLog_diverges {out : Output} {a : Nat} (fails : Fails host m level out a)
    (root : RootDiverges host m inner out) :
    m.appenderLog host inner name level event out a = none := by
  obtain ⟨x, path, found, file, accepts, closed, shut⟩ := fails
  have opening : Later host m out (out.ready host a path) := ready_later out found file
  have still := opening.closed a x path found file shut closed
  have never := root (openFailed host path) _ opening rfl
  simp only [appenderLog, found, if_pos accepts, file, fileLog, still, never]

/-- The loop over the appenders does not get past one that fails. -/
theorem appenders_diverge (appenders : List Nat) (nested : InnerLater host m inner)
    {out : Output} {a : Nat} (member : a ∈ appenders) (fails : Fails host m level out a)
    (root : RootDiverges host m inner out) :
    appenders.foldlM (m.appenderLog host inner name level event) out = none := by
  induction appenders generalizing out with
  | nil => cases member
  | cons b rest ih =>
      rw [List.foldlM_cons]
      rcases List.mem_cons.mp member with rfl | inside
      · rw [appenderLog_diverges fails root]
        rfl
      · cases first : m.appenderLog host inner name level event out b with
        | none => rfl
        | some middle =>
            have later := appenderLog_later nested first
            apply ih inside ((later.fails_iff level a).mpr fails)
            intro own after further error
            exact root own after (later.trans further) error

theorem log_diverges {l depth : Nat} {out : Output} (failing : Unwritable host m level out l)
    (root : RootDiverges host m (log host m depth) out) :
    log host m (depth + 1) l level event out = none := by
  obtain ⟨x, found, passes, a, member, fails⟩ := failing
  simp only [log, found, if_pos passes]
  exact appenders_diverge x.appenders (log_later depth) member fails root

/-- The failing appender of the root logger reports to the root logger, at every depth. -/
theorem root_diverges (depth : Nat) {out : Output}
    (failing : Unwritable host m .error out m.root) :
    RootDiverges host m (log host m depth) out := by
  induction depth generalizing out with
  | zero =>
      intro own after later error
      obtain ⟨root, found, passes, _⟩ := failing
      simp only [logRootError, found, if_pos passes, log]
  | succ depth ih =>
      intro own after later error
      have still := (later.unwritable_iff .error m.root).mpr failing
      obtain ⟨root, found, passes, _⟩ := failing
      simp only [logRootError, found, if_pos passes, error]
      exact log_diverges still (ih still)

/-- No depth is enough for a logger whose report goes to such a root logger. -/
theorem never_returns {l : Nat} {out : Output} (failing : Unwritable host m level out l)
    (root : Unwritable host m .error out m.root) (depth : Nat) :
    log host m depth l level event out = none := by
  cases depth with
  | zero => rfl
  | succ depth => exact log_diverges failing (root_diverges depth root)

/-- Logging comes back unless both the logger and the root logger have an appender whose
file cannot be opened. -/
theorem log_returns_iff (host : Host) (m : LoggerManager) (wf : WellFormed m) (l : Nat)
    (x : Logger) (found : m.logger l = some x) (level : LogLevel) (event : LogEvent)
    (out : Output) :
    (∃ depth after, log host m depth l level event out = some after) ↔
      ¬ (Unwritable host m level out l ∧ Unwritable host m .error out m.root) := by
  constructor
  · intro returns failing
    obtain ⟨depth, after, returns⟩ := returns
    rw [never_returns failing.1 failing.2 depth] at returns
    cases returns
  · intro fine
    by_cases failing : Unwritable host m level out l
    · have root := root_returns wf fun unwritable => fine ⟨failing, unwritable⟩
      exact ⟨2, log_returns wf found (Or.inr root)⟩
    · exact ⟨1, log_returns wf found (Or.inl failing)⟩

/-- A logger with a file appender on a path that cannot be opened. -/
def sampleDefine (name : String) : LogDefine :=
  ⟨name, .debug, "%m%n", [{ type := "file", path := "../logs/root.log" }]⟩

/-- A host on which no file can be opened. -/
def sampleHost : Host where
  clock := ⟨fun _ _ => "", fun _ _ => ""⟩
  openable := fun _ => false
  threadId := 1
  now := 0
  logCpp := "log.cpp"

def sampleEvent : LogEvent := ⟨"main.cpp", 1, 0, 1, 0, 0, "ready", .info⟩

/-- The file of 'net' cannot be opened; the root logger writes the report to `cout`. -/
theorem log_returns_net : ∃ depth after,
    log sampleHost (init.configureLogger (sampleDefine "net")) depth 1 .info sampleEvent
      ⟨"", ∅, ∅⟩ = some after := by
  apply (log_returns_iff sampleHost _ (init_wellFormed.configureLogger _) 1 _ rfl .info
    sampleEvent ⟨"", ∅, ∅⟩).mpr
  intro failing
  obtain ⟨root, found, _, a, member, x, path, present, file, _⟩ := failing.2
  obtain rfl := Option.some.inj found
  obtain rfl := List.mem_singleton.mp member
  obtain rfl := Option.some.inj present
  cases file

theorem log_never_returns_root :
    WellFormed (init.configureLogger (sampleDefine "root")) ∧ ¬ ∃ depth after,
      log sampleHost (init.configureLogger (sampleDefine "root")) depth 0 .info sampleEvent
        ⟨"", ∅, ∅⟩ = some after := by
  have failing : ∀ level : LogLevel, .debug ≤ level → Unwritable sampleHost
      (init.configureLogger (sampleDefine "root")) level ⟨"", ∅, ∅⟩ 0 := by
    intro level passes
    exact ⟨_, rfl, passes, 1, List.mem_singleton_self 1, _, _, rfl, rfl, passes, rfl, rfl⟩
  refine ⟨init_wellFormed.configureLogger _, fun returns => ?_⟩
  obtain ⟨depth, after, returns⟩ := returns
  rw [never_returns (failing .info (by decide)) (failing .error (by decide))] at returns
  cases returns

end Delivery

end LoggerManager

end ZnetServer
