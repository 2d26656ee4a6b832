import ZnetServer.LogYaml
import ZnetServer.LoggerFallback

set_option autoImplicit false

/- What a call of `Logger::log` writes, as a list that is known before it: one record for each
appender that takes the event, or what the root logger says of a file that cannot be opened. -/
namespace ZnetServer

namespace LoggerManager

/-- An event on its way to an appender that takes it. -/
structure Record where
  appender : Nat
  loggerName : String
  level : LogLevel
  event : LogEvent

/-- The formatted text, and the class and path of the appender. -/
def Record.text (host : Host) (x : LogAppender) (r : Record) : String :=
  (x.formatter.map fun f => f.format host.clock r.loggerName r.level r.event).getD ""

/-- The appender writes the record; its file is opened first if need be. -/
def put (host : Host) (m : LoggerManager) (out : Output) (r : Record) : Output :=
  match m.appender r.appender with
  | none => out
  | some x =>
    match x.sink with
    | .stdout => { out with cout := out.cout ++ r.text host x }
    | .file path =>
      let ready := out.ready host r.appender path
      match ready.opened[r.appender]? with
      | some stream => ready.write r.appender stream (r.text host x)
      | none => ready

/-- The path of a file appender that is not open and cannot be opened. -/
def shutPath (host : Host) (m : LoggerManager) (out : Output) (a : Nat) : Option String :=
  match m.appender a with
  | none => none
  | some x =>
    match x.sink with
    | .stdout => none
    | .file path => if a ∈ out.opened ∨ host.openable path = true then none else some path

/-- What the root logger writes of such a path. -/
def reports (host : Host) (m : LoggerManager) (path : String) : List Record :=
  match m.logger m.root with
  | none => []
  | some root =>
    (m.receivers m.root .error).map fun a => ⟨a, root.name, .error, openFailed host path⟩

/-- What comes of an event at an appender that takes it. -/
def recordsAt (host : Host) (m : LoggerManager) (out : Output) (name : String) (level : LogLevel)
    (event : LogEvent) (a : Nat) : List Record :=
  match shutPath host m out a with
  | none => [⟨a, name, level, event⟩]
  | some path => reports host m path

/-- The records of a call of `Logger::log`, in order. -/
def records (host : Host) (m : LoggerManager) (out : Output) (l : Nat) (level : LogLevel)
    (event : LogEvent) : List Record :=
  match m.logger l with
  | none => []
  | some x => (m.receivers l level).flatMap (recordsAt host m out x.name level event)

section Writes

variable {host : Host} {m : LoggerManager} {out : Output} {a : Nat}

theorem shutPath_eq_some {path : String} : shutPath host m out a = some path ↔
    ∃ x, m.appender a = some x ∧ x.sink = .file path ∧ out.opened[a]? = none ∧
      host.openable path = false := by
  unfold shutPath
  cases found : m.appender a with
  | none => simp
  | some x =>
      cases sink : x.sink with
      | stdout => simp [sink]
      | file other =>
          simp only [sink, Option.some.injEq, Sink.file.injEq, exists_eq_left']
          constructor
          · intro shut
            split at shut
            · cases shut
            · rename_i closed
              rw [not_or] at closed
              obtain rfl := Option.some.inj shut
              exact ⟨rfl, Std.ExtTreeMap.getElem?_eq_none closed.1, by simpa using closed.2⟩
          · rintro ⟨rfl, closed, shut⟩
            have outside : a ∉ out.opened := fun inside => by
              rw [Std.ExtTreeMap.getElem?_eq_some_getElem inside] at closed
              cases closed
            simp [outside, shut]

/-- Logging shuts no path and opens none that is shut. -/
theorem Later.shutPath_eq {after : Output} (later : Later host m out after) (a : Nat) :
    shutPath host m after a = shutPath host m out a := by
  apply Option.ext
  intro path
  rw [shutPath_eq_some, shutPath_eq_some]
  constructor
  · rintro ⟨x, found, file, closed, shut⟩
    refine ⟨x, found, file, ?_, shut⟩
    by_contra still
    exact later.opened a still closed
  · rintro ⟨x, found, file, closed, shut⟩
    exact ⟨x, found, file, later.closed a x path found file shut closed, shut⟩

/-- A file that cannot be opened leaves the streams as they are. -/
theorem ready_shut {path : String} (closed : out.opened[a]? = none)
    (shut : host.openable path = false) : out.ready host a path = out := by
  have same : out.opened.erase a = out.opened := by
    apply Std.ExtTreeMap.ext_getElem?
    intro b
    rw [Std.ExtTreeMap.getElem?_erase]
    split
    · rename_i equal
      rw [← Std.LawfulEqCmp.eq_of_compare equal, closed]
    · rfl
  simp only [Output.ready, Output.reopen, shut, Bool.false_eq_true, ↓reduceIte, same, ite_self]

variable {inner : Log} {name : String} {level : LogLevel} {event : LogEvent} {x : LogAppender}

/-- An appender whose file is not shut writes the record. -/
theorem appenderLog_put (found : m.appender a = some x) (formatted : x.formatter.isSome = true)
    (accepts : x.level ≤ level) (writable : shutPath host m out a = none) :
    m.appenderLog host inner name level event out a =
      some (put host m out ⟨a, name, level, event⟩) := by
  obtain ⟨f, given⟩ := Option.isSome_iff_exists.mp formatted
  cases sink : x.sink with
  | stdout => simp [appenderLog, put, Record.text, found, accepts, sink, given]
  | file path =>
      cases here : (out.ready host a path).opened[a]? with
      | some stream =>
          simp [appenderLog, fileLog, put, Record.text, found, accepts, sink, given, here]
      | none =>
          obtain ⟨closed, shut⟩ := ready_none here
          rw [shutPath_eq_some.mpr ⟨x, found, sink, closed, shut⟩] at writable
          cases writable

/-- An appender whose file is shut hands the report to the root logger. -/
theorem appenderLog_report {path : String} (found : m.appender a = some x)
    (accepts : x.level ≤ level) (shut : shutPath host m out a = some path) :
    m.appenderLog host inner name level event out a =
      m.logRootError inner (openFailed host path) out := by
  obtain ⟨y, same, file, closed, unopenable⟩ := shutPath_eq_some.mp shut
  obtain rfl := Option.some.inj (found.symm.trans same)
  simp only [appenderLog, found, if_pos accepts, file, fileLog, ready_shut closed unopenable,
    closed]

theorem mem_receivers (wf : WellFormed m) {l : Nat} (member : a ∈ m.receivers l level) :
    ∃ y, m.appender a = some y ∧ y.formatter.isSome = true ∧ y.level ≤ level ∧
      ∃ z, m.logger l = some z ∧ z.level ≤ level ∧ a ∈ z.appenders := by
  unfold receivers at member
  split at member
  · cases member
  · rename_i z found
    split at member
    · rename_i passes
      obtain ⟨attached, accepted⟩ := List.mem_filter.mp member
      obtain ⟨y, present, formatted⟩ := wf.attached l z found a attached
      rw [present] at accepted
      exact ⟨y, present, formatted, by simpa using accepted, z, found, passes, attached⟩
    · cases member

theorem unwritable_of_shut (wf : WellFormed m) {l : Nat} {path : String}
    (member : a ∈ m.receivers l level) (shut : shutPath host m out a = some path) :
    Unwritable host m level out l := by
  obtain ⟨y, found, _, accepts, z, logger, passes, attached⟩ := mem_receivers wf member
  obtain ⟨other, same, file, closed, unopenable⟩ := shutPath_eq_some.mp shut
  obtain rfl := Option.some.inj (found.symm.trans same)
  exact ⟨z, logger, passes, a, attached, y, path, found, file, accepts, closed, unopenable⟩

/-- Where nothing is shut every receiver can write. -/
theorem writable_receivers (wf : WellFormed m) {l : Nat}
    (writable : ¬ Unwritable host m level out l) (member : a ∈ m.receivers l level) :
    shutPath host m out a = none := by
  by_contra shut
  obtain ⟨path, shut⟩ := Option.ne_none_iff_exists'.mp shut
  exact writable (unwritable_of_shut wf member shut)

/-- The loop over appenders, if each of them does what is expected of it. -/
theorem appenders_put (appenders : List Nat) (nested : InnerLater host m inner)
    (each : ∀ a ∈ appenders, ∀ after, Later host m out after →
      m.appenderLog host inner name level event after a =
        some ((recordsAt host m out name level event a).foldl (put host m) after))
    {after : Output} (later : Later host m out after) :
    appenders.foldlM (m.appenderLog host inner name level event) after =
      some ((appenders.flatMap (recordsAt host m out name level event)).foldl
        (put host m) after) := by
  induction appenders generalizing after with
  | nil => rfl
  | cons a rest ih =>
      have here := each a List.mem_cons_self after later
      have further := later.trans (appenderLog_later nested here)
      rw [List.foldlM_cons, here, List.flatMap_cons, List.foldl_append]
      exact ih (fun b member => each b (List.mem_cons_of_mem a member)) further

theorem appender_writes (wf : WellFormed m) {l : Nat} (member : a ∈ m.receivers l level)
    (writable : shutPath host m out a = none) {after : Output} (later : Later host m out after) :
    m.appenderLog host inner name level event after a =
      some ((recordsAt host m out name level event a).foldl (put host m) after) := by
  obtain ⟨y, found, formatted, accepts, _⟩ := mem_receivers wf member
  have still := (later.shutPath_eq a).trans writable
  rw [appenderLog_put found formatted accepts still, recordsAt, writable]
  rfl

/-- A call of a logger that can write: every receiver gets the record. -/
theorem log_writable (wf : WellFormed m) {l : Nat} {z : Logger} (found : m.logger l = some z)
    (writable : ¬ Unwritable host m level out l) (depth : Nat) :
    log host m (depth + 1) l level event out =
      some (((m.receivers l level).map fun a => ⟨a, z.name, level, event⟩).foldl
        (put host m) out) := by
  have single : ∀ a ∈ m.receivers l level, recordsAt host m out z.name level event a =
      [⟨a, z.name, level, event⟩] := by
    intro a member
    rw [recordsAt, writable_receivers wf writable member]
  have told : (m.receivers l level).flatMap (recordsAt host m out z.name level event) =
      (m.receivers l level).map fun a => ⟨a, z.name, level, event⟩ := by
    rw [List.flatMap_congr single]
    exact List.map_eq_flatMap.symm
  rw [log_receivers wf found, appenders_put _ (log_later depth) (fun a member after later =>
    appender_writes wf member (writable_receivers wf writable member) later) (Later.refl out), told]

/-- What the root logger makes of a report, if nothing of its own is shut. -/
theorem logRootError_reports (wf : WellFormed m) (depth : Nat) (path : String)
    (writable : ¬ Unwritable host m .error out m.root) :
    m.logRootError (log host m (depth + 1)) (openFailed host path) out =
      some ((reports host m path).foldl (put host m) out) := by
  obtain ⟨root, found⟩ := wf.rooted
  by_cases passes : root.level ≤ .error
  · simp only [logRootError, found, if_pos passes, reports]
    exact log_writable wf found writable depth
  · have nothing : reports host m path = [] := by
      simp only [reports, receivers, found, if_neg passes, List.map_nil]
    simp only [logRootError, found, if_neg passes, nothing, List.foldl_nil]

end Writes

/-- Unless both the logger and the root logger have an appender whose file cannot be opened, the
call writes the records that are known before it, in their order, and nothing else. -/
theorem log_records (host : Host) (m : LoggerManager) (wf : WellFormed m) (l : Nat) (x : Logger)
    (found : m.logger l = some x) (level : LogLevel) (event : LogEvent) (out : Output)
    (fine : ¬ (Unwritable host m level out l ∧ Unwritable host m .error out m.root))
    (depth : Nat) : log host m (depth + 2) l level event out =
      some ((records host m out l level event).foldl (put host m) out) := by
  have each : ∀ a ∈ m.receivers l level, ∀ after, Later host m out after →
      m.appenderLog host (log host m (depth + 1)) x.name level event after a =
        some ((recordsAt host m out x.name level event a).foldl (put host m) after) := by
    intro a member after later
    cases shut : shutPath host m out a with
    | none => exact appender_writes wf member shut later
    | some path =>
        obtain ⟨y, present, _, accepts, _⟩ := mem_receivers wf member
        have root : ¬ Unwritable host m .error after m.root := by
          rw [later.unwritable_iff]
          exact fun unwritable => fine ⟨unwritable_of_shut wf member shut, unwritable⟩
        rw [appenderLog_report present accepts ((later.shutPath_eq a).trans shut),
          logRootError_reports wf depth path root, recordsAt, shut]
  rw [log_receivers wf found, appenders_put _ (log_later (depth + 1)) each (Later.refl out),
    records, found]

/-- The file of 'net' cannot be opened: the root logger says so. -/
theorem log_records_net :
    log sampleHost (init.configureLogger (sampleDefine "net")) 2 1 .info sampleEvent ⟨"", ∅, ∅⟩ =
      some (put sampleHost (init.configureLogger (sampleDefine "net")) ⟨"", ∅, ∅⟩
        ⟨0, "root", .error, openFailed sampleHost "../logs/root.log"⟩) := by
  have wf := init_wellFormed.configureLogger (sampleDefine "net")
  have writable : ¬ Unwritable sampleHost (init.configureLogger (sampleDefine "net")) .error
      ⟨"", ∅, ∅⟩ (init.configureLogger (sampleDefine "net")).root := by
    rintro ⟨root, found, _, a, member, x, path, present, file, _⟩
    obtain rfl := Option.some.inj found
    obtain rfl := List.mem_singleton.mp member
    obtain rfl := Option.some.inj present
    cases file
  rw [log_records sampleHost _ wf 1 _ rfl .info sampleEvent ⟨"", ∅, ∅⟩
    (fun both => writable both.2) 0]
  rfl

end LoggerManager

/-- What the appenders of a logger write of an event, and to where. -/
def LoggerView.writes (host : Host) (name : String) (v : LoggerView) (level : LogLevel)
    (event : LogEvent) : List (Sink × String) :=
  if v.level ≤ level then
    (v.appenders.filter (·.level ≤ level)).map fun x =>
      (x.sink, (x.formatter.map fun f => f.format host.clock name level event).getD "")
  else []

/-- Its files can be opened. -/
def LoggerView.Writable (host : Host) (v : LoggerView) : Prop :=
  ∀ x ∈ v.appenders, ∀ path, x.sink = .file path → host.openable path = true

namespace LoggerManager

/-- Where a record goes, and its text. -/
def written (host : Host) (m : LoggerManager) (r : Record) : Option (Sink × String) :=
  (m.appender r.appender).map fun x => (x.sink, r.text host x)

/-- Choosing among the references and among what they refer to. -/
theorem filterMap_filter_any {α β γ : Type*} (find : α → Option β) (p : β → Bool) (f : β → γ)
    (list : List α) : (list.filter fun a => (find a).any p).filterMap (fun a => (find a).map f) =
      ((list.filterMap find).filter p).map f := by
  induction list with
  | nil => rfl
  | cons a rest ih =>
      cases found : find a with
      | none =>
          rw [List.filterMap_cons_none found, ← ih,
            List.filter_cons_of_neg (by simp [found])]
      | some b =>
          rw [List.filterMap_cons_some found]
          by_cases chosen : p b = true
          · rw [List.filter_cons_of_pos (by simpa [found] using chosen),
              List.filter_cons_of_pos chosen, List.map_cons, ← ih,
              List.filterMap_cons_some (by rw [found, Option.map_some])]
          · rw [List.filter_cons_of_neg (by simpa [found] using chosen),
              List.filter_cons_of_neg chosen, ih]

/-- What goes to `cout`. -/
def printed : List (Sink × String) → String
  | [] => ""
  | (.stdout, text) :: rest => text ++ printed rest
  | (.file _, _) :: rest => printed rest

theorem ready_cout (host : Host) (out : Output) (a : Nat) (path : String) :
    (out.ready host a path).cout = out.cout := by
  unfold Output.ready Output.reopen
  split
  · rfl
  · split <;> rfl

/-- `cout` gets what is for it, in order. -/
theorem puts_cout (host : Host) (m : LoggerManager) (list : List Record) (out : Output) :
    (list.foldl (put host m) out).cout =
      out.cout ++ printed (list.filterMap (written host m)) := by
  induction list generalizing out with
  | nil => exact String.append_empty.symm
  | cons r rest ih =>
      rw [List.foldl_cons, ih]
      cases found : m.appender r.appender with
      | none =>
          have nowhere : written host m r = none := by rw [written, found, Option.map_none]
          rw [List.filterMap_cons_none nowhere, put, found]
      | some x =>
          have somewhere : written host m r = some (x.sink, r.text host x) := by
            rw [written, found, Option.map_some]
          rw [List.filterMap_cons_some somewhere]
          cases sink : x.sink with
          | stdout => simp only [put, found, sink, printed, String.append_assoc]
          | file path =>
              have same : (put host m out r).cout = out.cout := by
                simp only [put, found, sink]
                split
                · exact ready_cout host out r.appender path
                · exact ready_cout host out r.appender path
              rw [same, printed]

/-- The records of a logger's receivers say what its appenders write. -/
theorem receivers_view {host : Host} {m : LoggerManager} {l : Nat} {x : Logger} {v : LoggerView}
    {level : LogLevel} {event : LogEvent} (found : m.logger l = some x)
    (shown : m.viewOf l = some v) :
    ((m.receivers l level).map fun a => ⟨a, x.name, level, event⟩).filterMap (written host m) =
      v.writes host x.name level event := by
  have look : v = ⟨x.level, x.formatter, m.resolve x.appenders⟩ := by
    rw [viewOf, found, Option.map_some] at shown
    exact (Option.some.inj shown).symm
  rw [List.filterMap_map, look, LoggerView.writes]
  simp only [receivers, found, resolve]
  by_cases passes : x.level ≤ level
  · rw [if_pos passes, if_pos passes]
    exact filterMap_filter_any m.appender (·.level ≤ level) (fun y => (y.sink,
      (y.formatter.map fun f => f.format host.clock x.name level event).getD "")) x.appenders
  · rw [if_neg passes, if_neg passes]
    rfl

section Views

variable {host : Host} {m : LoggerManager} {l : Nat} {v : LoggerView}

theorem view_writable (shown : m.viewOf l = some v) (writable : v.Writable host)
    (level : LogLevel) (out : Output) : ¬ Unwritable host m level out l := by
  rintro ⟨x, found, _, a, attached, y, path, present, file, _, _, shut⟩
  rw [viewOf, found, Option.map_some] at shown
  have inside : y ∈ v.appenders := by
    rw [← Option.some.inj shown]
    exact List.mem_filterMap.mpr ⟨a, attached, present⟩
  rw [writable y inside path file] at shut
  cases shut

/-- A call writes what the view of the logger says. -/
theorem log_view {x : Logger} (wf : WellFormed m) (found : m.logger l = some x)
    (shown : m.viewOf l = some v) (writable : v.Writable host) (level : LogLevel)
    (event : LogEvent) (out : Output) (depth : Nat) : ∃ list : List Record,
      log host m (depth + 2) l level event out = some (list.foldl (put host m) out) ∧
      list.filterMap (written host m) = v.writes host x.name level event :=
  ⟨_, log_writable wf found (view_writable shown writable level out) (depth + 1),
    receivers_view found shown⟩

end Views

end LoggerManager

end ZnetServer
