import ZnetServer.Directory
import ZnetServer.LogRecords
import ZnetServer.LoggerValues

set_option autoImplicit false

/- The loggers as their callers see them: values under names, and handles that follow their
name until it is removed. The objects behind the pointers of `LoggerManager` keep to it. -/
namespace ZnetServer

/-- Each value is what a logger shows, with the name that it logs under. -/
abbrev LogService := Directory String (String × LoggerView)

/-- The calls; those that return a logger give their caller a handle. -/
inductive ServiceCall where
  | getLogger (name : String)
  | createLogger (name : String) (level : LogLevel) (pattern : String) (appenders : List String)
      (outputPath : String)
  | updateLogger (name : String) (level : LogLevel) (pattern : String) (appenders : List String)
      (outputPath : String)
  | configureLogger (ld : LogDefine)
  | removeLogger (name : String)
  /-- The listener of `g_loggers_config`. -/
  | logInit (newValue : LogDefineSet)
  /-- `addAppender` of a new appender to the logger that `getLogger` returns. -/
  | addAppender (name : String) (sink : Sink)

namespace ServiceCall

/-- The call takes the name out of the registry. -/
def removes (name : String) : ServiceCall → Bool
  | .removeLogger own => own = name
  | .logInit newValue => (newValue.find name).isNone
  | _ => false

/-- The call gives the logger of the name other settings. -/
def defines (name : String) : ServiceCall → Bool
  | .createLogger own _ _ _ _ | .updateLogger own _ _ _ _ | .addAppender own _ => own = name
  | .configureLogger ld => ld.name = name
  | .logInit newValue => (newValue.find name).isSome
  | .getLogger _ | .removeLogger _ => false

end ServiceCall

namespace LogService

/-- A name without a logger gets one that has no appenders. -/
def ensure (d : LogService) (name : String) : LogService :=
  match d.current name with
  | none => d.set name (name, .bare)
  | some _ => d

/-- The logger under a name changes, if there is one. -/
def change (d : LogService) (name : String) (f : LoggerView → LoggerView) : LogService :=
  match d.current name with
  | none => d
  | some (_, v) => d.set name (name, f v)

def configure (d : LogService) (ld : LogDefine) : LogService :=
  d.set ld.name (ld.name, ld.reconciled)

/-- What a call means to the callers. -/
def perform (d : LogService) : ServiceCall → LogService
  | .getLogger name => (d.ensure name).hand name
  | .createLogger name level pattern appenders outputPath =>
    match d.current name with
    | none => (d.set name (name, .created level pattern appenders outputPath)).hand name
    | some (_, v) => (d.set name (name, v.update level pattern appenders outputPath)).hand name
  | .updateLogger name level pattern appenders outputPath =>
    d.change name (·.update level pattern appenders outputPath)
  | .configureLogger ld => d.configure ld
  | .removeLogger name => d.withdraw (· = name)
  | .logInit newValue =>
    newValue.toList.foldl configure (d.withdraw fun name => newValue.find name = none)
  | .addAppender name sink =>
    ((d.ensure name).change name (·.add (.new sink))).hand name

/-- The root logger writes to standard output, and `getRoot` gives a handle on it. -/
def start : LogService :=
  ((⟨fun _ => none, []⟩ : LogService).set "root" ("root", LoggerView.bare.add (.new .stdout))).hand
    "root"

section Handles

variable {d : LogService} {i : Nat} {name : String} {u : String × LoggerView}

theorem ensure_handles (name : String) : (d.ensure name).handles = d.handles := by
  unfold ensure
  split <;> rfl

theorem change_handles (name : String) (f : LoggerView → LoggerView) :
    (d.change name f).handles = d.handles := by
  unfold change
  split <;> rfl

theorem configures_handles (defines : List LogDefine) :
    (defines.foldl configure d).handles = d.handles := by
  apply List.foldlRecOn (motive := fun e : LogService => e.handles = d.handles)
  · rfl
  · intro e same ld _
    exact same

theorem set_current {other : String} (apart : other ≠ name) (value : String × LoggerView) :
    (Directory.set d other value).current name = d.current name :=
  if_neg (Ne.symm apart)

theorem ensure_current (present : d.current name = some u) (other : String) :
    (d.ensure other).current name = some u := by
  unfold ensure
  split
  · rename_i missing
    have apart : other ≠ name := by
      rintro rfl
      rw [missing] at present
      cases present
    exact (set_current apart _).trans present
  · exact present

theorem change_current {other : String} (apart : other ≠ name) (f : LoggerView → LoggerView) :
    (d.change other f).current name = d.current name := by
  unfold change
  split
  · rfl
  · exact set_current apart _

/-- No call changes what a handle has kept. -/
theorem perform_kept {k : String} (handle : d.handles[i]? = some (k, some u))
    (call : ServiceCall) : (d.perform call).handles[i]? = some (k, some u) := by
  cases call with
  | getLogger name =>
      apply Directory.hand_handle
      rw [ensure_handles, handle]
  | createLogger name level pattern appenders outputPath =>
      unfold perform
      simp only
      split
      · exact Directory.hand_handle (d := d.set name _) handle name
      · exact Directory.hand_handle (d := d.set name _) handle name
  | updateLogger name level pattern appenders outputPath =>
      exact (congrArg (·[i]?) (change_handles name _)).trans handle
  | configureLogger ld => exact handle
  | removeLogger name => exact Directory.withdraw_kept handle _
  | logInit newValue =>
      exact (congrArg (·[i]?) (configures_handles newValue.toList)).trans
        (Directory.withdraw_kept handle _)
  | addAppender name sink =>
      apply Directory.hand_handle
      rw [change_handles, ensure_handles, handle]

/-- A removal leaves the handle with what was under the name. -/
theorem perform_removes (handle : d.handles[i]? = some (name, none))
    (present : d.current name = some u) {call : ServiceCall} (removes : call.removes name = true) :
    (d.perform call).handles[i]? = some (name, some u) := by
  cases call with
  | removeLogger own =>
      obtain rfl := of_decide_eq_true removes
      exact (Directory.withdraw_handle handle _).trans (by rw [if_pos rfl, present])
  | logInit newValue =>
      have gone : newValue.find name = none := Option.isNone_iff_eq_none.mp removes
      refine (congrArg (·[i]?) (configures_handles newValue.toList)).trans ?_
      exact (Directory.withdraw_handle handle _).trans (by rw [if_pos gone, present])
  | getLogger | createLogger | updateLogger | configureLogger | addAppender => cases removes

/-- Other calls that do not define the name leave it and the handle alone. -/
theorem perform_other (handle : d.handles[i]? = some (name, none))
    (present : d.current name = some u) {call : ServiceCall} (stays : call.removes name = false)
    (apart : call.defines name = false) :
    (d.perform call).handles[i]? = some (name, none) ∧
      (d.perform call).current name = some u := by
  cases call with
  | getLogger own =>
      refine ⟨Directory.hand_handle ?_ own, ensure_current present own⟩
      rw [ensure_handles, handle]
  | createLogger own level pattern appenders outputPath =>
      have apart : own ≠ name := of_decide_eq_false apart
      unfold perform
      simp only
      split
      · exact ⟨Directory.hand_handle (d := d.set own _) handle own,
          (set_current apart _).trans present⟩
      · exact ⟨Directory.hand_handle (d := d.set own _) handle own,
          (set_current apart _).trans present⟩
  | updateLogger own level pattern appenders outputPath =>
      exact ⟨(congrArg (·[i]?) (change_handles own _)).trans handle,
        (change_current (of_decide_eq_false apart) _).trans present⟩
  | configureLogger ld =>
      exact ⟨handle, (set_current (of_decide_eq_false apart) _).trans present⟩
  | removeLogger own =>
      have other : ¬ name = own := fun same => of_decide_eq_false stays same.symm
      refine ⟨(Directory.withdraw_handle handle _).trans (by rw [if_neg other]), ?_⟩
      exact (if_neg other).trans present
  | logInit newValue =>
      have neither : (newValue.find name).isNone = false := stays
      rw [← Option.not_isSome, show (newValue.find name).isSome = false from apart] at neither
      cases neither
  | addAppender own sink =>
      refine ⟨Directory.hand_handle ?_ own, ?_⟩
      · rw [change_handles, ensure_handles, handle]
      · exact (change_current (of_decide_eq_false apart) _).trans (ensure_current present own)

theorem performs_kept {k : String} (handle : d.handles[i]? = some (k, some u))
    (more : List ServiceCall) : (more.foldl perform d).read i = some u := by
  have still : (more.foldl perform d).handles[i]? = some (k, some u) := by
    apply List.foldlRecOn (motive := fun e : LogService => e.handles[i]? = some (k, some u))
    · exact handle
    · intro e same call _
      exact perform_kept same call
  rw [Directory.read, still, Option.bind_some, Option.some_or]

/-- What a handle shows stays, unless its name is defined again before it is removed. -/
theorem performs_steady (more : List ServiceCall) (handle : d.handles[i]? = some (name, none))
    (present : d.current name = some u)
    (quiet : ∀ call ∈ more.takeWhile (!·.removes name), call.defines name = false) :
    (more.foldl perform d).read i = some u := by
  induction more generalizing d with
  | nil => rw [List.foldl_nil, Directory.read, handle, Option.bind_some, Option.none_or, present]
  | cons call rest ih =>
      cases removes : call.removes name with
      | true => exact performs_kept (perform_removes handle present removes) rest
      | false =>
          rw [List.takeWhile_cons_of_pos (by rw [removes]; rfl)] at quiet
          obtain ⟨still, same⟩ :=
            perform_other handle present removes (quiet call List.mem_cons_self)
          exact ih still same fun later member => quiet later (List.mem_cons_of_mem call member)

end Handles

end LogService

namespace LoggerManager

/-- The call on the manager, with the pointers that the callers have. -/
def serve (s : LoggerManager × List Nat) : ServiceCall → LoggerManager × List Nat
  | .getLogger name => ((s.1.getLogger name).1, s.2 ++ [(s.1.getLogger name).2])
  | .createLogger name level pattern appenders outputPath =>
    let made := s.1.createLogger name level pattern appenders outputPath
    (made.1, s.2 ++ [made.2])
  | .updateLogger name level pattern appenders outputPath =>
    ((s.1.updateLogger name level pattern appenders outputPath).1, s.2)
  | .configureLogger ld => (s.1.configureLogger ld, s.2)
  | .removeLogger name => (s.1.removeLogger name, s.2)
  | .logInit newValue => (s.1.logInit newValue, s.2)
  | .addAppender name sink =>
    let got := s.1.getLogger name
    (got.1.addNew got.2 (.new sink), s.2 ++ [got.2])

/-- The manager and the pointers keep to the service. -/
structure Keeps (d : LogService) (m : LoggerManager) (refs : List Nat) : Prop where
  consistent : Consistent m
  wellFormed : WellFormed m
  backs : d.Backs (m.loggers[·]?) m.shown refs

theorem insert_lookup (loggers : Std.ExtTreeMap String Nat) (name : String) (l : Nat)
    (other : String) :
    (loggers.insert name l)[other]? = if other = name then some l else loggers[other]? := by
  rw [Std.ExtTreeMap.getElem?_insert]
  simp only [Std.LawfulEqCmp.compare_eq_iff_eq]
  simp only [eq_comm]

namespace Keeps

variable {d : LogService} {m n : LoggerManager} {refs : List Nat} {name : String} {l : Nat}

/-- A name without a logger. -/
theorem missing_iff (keeps : Keeps d m refs) :
    d.current name = none ↔ m.loggers[name]? = none := by
  rw [keeps.backs.current]
  cases registered : m.loggers[name]? with
  | none => simp
  | some l =>
      obtain ⟨v, shows⟩ := keeps.backs.valued name l registered
      simp [shows]

/-- A name with one. -/
theorem registered {value : String × LoggerView} (keeps : Keeps d m refs)
    (current : d.current name = some value) :
    ∃ l, m.loggers[name]? = some l ∧ m.shown l = some (name, value.2) := by
  rw [keeps.backs.current] at current
  obtain ⟨l, registered, shows⟩ := Option.bind_eq_some_iff.mp current
  obtain ⟨x, found, named⟩ := keeps.wellFormed.keyed name l registered
  obtain ⟨own, v⟩ := value
  obtain ⟨y, same, rfl, rfl⟩ := shown_cases shows
  obtain rfl := Option.some.inj (found.symm.trans same)
  exact ⟨l, registered, named ▸ shows⟩

/-- The object of a name, or a new one for it, is given a value. -/
theorem set {v : LoggerView} (keeps : Keeps d m refs) (con : Consistent n) (wf : WellFormed n)
    (own : m.loggers[name]? = some l ∨ m.loggers[name]? = none ∧ l = m.loggerStore.next)
    (bound : ∀ other, n.loggers[other]? = if other = name then some l else m.loggers[other]?)
    (assigns : Assigns l (name, v) m n) : Keeps (d.set name (name, v)) n refs where
  consistent := con
  wellFormed := wf
  backs := by
    refine keeps.backs.set ?_ bound assigns.written assigns.others
    rcases own with here | ⟨missing, rfl⟩
    · exact .inl here
    · exact .inr ⟨missing, next_not_shown m⟩

theorem hand (keeps : Keeps d m refs) (registered : m.loggers[name]? = some l) :
    Keeps (d.hand name) m (refs ++ [l]) :=
  ⟨keeps.consistent, keeps.wellFormed, keeps.backs.hand registered⟩

theorem ensure (keeps : Keeps d m refs) (name : String) :
    Keeps (d.ensure name) (m.getLogger name).1 refs := by
  have con := keeps.consistent.getLogger name
  have wf := keeps.wellFormed.getLogger name
  unfold LogService.ensure
  cases current : d.current name with
  | none =>
      have missing := keeps.missing_iff.mp current
      have assigns := (getLogger_assigns missing).2
      refine keeps.set con wf (.inr ⟨missing, rfl⟩) (fun other => ?_) assigns
      unfold getLogger
      rw [missing]
      exact insert_lookup m.loggers name m.loggerStore.next other
  | some value =>
      obtain ⟨l, registered, _⟩ := keeps.registered current
      rw [getLogger_registered registered]
      exact keeps

/-- The logger under a name changes in a confined way. -/
theorem change {f : LoggerView → LoggerView} (keeps : Keeps d m refs) (con : Consistent n)
    (wf : WellFormed n) (unbound : m.loggers[name]? = none → n = m)
    (loggers : n.loggers = m.loggers)
    (changes : ∀ l v, m.loggers[name]? = some l → m.shown l = some (name, v) →
      n.shown l = some (name, f v) ∧ Confined l m n) :
    Keeps (d.change name f) n refs := by
  unfold LogService.change
  cases current : d.current name with
  | none =>
      rw [unbound (keeps.missing_iff.mp current)]
      exact keeps
  | some value =>
      obtain ⟨l, registered, shows⟩ := keeps.registered current
      obtain ⟨written, confined⟩ := changes l value.2 registered shows
      refine keeps.set con wf (.inl registered) (fun other => ?_)
        (confined.assigns keeps.consistent keeps.wellFormed written)
      rw [loggers]
      split
      · rename_i same
        rw [same, registered]
      · rfl

theorem updateLogger (keeps : Keeps d m refs) (name : String) (level : LogLevel)
    (pattern : String) (appenders : List String) (outputPath : String) :
    Keeps (d.change name (·.update level pattern appenders outputPath))
      (m.updateLogger name level pattern appenders outputPath).1 refs := by
  have wf := keeps.wellFormed
  refine keeps.change (keeps.consistent.updateLogger wf name level pattern appenders outputPath)
    (wf.updateLogger name level pattern appenders outputPath) (fun missing => ?_)
    (updateLogger_sameRegistry wf name level pattern appenders outputPath).1 ?_
  · simp only [LoggerManager.updateLogger, missing, Option.bind_none]
  · intro l v registered shows
    exact updateLogger_shown wf registered shows level pattern appenders

theorem configure (keeps : Keeps d m refs) (ld : LogDefine) :
    Keeps (d.configure ld) (m.configureLogger ld) refs := by
  refine keeps.set (keeps.consistent.configureLogger ld) (keeps.wellFormed.configureLogger ld)
    ?_ (fun other => ?_) (configureLogger_assigns keeps.wellFormed ld)
  · cases registered : m.loggers[ld.name]? with
    | none => exact .inr ⟨rfl, rfl⟩
    | some l => exact .inl rfl
  · rw [configureLogger_loggers]
    simp only [eq_comm]

theorem logInit (keeps : Keeps d m refs) (newValue : LogDefineSet) :
    Keeps (d.perform (.logInit newValue)) (m.logInit newValue) refs := by
  have removed : Keeps (d.withdraw fun name => newValue.find name = none)
      (m.loggers.keys.foldl (removeMissing newValue) m) refs := by
    refine ⟨?_, ?_, ?_⟩
    · apply List.foldlRecOn (motive := Consistent)
      · exact keeps.consistent
      · intro n inv key _
        unfold removeMissing
        split
        · exact inv
        · exact inv.register _
    · apply List.foldlRecOn (motive := WellFormed)
      · exact keeps.wellFormed
      · intro n inv key _
        exact inv.removeMissing newValue key
    · have shown := funext fun l => removeAll_shown (m := m) newValue m.loggers.keys l
      rw [shown]
      refine keeps.backs.withdraw fun name => ?_
      rw [(removeAll_spec newValue name m.loggers.keys).1]
      by_cases gone : newValue.find name = none
      · rw [if_pos gone]
        split
        · rfl
        · rename_i outside
          exact Std.ExtTreeMap.getElem?_eq_none fun inside =>
            outside ⟨Std.ExtTreeMap.mem_keys.mpr inside, gone⟩
      · rw [if_neg gone, if_neg fun both => gone both.2]
  unfold LoggerManager.logInit LogService.perform
  simp only
  generalize m.loggers.keys.foldl (removeMissing newValue) m = middle at removed
  generalize (d.withdraw fun name => newValue.find name = none) = before at removed
  induction newValue.toList generalizing before middle with
  | nil => exact removed
  | cons ld rest ih => exact ih _ _ (removed.configure ld)

theorem createLogger (keeps : Keeps d m refs) (name : String) (level : LogLevel)
    (pattern : String) (appenders : List String) (outputPath : String) :
    Keeps (d.perform (.createLogger name level pattern appenders outputPath))
      (m.createLogger name level pattern appenders outputPath).1
      (refs ++ [(m.createLogger name level pattern appenders outputPath).2]) := by
  have con := keeps.consistent
  have wf := keeps.wellFormed
  have bound := createLogger_bound wf name level pattern appenders outputPath
  unfold LogService.perform
  simp only
  cases current : d.current name with
  | none =>
      have missing := keeps.missing_iff.mp current
      obtain ⟨made, assigns⟩ :=
        createLogger_assigns con wf missing level pattern appenders outputPath
      refine hand (keeps.set (con.createLogger wf name level pattern appenders outputPath)
        (wf.createLogger name level pattern appenders outputPath) (.inr ⟨missing, rfl⟩)
        (fun other => ?_) assigns) bound
      have same := (constructed_sameRegistry m name level pattern appenders outputPath).1
      unfold LoggerManager.createLogger
      simp only [missing, same]
      exact insert_lookup m.loggers name m.loggerStore.next other
  | some value =>
      obtain ⟨l, registered, _⟩ := keeps.registered current
      have updated := keeps.updateLogger name level pattern appenders outputPath
      unfold LogService.change at updated
      rw [current] at updated
      have known : (m.createLogger name level pattern appenders outputPath).1 =
          (m.updateLogger name level pattern appenders outputPath).1 := by
        unfold LoggerManager.createLogger
        rw [registered]
      rw [known] at bound ⊢
      exact updated.hand bound

theorem addAppender (keeps : Keeps d m refs) (name : String) (sink : Sink) :
    Keeps (d.perform (.addAppender name sink))
      ((m.getLogger name).1.addNew (m.getLogger name).2 (.new sink))
      (refs ++ [(m.getLogger name).2]) := by
  have before := keeps.ensure name
  have registered := getLogger_bound (m := m) name
  obtain ⟨x, found, _⟩ := before.wellFormed.keyed name _ registered
  have after := before.change (f := (·.add (.new sink))) (before.consistent.addFresh _ sink)
    (before.wellFormed.addNew _ (.new sink))
    (fun missing => by rw [registered] at missing; cases missing)
    (addNew_loggers _ (.new sink)) fun l v bound shows => by
      obtain rfl := Option.some.inj (registered.symm.trans bound)
      exact ⟨addNew_shown before.wellFormed shows (.new sink), .addNew found (.new sink)⟩
  exact after.hand ((congrArg (·[name]?) (addNew_loggers _ (.new sink))).trans registered)

theorem removeLogger (keeps : Keeps d m refs) (name : String) :
    Keeps (d.withdraw (· = name)) (m.removeLogger name) refs where
  consistent := keeps.consistent.register _
  wellFormed := keeps.wellFormed.removeLogger name
  backs := by
    refine keeps.backs.withdraw fun other => ?_
    rw [LoggerManager.removeLogger, Std.ExtTreeMap.getElem?_erase]
    simp only [Std.LawfulEqCmp.compare_eq_iff_eq]
    simp only [eq_comm]

/-- Every call does to the objects what it means to the callers. -/
theorem serve {s : LoggerManager × List Nat} (keeps : Keeps d s.1 s.2) (call : ServiceCall) :
    Keeps (d.perform call) (LoggerManager.serve s call).1 (LoggerManager.serve s call).2 := by
  cases call with
  | getLogger name => exact (keeps.ensure name).hand (getLogger_bound name)
  | createLogger name level pattern appenders outputPath =>
      exact keeps.createLogger name level pattern appenders outputPath
  | updateLogger name level pattern appenders outputPath =>
      exact keeps.updateLogger name level pattern appenders outputPath
  | configureLogger ld => exact keeps.configure ld
  | removeLogger name => exact keeps.removeLogger name
  | logInit newValue => exact keeps.logInit newValue
  | addAppender name sink => exact keeps.addAppender name sink

theorem start : Keeps LogService.start init [0] where
  consistent := init_consistent
  wellFormed := init_wellFormed
  backs := by
    have none_yet : Directory.Backs (⟨fun _ => none, []⟩ : LogService)
        (fun _ => (none : Option Nat)) (fun _ => none) [] :=
      ⟨fun _ => rfl, fun _ _ bound => (nomatch bound), fun _ _ _ bound => (nomatch bound), .nil⟩
    have root : Directory.Backs ((⟨fun _ => none, []⟩ : LogService).set "root"
        ("root", LoggerView.bare.add (.new .stdout))) (init.loggers[·]?) init.shown [] :=
      none_yet.set (o := 0) (.inr ⟨rfl, rfl⟩) (fun name => insert_lookup ∅ "root" 0 name) rfl
        fun _ _ _ shows => (nomatch shows)
    exact root.hand rfl

theorem serveAll {s : LoggerManager × List Nat} (keeps : Keeps d s.1 s.2)
    (calls : List ServiceCall) : Keeps (calls.foldl LogService.perform d)
      (calls.foldl LoggerManager.serve s).1 (calls.foldl LoggerManager.serve s).2 := by
  induction calls generalizing d s with
  | nil => exact keeps
  | cons call rest ih => exact ih (keeps.serve call)

end Keeps

/-- A definition of 'net' for standard output. -/
def netDefine (level : LogLevel) (pattern : String) : LogDefine :=
  ⟨"net", level, pattern, [{ type := "stdout" }]⟩

/-- A handle on 'net' is made. -/
def known : List ServiceCall := [.configureLogger (netDefine .info "%m"), .getLogger "net"]

/-- 'net' is removed and defined in another way. -/
def again : List ServiceCall := [.removeLogger "net", .configureLogger (netDefine .error "%p")]

/-- No call takes a pointer back. -/
theorem serve_handle {s : LoggerManager × List Nat} {i l : Nat} (handle : s.2[i]? = some l)
    (call : ServiceCall) : (serve s call).2[i]? = some l := by
  obtain ⟨inside, _⟩ := List.getElem?_eq_some_iff.mp handle
  have longer : ∀ last, (s.2 ++ [last])[i]? = some l := fun last =>
    (List.getElem?_append_left inside).trans handle
  cases call with
  | getLogger name => exact longer _
  | createLogger name level pattern appenders outputPath => exact longer _
  | addAppender name sink => exact longer _
  | updateLogger | configureLogger | removeLogger | logInit => exact handle

/-- A logger shows and writes through a pointer what it did, unless its name is defined again
before it is removed; once it is removed, whatever is called. -/
theorem handle_steady (calls more : List ServiceCall) {i l : Nat} {name : String}
    {v : LoggerView} (handle : (calls.foldl serve (init, [0])).2[i]? = some l)
    (shows : (calls.foldl serve (init, [0])).1.shown l = some (name, v))
    (quiet : ∀ call ∈ more.takeWhile (!·.removes name), call.defines name = false) :
    let t := (calls ++ more).foldl serve (init, [0])
    t.2[i]? = some l ∧ t.1.shown l = some (name, v) ∧ ∀ host, v.Writable host →
      ∀ level event out depth, ∃ list : List Record,
        log host t.1 (depth + 2) l level event out = some (list.foldl (put host t.1) out) ∧
        list.filterMap (written host t.1) = v.writes host name level event := by
  intro t
  generalize started : calls.foldl serve (init, [0]) = s at handle shows
  have keeps : Keeps (calls.foldl LogService.perform .start) s.1 s.2 :=
    started ▸ Keeps.start.serveAll calls
  generalize calls.foldl LogService.perform .start = d at keeps
  have reached : t = more.foldl serve s := by rw [← started]; exact List.foldl_append
  have later : Keeps (more.foldl LogService.perform d) t.1 t.2 := reached ▸ keeps.serveAll more
  have kept : t.2[i]? = some l := by
    rw [reached]
    apply List.foldlRecOn (motive := fun t : LoggerManager × List Nat => t.2[i]? = some l)
    · exact handle
    · intro t same call _
      exact serve_handle same call
  have steady : (more.foldl LogService.perform d).read i = some (name, v) := by
    obtain ⟨⟨k, value⟩, own, held⟩ := keeps.backs.handle handle
    unfold Directory.Held at held
    cases value with
    | none =>
        obtain ⟨x, found, named⟩ := keeps.wellFormed.keyed k _ held
        obtain ⟨y, same, rfl, _⟩ := shown_cases shows
        obtain rfl := Option.some.inj (found.symm.trans same)
        subst named
        have bound : s.1.loggers[x.name]? = some l := held
        refine LogService.performs_steady more own ?_ quiet
        rw [keeps.backs.current, bound, Option.bind_some, shows]
    | some u =>
        obtain rfl := Option.some.inj (held.1.symm.trans shows)
        exact LogService.performs_kept own more
  have shown : t.1.shown l = some (name, v) := by
    rw [later.backs.read, kept, Option.bind_some] at steady
    exact steady
  obtain ⟨x, found, rfl, _⟩ := shown_cases shown
  exact ⟨kept, shown, fun host writable =>
    log_view later.wellFormed found (shown_view shown) writable⟩

theorem handle_steady_net :
    let t := (known ++ again).foldl serve (init, [0])
    t.1.shown 1 = some ("net", (netDefine .info "%m").reconciled) ∧
      t.1.view "net" = some (netDefine .error "%p").reconciled := by
  have handle : (known.foldl serve (init, [0])).2[1]? = some 1 := by decide +kernel
  have shows : (known.foldl serve (init, [0])).1.shown 1 =
      some ("net", (netDefine .info "%m").reconciled) := by decide +kernel
  refine ⟨(handle_steady known again handle shows (by decide)).2.1, ?_⟩
  decide +kernel

end LoggerManager

end ZnetServer
