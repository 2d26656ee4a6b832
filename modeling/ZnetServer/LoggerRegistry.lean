import ZnetServer.LogDelivery
import ZnetServer.LoggerSync

set_option autoImplicit false

/- The representation invariant of the registry as its callers rely on it. -/
namespace ZnetServer.LoggerManager

open Transition

/-- Every null formatter replaced by the same object. -/
def fillFormatters (m : LoggerManager) (f : LogFormatter) : LoggerManager :=
  { m with appenderStore :=
      ⟨m.appenderStore.objects.map fun x => { x with formatter := x.formatter.or (some f) }⟩ }

section Formatters

variable {host : Host} {m : LoggerManager} (f : LogFormatter)

theorem fillFormatters_appender (a : Nat) : (m.fillFormatters f).appender a =
    (m.appender a).map fun x => { x with formatter := x.formatter.or (some f) } :=
  List.getElem?_map

/-- An appender that has its formatter is left as it is. -/
theorem fillFormatters_attached (wf : WellFormed m) {l : Nat} {x : Logger}
    (found : m.logger l = some x) {a : Nat} (member : a ∈ x.appenders) :
    (m.fillFormatters f).appender a = m.appender a := by
  obtain ⟨y, present, formatted⟩ := wf.attached l x found a member
  obtain ⟨own, given⟩ := Option.isSome_iff_exists.mp formatted
  have same : { y with formatter := y.formatter.or (some f) } = y := by
    rw [given, Option.some_or, ← given]
  rw [fillFormatters_appender, present, Option.map_some, same]

theorem fillFormatters_appenderLog (inner : Log) (name : String) (level : LogLevel)
    (event : LogEvent) (out : Output) {a : Nat}
    (same : (m.fillFormatters f).appender a = m.appender a) :
    (m.fillFormatters f).appenderLog host inner name level event out a =
      m.appenderLog host inner name level event out a := by
  unfold appenderLog
  rw [same]
  rfl

theorem fillFormatters_appenders (wf : WellFormed m) {l : Nat} {x : Logger}
    (found : m.logger l = some x) (inner : Log) (name : String) (level : LogLevel)
    (event : LogEvent) (appenders : List Nat) (inside : appenders ⊆ x.appenders) (out : Output) :
    appenders.foldlM ((m.fillFormatters f).appenderLog host inner name level event) out =
      appenders.foldlM (m.appenderLog host inner name level event) out := by
  induction appenders generalizing out with
  | nil => rfl
  | cons a rest ih =>
      have attached := fillFormatters_attached f wf found (inside List.mem_cons_self)
      rw [List.foldlM_cons, List.foldlM_cons, fillFormatters_appenderLog f _ _ _ _ _ attached]
      apply bind_congr
      intro middle
      exact ih (fun b member => inside (List.mem_cons_of_mem a member)) middle

/-- Logging never comes to a null formatter: what one would do there plays no part. -/
theorem log_fillFormatters (wf : WellFormed m) (depth : Nat) :
    log host (m.fillFormatters f) depth = log host m depth := by
  induction depth with
  | zero => rfl
  | succ depth ih =>
      funext l level event out
      have same : (m.fillFormatters f).logger l = m.logger l := rfl
      unfold log
      rw [ih, same]
      cases found : m.logger l with
      | none => rfl
      | some x =>
          simp only
          rw [fillFormatters_appenders f wf found _ _ _ _ _ fun _ member => member]

end Formatters

/-- Registered names are those of their loggers, so that a logger is found under its own name;
no null formatter is ever logged with; and each attached appender has the pattern of its logger
or is flagged and has a pattern of its own. -/
theorem registry_invariant {m : LoggerManager} {trace : List (LoggerManager × Op)}
    (run : Run next AttachesFresh init trace m) :
    (∀ name l, m.loggers[name]? = some l → ∃ x, m.logger l = some x ∧ x.name = name ∧
      m.getLogger x.name = (m, l)) ∧
    (∀ l x, m.logger l = some x → ∀ a ∈ x.appenders, ∃ y own, m.appender a = some y ∧
      y.formatter = some own ∧
      if y.hasCustomFormatter then own.pattern ≠ "" else own.pattern = x.formatter.pattern) ∧
    ∀ host f depth, log host (m.fillFormatters f) depth = log host m depth := by
  obtain ⟨con, wf⟩ := run_consistent run
  refine ⟨fun name l registered => ?_, fun l x found a member => ?_, fun host f depth => ?_⟩
  · obtain ⟨x, found, named⟩ := wf.keyed name l registered
    subst named
    exact ⟨x, found, rfl, getLogger_registered registered⟩
  · obtain ⟨y, present, own, given, synced⟩ := con.synced l x found a member
    exact ⟨y, own, present, given, synced⟩
  · exact log_fillFormatters f wf depth

/-- A logger with an appender that has a pattern of its own, and one added to it by hand. -/
def customSteps : List Op :=
  [.configureLogger ⟨"net", .info, "%m", [⟨"stdout", "", .unknow, "%c"⟩]⟩, .addFresh 1 .stdout]

theorem registry_invariant_custom : ∃ trace m x, Run next AttachesFresh init trace m ∧
    m.logger 1 = some x ∧ x.appenders = [1, 2] ∧ m.getLogger "net" = (m, 1) ∧
    ∀ a ∈ x.appenders, ∃ y own, m.appender a = some y ∧ y.formatter = some own ∧
      if y.hasCustomFormatter then own.pattern ≠ "" else own.pattern = x.formatter.pattern := by
  have configured : ((replay (guarded next AttachesFresh) init customSteps).map fun last =>
      decide (last.2.loggers["net"]? = some 1 ∧
        (last.2.logger 1).map Logger.appenders = some [1, 2])) = some true := by
    decide +kernel
  obtain ⟨⟨trace, m⟩, executed, read⟩ := Option.map_eq_some_iff.mp configured
  obtain ⟨registered, attached⟩ := of_decide_eq_true read
  obtain ⟨x, found, appenders⟩ := Option.map_eq_some_iff.mp attached
  have run : Run next AttachesFresh init trace m := Run.of_replay executed
  obtain ⟨keyed, formatted, _⟩ := registry_invariant run
  obtain ⟨y, present, named, lookup⟩ := keyed "net" 1 registered
  exact ⟨trace, m, x, run, found, appenders, named ▸ lookup, formatted 1 x found⟩

end ZnetServer.LoggerManager
