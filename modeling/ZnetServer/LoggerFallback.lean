import ZnetServer.LogDelivery

set_option autoImplicit false

/- The loggers that have no appenders. `getLogger` gives a new logger the root logger as
`m_root`, to fall back to; `Logger::log` does not read it. -/
namespace ZnetServer.LoggerManager

open Transition

/-- The appenders that accept the level. -/
def accepting (m : LoggerManager) (level : LogLevel) (appenders : List Nat) : List Nat :=
  appenders.filter fun a => (m.appender a).any (·.level ≤ level)

/-- The appenders that get an event of the level from `Logger::log` and accept it. -/
def receivers (m : LoggerManager) (l : Nat) (level : LogLevel) : List Nat :=
  match m.logger l with
  | none => []
  | some x => if x.level ≤ level then m.accepting level x.appenders else []

/-- Each appender of the root logger that accepts the level gets the event. -/
def FallsBack (m : LoggerManager) (l : Nat) (level : LogLevel) : Prop :=
  m.accepting level (m.appendersOf m.root) ⊆ m.receivers l level

section Receivers

variable {host : Host} {m : LoggerManager} {l : Nat} {x : Logger} {level : LogLevel}
  {event : LogEvent}

theorem appenderLog_ignores {inner : Log} {name : String} {a : Nat} {y : LogAppender}
    (found : m.appender a = some y) (ignores : ¬ y.level ≤ level) (out : Output) :
    m.appenderLog host inner name level event out a = some out := by
  simp only [appenderLog, found, if_neg ignores]

theorem appenders_accepting {inner : Log} {name : String} (appenders : List Nat)
    (present : ∀ a ∈ appenders, ∃ y, m.appender a = some y) (out : Output) :
    appenders.foldlM (m.appenderLog host inner name level event) out =
      (m.accepting level appenders).foldlM (m.appenderLog host inner name level event) out := by
  induction appenders generalizing out with
  | nil => rfl
  | cons a rest ih =>
      have later := ih fun b member => present b (List.mem_cons_of_mem a member)
      obtain ⟨y, found⟩ := present a List.mem_cons_self
      by_cases accepts : y.level ≤ level
      · have kept : m.accepting level (a :: rest) = a :: m.accepting level rest := by
          apply List.filter_cons_of_pos
          simp [found, accepts]
        rw [kept, List.foldlM_cons, List.foldlM_cons]
        apply congrArg (Option.bind (m.appenderLog host inner name level event out a))
        funext middle
        exact later middle
      · have dropped : m.accepting level (a :: rest) = m.accepting level rest := by
          apply List.filter_cons_of_neg
          simp [found, accepts]
        rw [dropped, List.foldlM_cons, appenderLog_ignores found accepts]
        exact later out

/-- `Logger::log` is the loop over the receivers. -/
theorem log_receivers (wf : WellFormed m) (found : m.logger l = some x) (depth : Nat)
    (out : Output) : log host m (depth + 1) l level event out =
      (m.receivers l level).foldlM
        (m.appenderLog host (log host m depth) x.name level event) out := by
  simp only [log, receivers, found]
  split
  · apply appenders_accepting
    intro a member
    obtain ⟨y, present, _⟩ := wf.attached l x found a member
    exact ⟨y, present⟩
  · rfl

/-- A logger without appenders writes nothing. -/
theorem log_bare (found : m.logger l = some x) (bare : x.appenders = []) (depth : Nat)
    (out : Output) : log host m (depth + 1) l level event out = some out := by
  simp only [log, found, bare]
  split <;> rfl

end Receivers

/-- A logger without appenders falls back to the root logger only if no appender of the root
logger accepts the level. -/
theorem fallsBack_iff {m : LoggerManager} (reachable : Reachable next init m) {l : Nat}
    {x : Logger} (found : m.logger l = some x) (bare : x.appenders = []) {level : LogLevel}
    (passes : x.level ≤ level) :
    FallsBack m l level ↔
      ∀ a ∈ m.appendersOf m.root, ∀ y, m.appender a = some y → ¬ y.level ≤ level := by
  have silent : m.receivers l level = [] := by
    simp only [receivers, found, if_pos passes, bare, accepting, List.filter_nil]
  have known : ∀ a ∈ m.appendersOf m.root, ∃ y, m.appender a = some y := by
    intro a member
    unfold appendersOf at member
    split at member
    · cases member
    · rename_i root present
      have wf := reachable_wellFormed reachable
      obtain ⟨y, attached, _⟩ := wf.attached m.root root present a member
      exact ⟨y, attached⟩
  rw [FallsBack, silent, List.subset_nil, accepting, List.filter_eq_nil_iff]
  constructor
  · intro none_accepts a member y present accepts
    apply none_accepts a member
    simp [present, accepts]
  · intro all_ignore a member accepts
    obtain ⟨y, present⟩ := known a member
    rw [present, Option.any_some, decide_eq_true_eq] at accepts
    exact all_ignore a member y present accepts

/-- The root logger has been configured to log errors only. -/
def errorsOnly : LogDefine := ⟨"root", .error, "%m", [{ type := "stdout", level := .error }]⟩

theorem fallsBack_net :
    FallsBack ((init.configureLogger errorsOnly).getLogger "net").1
      ((init.configureLogger errorsOnly).getLogger "net").2 .info := by
  have run : Run next anyStep init
      [(init, .configureLogger errorsOnly), (init.configureLogger errorsOnly, .getLogger "net")]
      ((init.configureLogger errorsOnly).getLogger "net").1 :=
    (Run.nil.snoc trivial rfl).snoc trivial rfl
  refine (fallsBack_iff run.reachable (x := { Logger.new "net" .debug defaultPattern with
    root := some 0 }) (by decide +kernel) rfl (by decide)).mpr ?_
  have only : ((init.configureLogger errorsOnly).getLogger "net").1.appendersOf
      ((init.configureLogger errorsOnly).getLogger "net").1.root = [1] := by decide +kernel
  rw [only]
  intro a member y present
  obtain rfl := List.mem_singleton.mp member
  obtain rfl := Option.some.inj present
  decide

/-- The logger of the module on threads, obtained before anything is configured: an appender of
the root logger accepts the event, and nothing is written. -/
theorem thread_logger_silent :
    Reachable next init (init.getLogger "thread").1 ∧
    ¬ FallsBack (init.getLogger "thread").1 (init.getLogger "thread").2 .info ∧
    log sampleHost (init.getLogger "thread").1 1 (init.getLogger "thread").2 .info sampleEvent
      ⟨"", ∅, ∅⟩ = some ⟨"", ∅, ∅⟩ := by
  have run : Run next anyStep init [(init, .getLogger "thread")] (init.getLogger "thread").1 :=
    Run.nil.snoc trivial rfl
  have found : (init.getLogger "thread").1.logger (init.getLogger "thread").2 =
      some { Logger.new "thread" .debug defaultPattern with root := some 0 } := by
    decide +kernel
  refine ⟨run.reachable, ?_, log_bare found rfl 0 _⟩
  unfold FallsBack
  decide +kernel

end ZnetServer.LoggerManager
