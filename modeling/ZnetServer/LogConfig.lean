import Mathlib.Data.List.Forall2
import ZnetServer.Config
import ZnetServer.LoggerReconcile

set_option autoImplicit false

/- The variable `g_loggers_config` with the listener of `LogInit`, and what its test for
equality lets pass. -/
namespace ZnetServer

section Lists

variable {α β γ : Type}

theorem equalLists_iff (equals : α → α → Bool) (as bs : List α) :
    equalLists equals as bs = true ↔ List.Forall₂ (fun a b => equals a b = true) as bs := by
  induction as generalizing bs with
  | nil => cases bs <;> simp [equalLists]
  | cons a as ih =>
      cases bs with
      | nil => simp [equalLists]
      | cons b bs => rw [equalLists, Bool.and_eq_true, List.forall₂_cons, ih]

/-- Selections at the same places are equal exactly when each selected element is. -/
theorem filterMap_eq_iff {f : α → Option γ} {g : β → Option γ} {as : List α} {bs : List β}
    (aligned : List.Forall₂ (fun a b => (f a).isSome = (g b).isSome) as bs) :
    as.filterMap f = bs.filterMap g ↔ List.Forall₂ (fun a b => f a = g b) as bs := by
  induction aligned with
  | nil => simp
  | @cons a b as bs same _ ih =>
      rw [List.forall₂_cons, ← ih]
      cases left : f a with
      | none =>
          rw [left] at same
          have right : g b = none := Option.isNone_iff_eq_none.mp (by simpa using same.symm)
          rw [List.filterMap_cons_none left, List.filterMap_cons_none right, right]
          simp
      | some c =>
          rw [left] at same
          obtain ⟨d, right⟩ := Option.isSome_iff_exists.mp same.symm
          rw [List.filterMap_cons_some left, List.filterMap_cons_some right, right]
          simp

/-- Under a relation that makes them equivalent, two relations hold of the same lists. -/
theorem forall₂_congr_of {R P Q : α → β → Prop} {as : List α} {bs : List β}
    (related : List.Forall₂ R as bs) (same : ∀ a b, R a b → (P a b ↔ Q a b)) :
    List.Forall₂ P as bs ↔ List.Forall₂ Q as bs := by
  induction related with
  | nil => simp
  | cons here _ ih => rw [List.forall₂_cons, List.forall₂_cons, same _ _ here, ih]

end Lists

open Yaml

/-- `ConfigVar<std::set<LogDefine>>` with the two `LexicalCast`s. -/
def loggersType (yaml : YamlCpp) : ConfigType where
  T := LogDefineSet
  eq a b := equalLists LogDefine.equals a.toList b.toList
  fromStr := LogDefineSet.ofText yaml
  toStr := LogDefineSet.toText yaml

/-- `g_loggers_config` after `LogInit`. -/
def loggersConfig (yaml : YamlCpp) : ConfigVar (loggersType yaml) LoggerManager :=
  (ConfigVar.new "loggers" OrderedSet.empty "loggers").addListener 1
    fun newValue _ m => (m.logInit newValue, none)

/-- The variable when it holds a value. -/
def loggersHolding (yaml : YamlCpp) (value : LogDefineSet) :
    ConfigVar (loggersType yaml) LoggerManager :=
  { loggersConfig yaml with value }

/-- Levels, patterns, and each appender's type, path, level and pattern. -/
def LogAppender.shown (x : LogAppender) : Sink × LogLevel × Option String :=
  (x.sink, x.level, x.formatter.map LogFormatter.pattern)

def LoggerView.shown (v : LoggerView) :
    LogLevel × String × List (Sink × LogLevel × Option String) :=
  (v.level, v.formatter.pattern, v.appenders.map LogAppender.shown)

/-- Two definitions of one appender come to the same settings. -/
def SameSettings (a b : LogDefine) (d e : LogAppenderDefine) : Prop :=
  d.sink ≠ none → a.levelOf d = b.levelOf e ∧ a.patternOf d = b.patternOf e

/-- Sets that are equal for `operator==` come to the same settings. -/
def EqualityComplete (old new : LogDefineSet) : Prop :=
  equalLists LogDefine.equals old.toList new.toList = true →
    List.Forall₂ (fun a b => List.Forall₂ (SameSettings a b) a.appender b.appender)
      old.toList new.toList

namespace LoggerManager

/-- What `setValue` does to the registry. -/
theorem setValue_loggers (yaml : YamlCpp) (old new : LogDefineSet) (m : LoggerManager) :
    ((loggersHolding yaml old).setValue new m).2.1 =
      if equalLists LogDefine.equals old.toList new.toList = true then m else m.logInit new := by
  unfold ConfigVar.setValue
  change (if equalLists LogDefine.equals old.toList new.toList = true then _ else _ :
    ConfigVar (loggersType yaml) LoggerManager × LoggerManager × Option String).2.1 = _
  split <;> rfl

theorem wants_shown (ld : LogDefine) (define : LogAppenderDefine) :
    (ld.wants define).map LogAppender.shown =
      define.sink.map fun sink => (sink, ld.levelOf define, some (ld.patternOf define)) := by
  cases sink : define.sink <;> simp [LogDefine.wants, sink, LogAppender.shown]

theorem equals_iff (a b : LogDefine) : a.equals b = true ↔
    a.name = b.name ∧ a.level = b.level ∧ a.formatter = b.formatter ∧
      List.Forall₂ (fun d e => d.equals e = true) a.appender b.appender := by
  simp only [LogDefine.equals, Bool.and_eq_true, beq_iff_eq, equalLists_iff, and_assoc]

/-- Equal appender definitions are of one class and path. -/
theorem sink_of_equals {d e : LogAppenderDefine} (equal : d.equals e = true) :
    d.sink = e.sink := by
  simp only [LogAppenderDefine.equals, Bool.and_eq_true, beq_iff_eq] at equal
  unfold LogAppenderDefine.sink
  rw [equal.1, equal.2]

theorem wants_shown_iff (a b : LogDefine) {d e : LogAppenderDefine}
    (equal : d.equals e = true) :
    (a.wants d).map LogAppender.shown = (b.wants e).map LogAppender.shown ↔
      SameSettings a b d e := by
  rw [wants_shown, wants_shown, ← sink_of_equals equal, SameSettings]
  cases d.sink <;> simp

/-- Equal definitions ask for the same loggers exactly when they come to the same settings. -/
theorem reconciled_shown_iff {a b : LogDefine} (equal : a.equals b = true) :
    a.reconciled.shown = b.reconciled.shown ↔
      List.Forall₂ (SameSettings a b) a.appender b.appender := by
  obtain ⟨_, level, formatter, appenders⟩ := (equals_iff a b).mp equal
  have selected : ∀ ld : LogDefine, (ld.appender.filterMap ld.wants).map LogAppender.shown =
      ld.appender.filterMap fun d => (ld.wants d).map LogAppender.shown :=
    fun ld => List.map_filterMap ..
  have aligned : List.Forall₂ (fun d e => ((a.wants d).map LogAppender.shown).isSome =
      ((b.wants e).map LogAppender.shown).isSome) a.appender b.appender :=
    appenders.imp fun d e same => by
      rw [wants_shown, wants_shown, Option.isSome_map, Option.isSome_map, sink_of_equals same]
  simp only [LoggerView.shown, LogDefine.reconciled, level, formatter, selected, Prod.mk.injEq,
    true_and, LogFormatter.new_pattern]
  rw [filterMap_eq_iff aligned]
  exact forall₂_congr_of appenders (fun _ _ same => wants_shown_iff a b same)

/-- Searching two lists with the same names finds the same places. -/
theorem find_aligned {as bs : List LogDefine} (name : String)
    (related : List.Forall₂ (fun a b => a.name = b.name ∧ a.reconciled.shown = b.reconciled.shown)
      as bs) :
    (as.find? (·.name = name)).map (·.reconciled.shown) =
      (bs.find? (·.name = name)).map (·.reconciled.shown) := by
  induction related with
  | nil => rfl
  | @cons a b as bs here _ ih =>
      by_cases same : a.name = name
      · have other : b.name = name := here.1.symm.trans same
        rw [List.find?_cons_of_pos (by simp [same]), List.find?_cons_of_pos (by simp [other]),
          Option.map_some, Option.map_some, here.2]
      · have other : b.name ≠ name := fun equal => same (here.1.trans equal)
        rw [List.find?_cons_of_neg (by simp [same]), List.find?_cons_of_neg (by simp [other]), ih]

/-- The loggers of two equal sets look the same exactly when the settings agree. -/
theorem finds_shown_iff {old new : LogDefineSet}
    (equal : equalLists LogDefine.equals old.toList new.toList = true) :
    (∀ name, (old.find name).map (·.reconciled.shown) =
      (new.find name).map (·.reconciled.shown)) ↔
    List.Forall₂ (fun a b => List.Forall₂ (SameSettings a b) a.appender b.appender)
      old.toList new.toList := by
  have pairs := (equalLists_iff LogDefine.equals _ _).mp equal
  rw [← forall₂_congr_of pairs fun _ _ same => reconciled_shown_iff same]
  constructor
  · intro agree
    rw [List.forall₂_iff_zip] at pairs ⊢
    refine ⟨pairs.1, fun {a b} member => ?_⟩
    have inside := List.of_mem_zip member
    have names := ((equals_iff a b).mp (pairs.2 member)).1
    have looks := agree a.name
    rw [find_mem inside.1, names, find_mem inside.2] at looks
    exact Option.some.inj looks
  · intro agree name
    apply find_aligned
    rw [List.forall₂_iff_zip] at pairs agree ⊢
    exact ⟨pairs.1, fun {a b} member =>
      ⟨((equals_iff a b).mp (pairs.2 member)).1, agree.2 member⟩⟩

theorem logInit_shown {m : LoggerManager} (wf : WellFormed m) (newValue : LogDefineSet)
    (name : String) : ((m.logInit newValue).view name).map LoggerView.shown =
      (newValue.find name).map (·.reconciled.shown) := by
  rw [logInit_view newValue name wf, Option.map_map]
  rfl

/-- After `setValue(new)` on a variable that holds `old`, with the registry that the
listener makes of `old`, the registry is the one the listener makes of `new` exactly when
no change of settings is hidden from `operator==`. -/
theorem setValue_reconfigures_iff {m : LoggerManager}
    (reachable : Transition.Reachable next init m) (yaml : YamlCpp) (old new : LogDefineSet) :
    (∀ name,
      (((loggersHolding yaml old).setValue new (m.logInit old)).2.1.view name).map
        LoggerView.shown = ((m.logInit new).view name).map LoggerView.shown) ↔
      EqualityComplete old new := by
  have wf := reachable_wellFormed reachable
  rw [setValue_loggers]
  by_cases equal : equalLists LogDefine.equals old.toList new.toList = true
  · simp only [equal, ↓reduceIte, logInit_shown wf]
    rw [finds_shown_iff equal, EqualityComplete]
    exact ⟨fun agree _ => agree, fun agree => agree equal⟩
  · simp only [equal, Bool.false_eq_true, ↓reduceIte, logInit_shown wf,
      logInit_shown (wf.logInit old), implies_true, true_iff]
    exact fun same => absurd same equal

/-- One logger with one appender. -/
def oneAppender (appender : LogAppenderDefine) : LogDefineSet where
  toList := [⟨"net", .debug, "%m", [appender]⟩]
  sorted := List.pairwise_singleton _ _

/-- A new path is noticed. -/
theorem setValue_reconfigures_path :
    (((loggersHolding default (oneAppender { type := "file", path := "a.log" })).setValue
        (oneAppender { type := "file", path := "b.log" })
        (init.logInit (oneAppender { type := "file", path := "a.log" }))).2.1.view "net").map
        LoggerView.shown =
      ((init.logInit (oneAppender { type := "file", path := "b.log" })).view "net").map
        LoggerView.shown :=
  (setValue_reconfigures_iff ⟨[], .nil⟩ default _ _).mpr
    (fun equal => absurd equal (by decide)) "net"

/-- A new appender level is not. -/
theorem setValue_swallows_level :
    ∃ (old new : LogDefineSet) (name : String),
      (((loggersHolding default old).setValue new (init.logInit old)).2.1.view name).map
        LoggerView.shown ≠ ((init.logInit new).view name).map LoggerView.shown := by
  refine ⟨oneAppender { type := "stdout" }, oneAppender { type := "stdout", level := .error },
    "net", ?_⟩
  rw [setValue_loggers, if_pos (by decide), logInit_shown init_wellFormed,
    logInit_shown init_wellFormed]
  intro same
  have levels := congrArg (Option.map fun v => v.2.2.map (·.2.1)) same
  revert levels
  decide

end LoggerManager

end ZnetServer
