import ZnetServer.LoggerHandles

set_option autoImplicit false

/- What the calls keep for as long as an appender is attached only when it is made: no
two loggers share one, and each has its logger's pattern or is flagged as having its own. -/
namespace ZnetServer.LoggerManager

open Transition

def Synced (formatter : LogFormatter) (y : LogAppender) : Prop :=
  ∃ f, y.formatter = some f ∧
    if y.hasCustomFormatter then f.pattern ≠ "" else f.pattern = formatter.pattern

structure Consistent (m : LoggerManager) : Prop where
  synced : ∀ l x, m.logger l = some x → ∀ a ∈ x.appenders,
    ∃ y, m.appender a = some y ∧ Synced x.formatter y
  apart : ∀ l k x y, m.logger l = some x → m.logger k = some y →
    ∀ a ∈ x.appenders, a ∈ y.appenders → l = k

/-- None of the appenders has a pattern of its own. -/
def Unflagged (m : LoggerManager) (appenders : List Nat) : Prop :=
  ∀ a ∈ appenders, ∀ y, m.appender a = some y → y.hasCustomFormatter = false

/-- The logger `l` has the pattern, and so have its appenders. -/
def Uniform (m : LoggerManager) (l : Nat) (pattern : String) : Prop :=
  Consistent m ∧ ∃ x, m.logger l = some x ∧ x.formatter = .new pattern ∧
    Unflagged m x.appenders

/-- Changing each appender of a list in a way that a second time adds nothing to. -/
theorem modifyAll_appender {f : LogAppender → LogAppender} (again : ∀ y, f (f y) = f y)
    (list : List Nat) (m : LoggerManager) (a : Nat) :
    (list.foldl (fun n b => n.modifyAppender b f) m).appender a =
      if a ∈ list then (m.appender a).map f else m.appender a := by
  induction list generalizing m with
  | nil => rfl
  | cons b rest ih =>
      rw [List.foldl_cons, ih, modifyAppender_appender]
      by_cases here : b = a
      · subst here
        by_cases later : b ∈ rest
        · rw [if_pos later, if_pos rfl, if_pos List.mem_cons_self, Option.map_map]
          exact congrArg (Option.map · (m.appender b)) (funext again)
        · rw [if_neg later, if_pos rfl, if_pos List.mem_cons_self]
      · have same : a ∈ b :: rest ↔ a ∈ rest := by
          rw [List.mem_cons, or_iff_right (fun equal => here equal.symm)]
        simp only [if_neg here, same]

theorem modifyAll_logger (f : LogAppender → LogAppender) (list : List Nat)
    (m : LoggerManager) (l : Nat) :
    (list.foldl (fun n b => n.modifyAppender b f) m).logger l = m.logger l := by
  apply List.foldlRecOn (motive := fun n : LoggerManager => n.logger l = m.logger l)
  · rfl
  · intro n same b _
    rw [modifyAppender_logger, same]

theorem Unflagged.addNew {m : LoggerManager} {l : Nat} {x : Logger} (found : m.logger l = some x)
    (unflagged : Unflagged m x.appenders) (sink : Sink) :
    Unflagged (m.addNew l (.new sink)) (x.appenders ++ [m.appenderStore.next]) := by
  intro a member y present
  rw [addNew_appender _ _ found] at present
  split at present
  · exact Option.some.inj present ▸ rfl
  · rename_i old
    rcases List.mem_append.mp member with inside | last
    · exact unflagged a inside y present
    · exact absurd (List.mem_singleton.mp last) old

namespace Consistent

variable {m n : LoggerManager}

/-- The same appenders and, for each logger, none or those of before. -/
theorem of_same (con : Consistent m) (appender : ∀ a, n.appender a = m.appender a)
    (logger : ∀ l y, n.logger l = some y → y.appenders = [] ∨
      ∃ x, m.logger l = some x ∧ x.appenders = y.appenders ∧ x.formatter = y.formatter) :
    Consistent n := by
  have old : ∀ l y a, n.logger l = some y → a ∈ y.appenders →
      ∃ x, m.logger l = some x ∧ x.appenders = y.appenders ∧ x.formatter = y.formatter := by
    intro l y a found member
    rcases logger l y found with bare | before
    · rw [bare] at member
      cases member
    · exact before
  refine ⟨fun l y found a member => ?_, fun l k y z left right a inside shared => ?_⟩
  · obtain ⟨x, before, appenders, formatter⟩ := old l y a found member
    rw [← appenders] at member
    rw [appender, ← formatter]
    exact con.synced l x before a member
  · obtain ⟨x, before, appenders, _⟩ := old l y a left inside
    obtain ⟨w, other, same, _⟩ := old k z a right shared
    rw [← appenders] at inside
    rw [← same] at shared
    exact con.apart l k x w before other a inside shared

variable (con : Consistent m)

include con

/-- The registry and the root pointer play no part. -/
theorem register (loggers : Std.ExtTreeMap String Nat) : Consistent { m with loggers } :=
  con.of_same (fun _ => rfl) fun _ y found => Or.inr ⟨y, found, rfl, rfl⟩

theorem newLogger (object : Logger) (bare : object.appenders = []) :
    Consistent (m.newLogger object) := by
  refine con.of_same (fun _ => rfl) ?_
  intro l y found
  rw [newLogger_logger] at found
  split at found
  · exact Or.inl (Option.some.inj found ▸ bare)
  · exact Or.inr ⟨y, found, rfl, rfl⟩

/-- A change of one logger that keeps its appenders and formatter, or drops the appenders. -/
theorem modifyLogger (l : Nat) {f : Logger → Logger}
    (keeps : ∀ x, (f x).appenders = [] ∨
      x.appenders = (f x).appenders ∧ x.formatter = (f x).formatter) :
    Consistent (m.modifyLogger l f) := by
  refine con.of_same (fun _ => rfl) ?_
  intro k y found
  rw [modifyLogger_logger] at found
  split at found
  · rename_i same
    subst same
    obtain ⟨x, before, rfl⟩ := Option.map_eq_some_iff.mp found
    exact (keeps x).imp_right fun both => ⟨x, before, both⟩
  · exact Or.inr ⟨y, found, rfl, rfl⟩

/-- A change of an appender concerns the one logger that has it. -/
theorem modifyAppender {l a : Nat} {x : Logger} (found : m.logger l = some x)
    (member : a ∈ x.appenders) {f : LogAppender → LogAppender}
    (keeps : ∀ y, m.appender a = some y → Synced x.formatter y → Synced x.formatter (f y)) :
    Consistent (m.modifyAppender a f) := by
  refine ⟨fun k z present b inside => ?_, con.apart⟩
  obtain ⟨y, before, synced⟩ := con.synced k z present b inside
  rw [modifyAppender_appender]
  by_cases same : a = b
  · subst same
    obtain rfl := con.apart l k x z found present a member inside
    obtain rfl := Option.some.inj (found.symm.trans present)
    exact ⟨f y, by rw [if_pos rfl, before, Option.map_some], keeps y before synced⟩
  · exact ⟨y, by rw [if_neg same, before], synced⟩

theorem addNew (l : Nat) (object : LogAppender)
    (good : ∀ x, m.logger l = some x →
      Synced x.formatter { object with formatter := object.formatter.or (some x.formatter) }) :
    Consistent (m.addNew l object) := by
  cases found : m.logger l with
  | none =>
      have alone : m.addNew l object = m.newAppender object := by
        rw [LoggerManager.addNew, addAppender, newAppender_logger, found]
      rw [alone]
      refine ⟨fun k z present b inside => ?_, con.apart⟩
      obtain ⟨y, before, synced⟩ := con.synced k z present b inside
      exact ⟨y, by rw [newAppender_appender, if_neg (appender_ne_next b before), before], synced⟩
  | some x =>
      have fresh : ∀ k z, m.logger k = some z → m.appenderStore.next ∉ z.appenders := by
        intro k z present inside
        obtain ⟨y, before, _⟩ := con.synced k z present _ inside
        exact appender_ne_next _ before rfl
      have reads : ∀ k z a, (m.addNew l object).logger k = some z → a ∈ z.appenders →
          (k = l ∧ z.formatter = x.formatter ∧ a = m.appenderStore.next) ∨
            ∃ w, m.logger k = some w ∧ a ∈ w.appenders ∧ w.formatter = z.formatter := by
        intro k z a present inside
        rw [addNew_logger l object found] at present
        split at present
        · rename_i same
          subst same
          obtain rfl := Option.some.inj present
          rcases List.mem_append.mp inside with old | last
          · exact Or.inr ⟨x, found, old, rfl⟩
          · exact Or.inl ⟨rfl, rfl, List.mem_singleton.mp last⟩
        · exact Or.inr ⟨z, present, inside, rfl⟩
      refine ⟨fun k z present a inside => ?_, fun k j y z left right a first second => ?_⟩
      · rw [addNew_appender l object found]
        rcases reads k z a present inside with ⟨rfl, formatter, rfl⟩ | ⟨w, before, old, formatter⟩
        · rw [if_pos rfl, formatter]
          exact ⟨_, rfl, good x found⟩
        · obtain ⟨y, kept, synced⟩ := con.synced k w before a old
          rw [if_neg (appender_ne_next a kept), ← formatter]
          exact ⟨y, kept, synced⟩
      · rcases reads k y a left first with ⟨rfl, _, rfl⟩ | ⟨w, before, old, _⟩
        · rcases reads j z _ right second with ⟨rfl, _, _⟩ | ⟨v, other, shared, _⟩
          · rfl
          · exact absurd shared (fresh j v other)
        · rcases reads j z a right second with ⟨rfl, _, rfl⟩ | ⟨v, other, shared, _⟩
          · exact absurd old (fresh k w before)
          · exact con.apart k j w v before other a old shared

/-- A new object takes the formatter of its logger. -/
theorem addFresh (l : Nat) (sink : Sink) : Consistent (m.addNew l (.new sink)) :=
  con.addNew l _ fun x _ => ⟨x.formatter, rfl, rfl⟩

theorem getLogger (name : String) : Consistent (m.getLogger name).1 := by
  unfold LoggerManager.getLogger
  split
  · exact con
  · exact (con.newLogger { Logger.new name .debug defaultPattern with root := some m.root }
      rfl).register _

theorem updateLevel (l : Nat) (level : LogLevel) (isChanged : Bool) :
    Consistent (m.updateLevel l level isChanged).1 := by
  unfold LoggerManager.updateLevel
  split
  · exact con
  · split
    · exact con.modifyLogger l fun _ => Or.inr ⟨rfl, rfl⟩
    · exact con

/-- A new pattern goes to the logger and to all of its appenders. -/
theorem updatePattern (l : Nat) (pattern : String) (isChanged : Bool) :
    Consistent (m.updatePattern l pattern isChanged).1 := by
  unfold LoggerManager.updatePattern
  split
  · exact con
  · rename_i x found
    split
    · have again : ∀ y, resetFormatter pattern (resetFormatter pattern y) =
          resetFormatter pattern y := fun _ => rfl
      refine ⟨fun k z present a inside => ?_, fun k j y z left right a first second => ?_⟩
      · rw [modifyAll_appender again, modifyLogger_appender]
        rw [modifyAll_logger, modifyLogger_logger] at present
        by_cases same : l = k
        · subst same
          rw [if_pos rfl, found] at present
          obtain rfl := Option.some.inj present
          obtain ⟨y, before, _⟩ := con.synced l x found a inside
          exact ⟨resetFormatter pattern y, by rw [if_pos inside, before, Option.map_some],
            .new pattern, rfl, rfl⟩
        · rw [if_neg same] at present
          have outside : a ∉ x.appenders := fun shared =>
            same (con.apart l k x z found present a shared inside)
          rw [if_neg outside]
          exact con.synced k z present a inside
      · have old : ∀ i w, (m.modifyLogger l fun y => { y with formatter := .new pattern }).logger
            i = some w → ∃ v, m.logger i = some v ∧ v.appenders = w.appenders := by
          intro i w present
          rw [modifyLogger_logger] at present
          split at present
          · rename_i same
            obtain ⟨v, before, rfl⟩ := Option.map_eq_some_iff.mp present
            exact ⟨v, same ▸ before, rfl⟩
          · exact ⟨w, present, rfl⟩
        rw [modifyAll_logger] at left right
        obtain ⟨v, before, one⟩ := old k y left
        obtain ⟨w, other, two⟩ := old j z right
        rw [← one] at first
        rw [← two] at second
        exact con.apart k j v w before other a first second
    · exact con

theorem updateStdout (l : Nat) (isChanged : Bool) :
    Consistent (m.updateStdout l isChanged).1 := by
  unfold LoggerManager.updateStdout
  split
  · exact con
  · exact con.addFresh l .stdout

theorem updateFile (l : Nat) (outputPath : String) (isChanged : Bool) :
    Consistent (m.updateFile l outputPath isChanged).1 := by
  have looped : Consistent
        ((m.appendersOf l).foldl (updatePath outputPath) (m, isChanged, false)).1 ∧
      ((m.appendersOf l).foldl (updatePath outputPath) (m, isChanged, false)).1.logger l =
        m.logger l := by
    apply List.foldlRecOn (motive := fun s : LoggerManager × Bool × Bool =>
      Consistent s.1 ∧ s.1.logger l = m.logger l)
    · exact ⟨con, rfl⟩
    · intro s inv a member
      unfold updatePath
      split
      · split
        · refine ⟨?_, inv.2⟩
          unfold appendersOf at member
          split at member
          · cases member
          · rename_i x found
            exact inv.1.modifyAppender (inv.2.trans found) member fun y _ synced => synced
        · exact inv
      · exact inv
      · exact inv
  simp only [LoggerManager.updateFile]
  split
  · exact looped.1
  · exact looped.1.addFresh l _

theorem updateLogger (wf : WellFormed m) (name : String) (level : LogLevel) (pattern : String)
    (appenders : List String) (outputPath : String) :
    Consistent (m.updateLogger name level pattern appenders outputPath).1 := by
  cases registered : m.loggers[name]? with
  | none =>
      simp only [LoggerManager.updateLogger, registered, Option.bind_none]
      exact con
  | some l =>
      rw [updateLogger_eq wf registered]
      apply updateKinds_keep (fun _ isChanged inv => inv.updateStdout l isChanged)
        (fun _ isChanged inv => inv.updateFile l outputPath isChanged)
      exact (con.updateLevel l level false).updatePattern l pattern _

theorem constructLogger (name : String) (level : LogLevel) (pattern : String)
    (appenders : List String) (outputPath : String) :
    Uniform (m.constructLogger name level pattern appenders outputPath) m.loggerStore.next
      pattern := by
  apply List.foldlRecOn (motive := fun n : LoggerManager => Uniform n m.loggerStore.next pattern)
  · refine ⟨con.newLogger _ rfl, .new name level pattern, ?_, rfl, fun a member => ?_⟩
    · rw [newLogger_logger, if_pos rfl]
    · cases member
  · intro n uniform kind _
    have added : ∀ sink, Uniform (n.addNew m.loggerStore.next (.new sink)) m.loggerStore.next
        pattern := by
      intro sink
      obtain ⟨kept, x, found, formatter, unflagged⟩ := uniform
      refine ⟨kept.addFresh _ sink, { x with appenders := x.appenders ++ [n.appenderStore.next] },
        ?_, formatter, Unflagged.addNew found unflagged sink⟩
      rw [addNew_logger _ _ found, if_pos rfl]
    unfold ofKind
    split
    · exact added .stdout
    · split
      · exact added (.file outputPath)
      · exact uniform

/-- Appenders that are not flagged may take the pattern of their logger. -/
theorem inheritSettings {l : Nat} {x : Logger} (level : LogLevel) {pattern : String}
    (found : m.logger l = some x) (formatter : x.formatter = .new pattern)
    (unflagged : Unflagged m x.appenders) :
    Consistent (m.inheritSettings l level pattern) := by
  have inside : m.appendersOf l = x.appenders := by
    rw [appendersOf, found]
  have looped : Consistent (m.inheritSettings l level pattern) ∧
      (m.inheritSettings l level pattern).logger l = some x ∧
      Unflagged (m.inheritSettings l level pattern) x.appenders := by
    apply List.foldlRecOn (motive := fun n : LoggerManager => Consistent n ∧
      n.logger l = some x ∧ Unflagged n x.appenders)
    · exact ⟨con, found, unflagged⟩
    · intro n inv a member
      rw [inside] at member
      refine ⟨inv.1.modifyAppender inv.2.1 member fun y present _ => ?_, inv.2.1, ?_⟩
      · have plain := inv.2.2 a member y present
        exact ⟨.new pattern, rfl, by simp only [plain, formatter, Bool.false_eq_true, if_false]⟩
      · intro b other y present
        rw [modifyAppender_appender] at present
        split at present
        · rename_i same
          obtain ⟨z, before, rfl⟩ := Option.map_eq_some_iff.mp present
          exact inv.2.2 a member z before
        · exact inv.2.2 b other y present
  exact looped.1

theorem createLogger (wf : WellFormed m) (name : String) (level : LogLevel) (pattern : String)
    (appenders : List String) (outputPath : String) :
    Consistent (m.createLogger name level pattern appenders outputPath).1 := by
  unfold LoggerManager.createLogger
  split
  · exact con.updateLogger wf name level pattern appenders outputPath
  · obtain ⟨made, x, found, formatter, unflagged⟩ :=
      con.constructLogger name level pattern appenders outputPath
    exact (made.inheritSettings level found formatter unflagged).register _

omit con in
/-- Rebuilding the appenders of a logger keeps what clearing them has given. -/
theorem updateAppender (l : Nat) (ld : LogDefine)
    (cleared : Consistent (m.modifyLogger l fun x => { x with appenders := [] })) :
    Consistent (m.updateAppender l ld) := by
  apply List.foldlRecOn (motive := Consistent)
  · exact cleared
  · intro n inv define _
    unfold addDefine
    split
    · exact inv
    · rename_i x found
      cases made : ofDefine ld x.formatter define with
      | none => exact inv
      | some object =>
          obtain ⟨sink, _, rfl⟩ := Option.map_eq_some_iff.mp made
          apply inv.addNew l
          intro y present
          obtain rfl := Option.some.inj (found.symm.trans present)
          by_cases custom : define.formatter = ""
          · exact ⟨x.formatter, by simp [LogAppenderDefine.hasCustomFormatter, custom],
              by simp [LogAppenderDefine.hasCustomFormatter, custom]⟩
          · exact ⟨.new define.formatter,
              by simp [LogAppenderDefine.hasCustomFormatter, custom],
              by simp [LogAppenderDefine.hasCustomFormatter, custom]⟩

theorem configureLogger (ld : LogDefine) : Consistent (m.configureLogger ld) := by
  cases registered : m.loggers[ld.name]? with
  | some l =>
      rw [configureLogger_existing registered]
      apply updateAppender
      refine con.of_same (fun _ => rfl) fun k y found => ?_
      rw [modifyLogger_logger, modifyLogger_logger, modifyLogger_logger] at found
      by_cases same : l = k
      · rw [if_pos same] at found
        obtain ⟨x, _, rfl⟩ := Option.map_eq_some_iff.mp found
        exact Or.inl rfl
      · rw [if_neg same, if_neg same] at found
        exact Or.inr ⟨y, found, rfl, rfl⟩
  | none =>
      rw [configureLogger_new registered]
      apply updateAppender
      have made := (con.newLogger (.new ld.name ld.level ld.formatter) rfl).register
        (m.loggers.insert ld.name m.loggerStore.next)
      exact made.modifyLogger _ fun _ => Or.inl rfl

theorem logInit (newValue : LogDefineSet) : Consistent (m.logInit newValue) := by
  apply logInit_keep (P := Consistent) ?_ (fun _ ld inv => inv.configureLogger ld) con
  intro n name inv
  unfold removeMissing
  split
  · exact inv
  · exact inv.register _

end Consistent

theorem init_consistent : Consistent init := by
  have none_yet : Consistent ⟨.empty, .empty, ∅, 0⟩ :=
    ⟨fun l x found => by simp [logger, ObjectStore.Store.read, ObjectStore.Store.empty] at found,
      fun l k x y found => by
        simp [logger, ObjectStore.Store.read, ObjectStore.Store.empty] at found⟩
  have root := none_yet.newLogger (.new "root" .debug defaultPattern) rfl
  exact (root.register _).addFresh 0 .stdout

/-- Appenders are attached only when they are made. -/
def AttachesFresh (_ : LoggerManager) : Op → Prop
  | .newAppender _ | .addAppender _ _ => False
  | _ => True

instance (m : LoggerManager) (op : Op) : Decidable (AttachesFresh m op) := by
  unfold AttachesFresh
  cases op <;> infer_instance

theorem next_consistent {m n : LoggerManager} {op : Op} (con : Consistent m) (wf : WellFormed m)
    (allowed : AttachesFresh m op) (step : next m op = some n) : Consistent n := by
  cases op with
  | getLogger name => exact Option.some.inj step ▸ con.getLogger name
  | createLogger name level pattern appenders outputPath =>
      exact Option.some.inj step ▸ con.createLogger wf name level pattern appenders outputPath
  | updateLogger name level pattern appenders outputPath =>
      exact Option.some.inj step ▸ con.updateLogger wf name level pattern appenders outputPath
  | configureLogger ld => exact Option.some.inj step ▸ con.configureLogger ld
  | removeLogger name => exact Option.some.inj step ▸ con.register _
  | logInit newValue => exact Option.some.inj step ▸ con.logInit newValue
  | newAppender sink => cases allowed
  | addAppender l a => cases allowed
  | addFresh l sink =>
      simp only [next] at step
      split at step
      · exact Option.some.inj step ▸ con.addFresh l sink
      · cases step

theorem run_consistent {m : LoggerManager} {trace : List (LoggerManager × Op)}
    (run : Run next AttachesFresh init trace m) : Consistent m ∧ WellFormed m :=
  run.invariant (I := fun m => Consistent m ∧ WellFormed m) ⟨init_consistent, init_wellFormed⟩
    fun _ _ _ inv allowed step =>
      ⟨next_consistent inv.1 inv.2 allowed step, next_wellFormed inv.2 step⟩

end ZnetServer.LoggerManager
