import ZnetServer.LoggerLevels

set_option autoImplicit false

/- The calls of `LoggerManager` on what a logger shows: values, without the appenders as objects
that pointers lead to. -/
namespace ZnetServer

open LoggerManager (ofKind resetFormatter)

namespace LoggerView

/-- A logger that `getLogger` makes. -/
def bare : LoggerView := ⟨.debug, .new defaultPattern, []⟩

/-- `setLevel` and `setFormatter` with what the logger has. -/
def inherit (level : LogLevel) (pattern : String) (x : LogAppender) : LogAppender :=
  { x with level, formatter := some (.new pattern) }

/-- A logger that `createLogger` makes. -/
def created (level : LogLevel) (pattern : String) (kinds : List String) (outputPath : String) :
    LoggerView where
  level := level
  formatter := .new pattern
  appenders := (kinds.filterMap (ofKind outputPath)).map (inherit level pattern)

/-- Without a formatter of its own the appender gets this one. -/
def formatted (formatter : LogFormatter) (x : LogAppender) : LogAppender :=
  { x with formatter := x.formatter.or (some formatter) }

/-- `addAppender` of a new appender. -/
def add (fresh : LogAppender) (v : LoggerView) : LoggerView :=
  { v with appenders := v.appenders ++ [formatted v.formatter fresh] }

/-- Appenders of the kind get the path. -/
def retarget (sink : Sink) (x : LogAppender) : LogAppender :=
  if x.sink.type = sink.type then { x with sink } else x

def provide (fresh : LogAppender) (v : LoggerView) : LoggerView :=
  if v.appenders.any (·.sink.type = fresh.sink.type) then
    { v with appenders := v.appenders.map (retarget fresh.sink) }
  else v.add fresh

def provideKind (outputPath : String) (v : LoggerView) (kind : String) : LoggerView :=
  match ofKind outputPath kind with
  | none => v
  | some fresh => v.provide fresh

/-- A new pattern goes to all appenders. -/
def restyle (pattern : String) (v : LoggerView) : LoggerView :=
  if pattern ≠ v.formatter.pattern then
    { v with formatter := .new pattern, appenders := v.appenders.map (resetFormatter pattern) }
  else v

/-- What `updateLogger` makes of a logger. -/
def update (level : LogLevel) (pattern : String) (kinds : List String) (outputPath : String)
    (v : LoggerView) : LoggerView :=
  kinds.foldl (provideKind outputPath) (({ v with level } : LoggerView).restyle pattern)

theorem retarget_stdout (x : LogAppender) : retarget .stdout x = x := by
  obtain ⟨sink, level, formatter, custom⟩ := x
  cases sink <;> rfl

theorem retarget_file (outputPath : String) (x : LogAppender) :
    retarget (.file outputPath) x = LoggerManager.toFile outputPath x := by
  obtain ⟨sink, level, formatter, custom⟩ := x
  cases sink <;> rfl

end LoggerView

namespace LoggerManager

/-- The name of a logger and what its getters show. -/
def shown (m : LoggerManager) (l : Nat) : Option (String × LoggerView) :=
  (m.logger l).map fun x => (x.name, ⟨x.level, x.formatter, m.resolve x.appenders⟩)

/-- Only the logger `l`, its appenders and new ones differ. -/
structure Confined (l : Nat) (m n : LoggerManager) : Prop where
  logger : ∀ k, k ≠ l → n.logger k = m.logger k
  appender : ∀ a x, m.appender a = some x → n.appender a = some x ∨ a ∈ m.appendersOf l
  own : ∀ a ∈ n.appendersOf l, a ∈ m.appendersOf l ∨ m.appender a = none

section Shown

variable {m n o : LoggerManager} {l k : Nat} {x : Logger} {name : String} {v : LoggerView}

theorem shown_found (found : m.logger l = some x) :
    m.shown l = some (x.name, ⟨x.level, x.formatter, m.resolve x.appenders⟩) := by
  rw [shown, found, Option.map_some]

theorem shown_cases (shows : m.shown l = some (name, v)) : ∃ x, m.logger l = some x ∧
    x.name = name ∧ v = ⟨x.level, x.formatter, m.resolve x.appenders⟩ := by
  obtain ⟨x, found, same⟩ := Option.map_eq_some_iff.mp shows
  obtain ⟨rfl, rfl⟩ := Prod.mk.inj same
  exact ⟨x, found, rfl, rfl⟩

theorem shown_view (shows : m.shown l = some (name, v)) : m.viewOf l = some v := by
  obtain ⟨x, found, _, rfl⟩ := shown_cases shows
  rw [viewOf, found, Option.map_some]

theorem appendersOf_found (found : m.logger l = some x) : m.appendersOf l = x.appenders := by
  rw [appendersOf, found]

namespace Confined

theorem refl (l : Nat) (m : LoggerManager) : Confined l m m :=
  ⟨fun _ _ => rfl, fun _ _ found => .inl found, fun _ member => .inl member⟩

theorem trans (first : Confined l m n) (second : Confined l n o) : Confined l m o where
  logger k apart := (second.logger k apart).trans (first.logger k apart)
  appender a x found := by
    rcases first.appender a x found with kept | member
    · rcases second.appender a x kept with still | member
      · exact .inl still
      · rcases first.own a member with old | missing
        · exact .inr old
        · rw [missing] at found
          cases found
    · exact .inr member
  own a member := by
    rcases second.own a member with inside | missing
    · exact first.own a inside
    · cases found : m.appender a with
      | none => exact .inr rfl
      | some x =>
          rcases first.appender a x found with kept | inside
          · rw [missing] at kept
            cases kept
          · exact .inl inside

/-- No logger shares an appender with another, so the others show what they showed. -/
theorem shown (confined : Confined l m n) (con : Consistent m) (wf : WellFormed m)
    (apart : k ≠ l) : n.shown k = m.shown k := by
  unfold LoggerManager.shown
  rw [confined.logger k apart]
  cases found : m.logger k with
  | none => rfl
  | some x =>
      have same : n.resolve x.appenders = m.resolve x.appenders := by
        apply List.filterMap_congr
        intro a member
        obtain ⟨y, present, _⟩ := wf.attached k x found a member
        rcases confined.appender a y present with kept | shared
        · rw [kept, present]
        · unfold appendersOf at shared
          split at shared
          · cases shared
          · rename_i z other
            exact absurd (con.apart k l x z found other a member shared) apart
      rw [Option.map_some, Option.map_some, same]

theorem addNew (found : m.logger l = some x) (object : LogAppender) :
    Confined l m (m.addNew l object) where
  logger k apart := by rw [addNew_logger l object found, if_neg (Ne.symm apart)]
  appender a y present := by
    rw [addNew_appender l object found, if_neg (appender_ne_next a present)]
    exact .inl present
  own a member := by
    have grown := addNew_logger l object found l
    rw [if_pos rfl] at grown
    rw [appendersOf_found grown] at member
    rw [appendersOf_found found]
    rcases List.mem_append.mp member with old | new
    · exact .inl old
    · right
      by_contra present
      obtain ⟨y, present⟩ := Option.ne_none_iff_exists'.mp present
      exact appender_ne_next a present (List.mem_singleton.mp new)

theorem modifyLogger (f : Logger → Logger)
    (appenders : ∀ x, (f x).appenders ⊆ x.appenders) : Confined l m (m.modifyLogger l f) where
  logger k apart := by rw [modifyLogger_logger, if_neg (Ne.symm apart)]
  appender a x found := .inl found
  own a member := by
    unfold appendersOf at member
    rw [modifyLogger_logger, if_pos rfl] at member
    cases found : m.logger l with
    | none =>
        rw [found] at member
        cases member
    | some x =>
        rw [found] at member
        rw [appendersOf_found found]
        exact .inl (appenders x member)

/-- Changing appenders that the logger has. -/
theorem modifyAppenders {after : LoggerManager} (loggers : ∀ k, after.logger k = m.logger k)
    (others : ∀ a, a ∉ m.appendersOf l → after.appender a = m.appender a) :
    Confined l m after where
  logger k _ := loggers k
  appender a x found := by
    by_cases member : a ∈ m.appendersOf l
    · exact .inr member
    · exact .inl ((others a member).trans found)
  own a member := by
    unfold appendersOf at member ⊢
    rw [loggers] at member
    exact .inl member

end Confined

end Shown

section Steps

variable {m : LoggerManager} {l : Nat} {name : String} {v : LoggerView} {outputPath : String}

/-- A new logger without appenders. -/
theorem newLogger_shown (object : Logger) (bare : object.appenders = []) :
    (m.newLogger object).shown m.loggerStore.next =
      some (object.name, ⟨object.level, object.formatter, []⟩) := by
  have made : (m.newLogger object).logger m.loggerStore.next = some object := by
    rw [newLogger_logger, if_pos rfl]
  rw [shown_found made, bare]
  rfl

theorem newLogger_others (object : Logger) {k : Nat} {u : String × LoggerView}
    (shows : m.shown k = some u) : (m.newLogger object).shown k = some u := by
  obtain ⟨x, found, _⟩ := Option.map_eq_some_iff.mp shows
  have same : (m.newLogger object).logger k = m.logger k := by
    rw [newLogger_logger, if_neg (logger_ne_next k found)]
  rw [← shows, shown, shown, same]
  rfl

theorem addNew_shown (wf : WellFormed m) (shows : m.shown l = some (name, v))
    (object : LogAppender) : (m.addNew l object).shown l = some (name, v.add object) := by
  obtain ⟨x, found, rfl, rfl⟩ := shown_cases shows
  have grown := addNew_logger l object found l
  rw [if_pos rfl] at grown
  have old : x.appenders.filterMap (m.addNew l object).appender =
      x.appenders.filterMap m.appender := by
    apply List.filterMap_congr
    intro a member
    obtain ⟨y, present, _⟩ := wf.attached l x found a member
    rw [addNew_appender l object found, if_neg (appender_ne_next a present)]
  have last := addNew_appender l object found m.appenderStore.next
  rw [if_pos rfl] at last
  rw [shown_found grown, resolve, List.filterMap_append, old, List.filterMap_cons_some last,
    List.filterMap_nil]
  rfl

theorem updateLevel_shown (shows : m.shown l = some (name, v)) (level : LogLevel)
    (isChanged : Bool) :
    (m.updateLevel l level isChanged).1.shown l = some (name, { v with level }) ∧
      Confined l m (m.updateLevel l level isChanged).1 := by
  obtain ⟨x, found, rfl, rfl⟩ := shown_cases shows
  unfold updateLevel
  simp only [found]
  split
  · have set : (m.modifyLogger l fun x => { x with level }).logger l = some { x with level } := by
      rw [modifyLogger_logger, if_pos rfl, found, Option.map_some]
    exact ⟨shown_found set, .modifyLogger _ fun _ _ member => member⟩
  · rename_i same
    obtain rfl := not_not.mp same
    exact ⟨shows, .refl l m⟩

theorem updatePattern_shown (shows : m.shown l = some (name, v)) (pattern : String)
    (isChanged : Bool) :
    (m.updatePattern l pattern isChanged).1.shown l = some (name, v.restyle pattern) ∧
      Confined l m (m.updatePattern l pattern isChanged).1 := by
  obtain ⟨x, found, rfl, rfl⟩ := shown_cases shows
  unfold updatePattern LoggerView.restyle
  simp only [found]
  split
  · have again : ∀ y, resetFormatter pattern (resetFormatter pattern y) =
        resetFormatter pattern y := fun _ => rfl
    have set : (m.modifyLogger l fun x => { x with formatter := .new pattern }).logger l =
        some { x with formatter := .new pattern } := by
      rw [modifyLogger_logger, if_pos rfl, found, Option.map_some]
    have kept := modifyAll_logger (resetFormatter pattern) x.appenders
      (m.modifyLogger l fun x => { x with formatter := .new pattern })
    have changed : ∀ a, (x.appenders.foldl (fun m a => m.modifyAppender a (resetFormatter pattern))
        (m.modifyLogger l fun x => { x with formatter := .new pattern })).appender a =
          if a ∈ x.appenders then (m.appender a).map (resetFormatter pattern)
          else m.appender a := fun a => modifyAll_appender again x.appenders _ a
    refine ⟨?_, ?_⟩
    · rw [shown_found ((kept l).trans set), resolve, resolve, List.map_filterMap]
      refine congrArg (fun appenders => some (x.name, LoggerView.mk x.level _ appenders)) ?_
      apply List.filterMap_congr
      intro a member
      rw [changed, if_pos member]
    · have first : Confined l m (m.modifyLogger l fun x => { x with formatter := .new pattern }) :=
        .modifyLogger _ fun _ _ member => member
      apply first.trans
      refine .modifyAppenders kept fun a outside => ?_
      rw [appendersOf_found set] at outside
      rw [changed, if_neg outside]
      rfl
  · exact ⟨shows, .refl l m⟩

theorem updateStdout_shown (wf : WellFormed m) (shows : m.shown l = some (name, v))
    (isChanged : Bool) :
    (m.updateStdout l isChanged).1.shown l = some (name, v.provide (.new .stdout)) ∧
      Confined l m (m.updateStdout l isChanged).1 := by
  obtain ⟨x, found, rfl, rfl⟩ := shown_cases shows
  have asked : ((m.appendersOf l).any fun a => (m.appender a).any (·.sink.isStdout)) =
      (m.resolve x.appenders).any (·.sink.type = "stdout") := by
    rw [appendersOf_found found, resolve, List.any_filterMap]
    congr
    funext a
    cases m.appender a with
    | none => rfl
    | some y => obtain ⟨sink, level, formatter, custom⟩ := y; cases sink <;> rfl
  unfold updateStdout LoggerView.provide
  rw [asked]
  change (if _ then (m, isChanged) else (m.addNew l (.new .stdout), true)).1.shown l =
    some (x.name, if (m.resolve x.appenders).any (·.sink.type = "stdout") then _ else _) ∧ _
  split
  · have unmoved : (m.resolve x.appenders).map (LoggerView.retarget .stdout) =
        m.resolve x.appenders :=
      (List.map_congr_left fun y _ => LoggerView.retarget_stdout y).trans (List.map_id _)
    refine ⟨?_, .refl l m⟩
    rw [shows]
    exact congrArg (fun appenders => some (x.name, LoggerView.mk _ _ appenders)) unmoved.symm
  · exact ⟨addNew_shown wf shows (.new .stdout), .addNew found (.new .stdout)⟩

theorem updateFile_shown (wf : WellFormed m) (shows : m.shown l = some (name, v))
    (isChanged : Bool) :
    (m.updateFile l outputPath isChanged).1.shown l =
        some (name, v.provide (.new (.file outputPath))) ∧
      Confined l m (m.updateFile l outputPath isChanged).1 := by
  obtain ⟨x, found, rfl, rfl⟩ := shown_cases shows
  obtain ⟨appenders, loggers, hasFile⟩ :=
    updatePaths outputPath x.appenders (m, isChanged, false)
  have own := (loggers l).trans found
  have redirected : (x.appenders.foldl (updatePath outputPath) (m, isChanged, false)).1.resolve
      x.appenders = (m.resolve x.appenders).map (LoggerView.retarget (.file outputPath)) := by
    rw [resolve, resolve, List.map_filterMap]
    apply List.filterMap_congr
    intro a member
    rw [appenders, if_pos member, funext (LoggerView.retarget_file outputPath)]
  have confined : Confined l m
      (x.appenders.foldl (updatePath outputPath) (m, isChanged, false)).1 := by
    refine .modifyAppenders loggers fun a outside => ?_
    rw [appendersOf_found found] at outside
    rw [appenders, if_neg outside]
  have asked : (x.appenders.any fun a => (m.appender a).any fun y => y.sink.type = "file") =
      (m.resolve x.appenders).any (·.sink.type = "file") := by
    rw [resolve, List.any_filterMap]
    rfl
  rw [Bool.false_or, asked] at hasFile
  simp only [updateFile, appendersOf_found found, hasFile]
  unfold LoggerView.provide
  change _ = some (x.name, if (m.resolve x.appenders).any (·.sink.type = "file") then _ else _) ∧ _
  split
  · refine ⟨?_, confined⟩
    rw [shown_found own, redirected]
    rfl
  · rename_i missing
    have unmoved : (m.resolve x.appenders).map (LoggerView.retarget (.file outputPath)) =
        m.resolve x.appenders := by
      rw [List.map_congr_left (g := id), List.map_id]
      intro y member
      apply if_neg
      intro file
      exact missing (List.any_eq_true.mpr ⟨y, member, decide_eq_true file⟩)
    have still := shown_found own
    rw [redirected, unmoved] at still
    have kept : WellFormed
        (x.appenders.foldl (updatePath outputPath) (m, isChanged, false)).1 := by
      apply List.foldlRecOn (motive := fun s : LoggerManager × Bool × Bool => WellFormed s.1)
      · exact wf
      · intro s inv a _
        rcases updatePath_cases outputPath s a with
          ⟨same, _⟩ | ⟨_, _, _, _, ⟨_, turn⟩ | ⟨_, turn⟩⟩
        · rw [same]
          exact inv
        · rw [turn]
          exact inv
        · rw [turn]
          exact inv.modifyAppender a fun _ formatted => formatted
    exact ⟨addNew_shown kept still _, confined.trans (.addNew own _)⟩

theorem updateKinds_shown (kinds : List String) (wf : WellFormed m)
    (shows : m.shown l = some (name, v)) (isChanged : Bool) :
    (kinds.foldl (updateKind l outputPath) (m, isChanged)).1.shown l =
        some (name, kinds.foldl (LoggerView.provideKind outputPath) v) ∧
      Confined l m (kinds.foldl (updateKind l outputPath) (m, isChanged)).1 := by
  induction kinds generalizing m v isChanged with
  | nil => exact ⟨shows, .refl l m⟩
  | cons kind rest ih =>
      have step : WellFormed (updateKind l outputPath (m, isChanged) kind).1 ∧
          (updateKind l outputPath (m, isChanged) kind).1.shown l =
            some (name, v.provideKind outputPath kind) ∧
          Confined l m (updateKind l outputPath (m, isChanged) kind).1 := by
        unfold updateKind LoggerView.provideKind ofKind
        split
        · exact ⟨wf.updateStdout l isChanged, updateStdout_shown wf shows isChanged⟩
        · split
          · exact ⟨wf.updateFile l outputPath isChanged, updateFile_shown wf shows isChanged⟩
          · exact ⟨wf, shows, .refl l m⟩
      obtain ⟨kept, changed, confined⟩ := step
      obtain ⟨last, further⟩ := ih kept changed (updateKind l outputPath (m, isChanged) kind).2
      exact ⟨last, confined.trans further⟩

/-- `updateLogger` on a registered name. -/
theorem updateLogger_shown (wf : WellFormed m) (registered : m.loggers[name]? = some l)
    (shows : m.shown l = some (name, v)) (level : LogLevel) (pattern : String)
    (kinds : List String) :
    (m.updateLogger name level pattern kinds outputPath).1.shown l =
        some (name, v.update level pattern kinds outputPath) ∧
      Confined l m (m.updateLogger name level pattern kinds outputPath).1 := by
  rw [updateLogger_eq wf registered]
  obtain ⟨leveled, first⟩ := updateLevel_shown shows level false
  obtain ⟨styled, second⟩ :=
    updatePattern_shown leveled pattern (m.updateLevel l level false).2
  have kept := (wf.updateLevel l level false).updatePattern l pattern
    (m.updateLevel l level false).2
  obtain ⟨last, third⟩ := updateKinds_shown kinds kept styled _
  exact ⟨last, (first.trans second).trans third⟩

/-- The loop of the constructor of `Logger`. -/
theorem addKinds_shown (outputPath : String) (kinds : List String) (wf : WellFormed m)
    (shows : m.shown l = some (name, v)) :
    (kinds.foldl (fun n kind => addSome l n (ofKind outputPath kind)) m).shown l =
        some (name, (kinds.filterMap (ofKind outputPath)).foldl (fun v x => v.add x) v) ∧
      Confined l m (kinds.foldl (fun n kind => addSome l n (ofKind outputPath kind)) m) := by
  induction kinds generalizing m v with
  | nil => exact ⟨shows, .refl l m⟩
  | cons kind rest ih =>
      rw [List.foldl_cons]
      cases made : ofKind outputPath kind with
      | none =>
          rw [List.filterMap_cons_none made]
          exact ih wf shows
      | some object =>
          obtain ⟨x, found, _⟩ := shown_cases shows
          obtain ⟨last, further⟩ := ih (wf.addNew l object) (addNew_shown wf shows object)
          rw [List.filterMap_cons_some made]
          exact ⟨last, (Confined.addNew found object).trans further⟩

theorem inheritSettings_shown (shows : m.shown l = some (name, v)) (level : LogLevel)
    (pattern : String) :
    (m.inheritSettings l level pattern).shown l =
        some (name, { v with appenders := v.appenders.map (LoggerView.inherit level pattern) }) ∧
      Confined l m (m.inheritSettings l level pattern) := by
  obtain ⟨x, found, rfl, rfl⟩ := shown_cases shows
  have again : ∀ y, LoggerView.inherit level pattern (LoggerView.inherit level pattern y) =
      LoggerView.inherit level pattern y := fun _ => rfl
  have kept := inheritSettings_logger (m := m) l level pattern
  have changed : ∀ a, (m.inheritSettings l level pattern).appender a =
      if a ∈ x.appenders then (m.appender a).map (LoggerView.inherit level pattern)
      else m.appender a := by
    intro a
    rw [inheritSettings, appendersOf_found found]
    exact modifyAll_appender again x.appenders m a
  refine ⟨?_, .modifyAppenders kept fun a outside => ?_⟩
  · rw [shown_found ((kept l).trans found), resolve, resolve, List.map_filterMap]
    refine congrArg (fun appenders => some (x.name, LoggerView.mk x.level _ appenders)) ?_
    apply List.filterMap_congr
    intro a member
    rw [changed, if_pos member]
  · rw [appendersOf_found found] at outside
    rw [changed, if_neg outside]

end Steps

/-- The call gives the logger `l` the value and leaves what the others show. -/
structure Assigns (l : Nat) (value : String × LoggerView) (m n : LoggerManager) : Prop where
  written : n.shown l = some value
  others : ∀ k u, k ≠ l → m.shown k = some u → n.shown k = some u

section Calls

variable {m : LoggerManager} {l : Nat} {name : String}

theorem Confined.assigns {n : LoggerManager} {value : String × LoggerView}
    (confined : Confined l m n) (con : Consistent m) (wf : WellFormed m)
    (written : n.shown l = some value) : Assigns l value m n :=
  ⟨written, fun _ _ apart shows => (confined.shown con wf apart).trans shows⟩

theorem Touches.assigns {n : LoggerManager} {value : String × LoggerView}
    (touches : Touches l m n) (wf : WellFormed m) (written : n.shown l = some value) :
    Assigns l value m n := by
  refine ⟨written, fun k u apart shows => ?_⟩
  obtain ⟨x, found, rfl⟩ := Option.map_eq_some_iff.mp shows
  have same : n.resolve x.appenders = m.resolve x.appenders :=
    touches.resolve fun a member => by
      obtain ⟨y, present, _⟩ := wf.attached k x found a member
      exact ⟨y, present⟩
  rw [shown_found ((touches.logger k apart).trans found), same]

/-- A new object and then the calls on it. -/
theorem Assigns.newLogger {n : LoggerManager} {object : Logger} {value : String × LoggerView}
    (assigns : Assigns m.loggerStore.next value (m.newLogger object) n) :
    Assigns m.loggerStore.next value m n :=
  ⟨assigns.written, fun k u apart shows =>
    assigns.others k u apart (newLogger_others object shows)⟩

theorem next_not_shown (m : LoggerManager) : m.shown m.loggerStore.next = none := by
  by_contra present
  obtain ⟨u, shows⟩ := Option.ne_none_iff_exists'.mp present
  obtain ⟨x, found, _⟩ := Option.map_eq_some_iff.mp shows
  exact logger_ne_next _ found rfl

/-- `getLogger` on a new name. -/
theorem getLogger_assigns (missing : m.loggers[name]? = none) :
    (m.getLogger name).2 = m.loggerStore.next ∧
      Assigns m.loggerStore.next (name, .bare) m (m.getLogger name).1 := by
  have made := newLogger_shown (m := m)
    { Logger.new name .debug defaultPattern with root := some m.root } rfl
  unfold getLogger
  rw [missing]
  exact ⟨rfl, made, fun k u _ shows => newLogger_others _ shows⟩

theorem addAll (xs : List LogAppender) (v : LoggerView) :
    xs.foldl (fun v x => v.add x) v =
      { v with appenders := v.appenders ++ xs.map (LoggerView.formatted v.formatter) } := by
  induction xs generalizing v with
  | nil => rw [List.foldl_nil, List.map_nil, List.append_nil]
  | cons x rest ih =>
      rw [List.foldl_cons, ih]
      simp only [LoggerView.add, List.map_cons, List.append_assoc, List.singleton_append]

/-- `createLogger` on a new name. -/
theorem createLogger_assigns (con : Consistent m) (wf : WellFormed m)
    (missing : m.loggers[name]? = none) (level : LogLevel) (pattern : String)
    (kinds : List String) (outputPath : String) :
    (m.createLogger name level pattern kinds outputPath).2 = m.loggerStore.next ∧
      Assigns m.loggerStore.next (name, .created level pattern kinds outputPath) m
        (m.createLogger name level pattern kinds outputPath).1 := by
  have fresh := con.newLogger (.new name level pattern) rfl
  have made := wf.newLogger (.new name level pattern) rfl
  obtain ⟨added, first⟩ := addKinds_shown outputPath kinds made
    (newLogger_shown (.new name level pattern) rfl)
  obtain ⟨inherited, second⟩ := inheritSettings_shown added level pattern
  rw [addAll] at inherited
  simp only [List.nil_append, List.map_map] at inherited
  have assigns := (first.trans second).assigns fresh made inherited
  unfold createLogger
  rw [missing]
  exact ⟨rfl, assigns.newLogger.written, assigns.newLogger.others⟩

/-- `configureLogger`, for a new name and for a known one. -/
theorem configureLogger_assigns (wf : WellFormed m) (ld : LogDefine) :
    Assigns ((m.loggers[ld.name]?).getD m.loggerStore.next) (ld.name, ld.reconciled) m
      (m.configureLogger ld) := by
  have asked : ld.appender.filterMap (ofDefine ld (.new ld.formatter)) =
      ld.appender.filterMap ld.wants :=
    List.filterMap_congr fun define _ => ofDefine_wants ld define
  have named : ∀ {n : LoggerManager} {k : Nat} {x : Logger}, n.logger k = some x →
      x.name = ld.name → x.level = ld.level → x.formatter = .new ld.formatter →
      (n.updateAppender k ld).shown k = some (ld.name, ld.reconciled) := by
    intro n k x found name level formatter
    obtain ⟨_, added, logger, resolved⟩ := addDefines ld ld.appender
      (show (n.modifyLogger k fun y => { y with appenders := [] }).logger k =
        some { x with appenders := [] } by
          rw [modifyLogger_logger, if_pos rfl, found, Option.map_some])
      (fun a member => by cases member)
    rw [updateAppender, shown_found logger, resolved]
    simp only [resolve, List.filterMap_nil, List.nil_append]
    rw [name, level, formatter, asked]
    rfl
  cases registered : m.loggers[ld.name]? with
  | some l =>
      obtain ⟨x, found, name⟩ := wf.keyed ld.name l registered
      have set : (m.modifyLogger l fun y =>
          { y with level := ld.level, formatter := .new ld.formatter }).logger l =
          some { x with level := ld.level, formatter := .new ld.formatter } := by
        rw [modifyLogger_logger, if_pos rfl, found, Option.map_some]
      rw [configureLogger_existing registered, Option.getD_some]
      exact ((modifyLogger_touches _).trans (updateAppender_spec ld set).1).assigns wf
        (named set name rfl rfl)
  | none =>
      have made := registerNew_logger (m := m) ld
      have assigns := (updateAppender_spec ld made).1.assigns (wf.registerNew ld)
        (named made rfl rfl rfl)
      rw [configureLogger_new registered, Option.getD_none]
      exact ⟨assigns.written, fun k u apart shows =>
        assigns.others k u apart (newLogger_others _ shows)⟩

/-- Erasing names touches no object. -/
theorem removeAll_shown (newValue : LogDefineSet) (keys : List String) (l : Nat) :
    (keys.foldl (removeMissing newValue) m).shown l = m.shown l := by
  apply List.foldlRecOn (motive := fun n : LoggerManager => n.shown l = m.shown l)
  · rfl
  · intro n same key _
    rw [← same, removeMissing]
    split <;> rfl

end Calls

end LoggerManager

end ZnetServer
