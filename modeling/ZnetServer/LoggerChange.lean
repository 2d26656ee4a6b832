import ZnetServer.LoggerExport
import ZnetServer.LoggerLevels

set_option autoImplicit false

/- What `updateLogger` reports: whether the registry differs from what was asked for, and so
whether its export changes. -/
namespace ZnetServer.LoggerManager

open Transition Yaml

/-- For each kind that is listed there are appenders with the right path. -/
def AllProvided (outputPath : String) (kinds : List String) (settings : List Setting) : Prop :=
  ∀ kind ∈ kinds, ∀ fresh, ofKind outputPath kind = some fresh → Provided fresh settings

/-- The logger `l` is as the arguments of `updateLogger` ask. -/
def UpToDate (m : LoggerManager) (l : Nat) (level : LogLevel) (pattern : String)
    (kinds : List String) (outputPath : String) : Prop :=
  ∃ x, m.logger l = some x ∧ x.level = level ∧ x.formatter.pattern = pattern ∧
    AllProvided outputPath kinds (m.settingsOf l)

section Paths

variable {outputPath : String}

/-- A file appender with another path. -/
def Misdirected (outputPath : String) (m : LoggerManager) (a : Nat) : Prop :=
  ∃ x path, m.appender a = some x ∧ x.sink = .file path ∧ path ≠ outputPath

theorem updatePath_settled {s : LoggerManager × Bool × Bool} {a : Nat}
    (settled : ¬ Misdirected outputPath s.1 a) :
    (updatePath outputPath s a).1 = s.1 ∧ (updatePath outputPath s a).2.1 = s.2.1 := by
  rcases updatePath_cases outputPath s a with
    ⟨same, _⟩ | ⟨x, path, found, file, ⟨_, turn⟩ | ⟨other, _⟩⟩
  · rw [same]
    exact ⟨rfl, rfl⟩
  · rw [turn]
    exact ⟨rfl, rfl⟩
  · exact absurd ⟨x, path, found, file, other⟩ settled

theorem updatePath_misdirected {s : LoggerManager × Bool × Bool} {a : Nat}
    (misdirected : Misdirected outputPath s.1 a) : (updatePath outputPath s a).2.1 = true := by
  obtain ⟨x, path, found, file, other⟩ := misdirected
  rcases updatePath_cases outputPath s a with
    ⟨_, stdout⟩ | ⟨y, own, present, sink, ⟨equal, _⟩ | ⟨_, turn⟩⟩
  · have none_file := stdout x found
    rw [file] at none_file
    cases none_file
  · obtain rfl := Option.some.inj (found.symm.trans present)
    rw [file] at sink
    exact absurd ((Sink.file.inj sink).trans equal) other
  · rw [turn]

theorem updatePaths_settled (list : List Nat) {s : LoggerManager × Bool × Bool}
    (settled : ∀ a ∈ list, ¬ Misdirected outputPath s.1 a) :
    (list.foldl (updatePath outputPath) s).1 = s.1 ∧
      (list.foldl (updatePath outputPath) s).2.1 = s.2.1 := by
  apply List.foldlRecOn (motive := fun t : LoggerManager × Bool × Bool =>
    t.1 = s.1 ∧ t.2.1 = s.2.1)
  · exact ⟨rfl, rfl⟩
  · intro t same a member
    have still : ¬ Misdirected outputPath t.1 a := by
      rw [same.1]
      exact settled a member
    obtain ⟨kept, flag⟩ := updatePath_settled still
    exact ⟨kept.trans same.1, flag.trans same.2⟩

theorem updatePaths_flagged (list : List Nat) {s : LoggerManager × Bool × Bool}
    (flagged : s.2.1 = true) : (list.foldl (updatePath outputPath) s).2.1 = true := by
  apply List.foldlRecOn (motive := fun t : LoggerManager × Bool × Bool => t.2.1 = true)
  · exact flagged
  · intro t kept a _
    by_cases misdirected : Misdirected outputPath t.1 a
    · exact updatePath_misdirected misdirected
    · exact (updatePath_settled misdirected).2.trans kept

/-- The first misdirected appender raises the flag. -/
theorem updatePaths_misdirected (list : List Nat) {s : LoggerManager × Bool × Bool}
    (some_misdirected : ∃ a ∈ list, Misdirected outputPath s.1 a) :
    (list.foldl (updatePath outputPath) s).2.1 = true := by
  induction list generalizing s with
  | nil =>
      obtain ⟨a, member, _⟩ := some_misdirected
      cases member
  | cons first rest ih =>
      by_cases here : Misdirected outputPath s.1 first
      · exact updatePaths_flagged rest (updatePath_misdirected here)
      · apply ih
        obtain ⟨a, member, misdirected⟩ := some_misdirected
        rw [(updatePath_settled here).1]
        rcases List.mem_cons.mp member with rfl | later
        · exact absurd misdirected here
        · exact ⟨a, later, misdirected⟩

end Paths

section Kinds

variable {m : LoggerManager} {l : Nat} {x : Logger} {outputPath kind : String}

theorem provided_stdout_iff (settings : List Setting) :
    Provided (.new .stdout) settings ↔ ∃ s ∈ settings, s.1.type = "stdout" := by
  constructor
  · intro provided
    exact provided.1
  · intro present
    refine ⟨present, fun s _ typed => ?_⟩
    cases sink : s.1 with
    | stdout => rfl
    | file path =>
        rw [sink] at typed
        exact absurd typed (by simp [Sink.type, LogAppender.new])

theorem hasStdout_settings (found : m.logger l = some x) :
    ((m.appendersOf l).any fun a => (m.appender a).any (·.sink.isStdout)) = true ↔
      ∃ s ∈ m.settingsOf l, s.1.type = "stdout" := by
  have asked : (fun a => (m.appender a).any (·.sink.isStdout)) =
      fun a => (m.appender a).any fun y => decide (y.sink.type = "stdout") := by
    funext a
    apply congrArg (Option.any · (m.appender a))
    funext y
    cases y.sink <;> rfl
  rw [asked, appendersOf, found]
  simp only [any_settings found, List.any_eq_true, decide_eq_true_eq]

theorem updateStdout_provided (found : m.logger l = some x) (isChanged : Bool)
    (provided : Provided (.new .stdout) (m.settingsOf l)) :
    m.updateStdout l isChanged = (m, isChanged) := by
  rw [updateStdout, if_pos]
  rw [hasStdout_settings found, ← provided_stdout_iff]
  exact provided

theorem updateStdout_missing (found : m.logger l = some x) (isChanged : Bool)
    (missing : ¬ Provided (.new .stdout) (m.settingsOf l)) :
    (m.updateStdout l isChanged).2 = true := by
  rw [updateStdout, if_neg]
  rw [hasStdout_settings found, ← provided_stdout_iff]
  exact missing

/-- The settings tell which appenders are misdirected. -/
theorem misdirected_iff (found : m.logger l = some x) :
    (∃ a ∈ x.appenders, Misdirected outputPath m a) ↔
      ∃ s ∈ m.settingsOf l, s.1.type = "file" ∧ s.1 ≠ .file outputPath := by
  rw [settingsOf_found found]
  constructor
  · intro some_misdirected
    obtain ⟨a, member, y, path, present, file, other⟩ := some_misdirected
    refine ⟨setting y, List.mem_map_of_mem (List.mem_filterMap.mpr ⟨a, member, present⟩), ?_⟩
    rw [setting, file]
    exact ⟨rfl, fun same => other (Sink.file.inj same)⟩
  · intro some_setting
    obtain ⟨s, mapped, typed, other⟩ := some_setting
    obtain ⟨y, resolved, rfl⟩ := List.mem_map.mp mapped
    obtain ⟨a, member, present⟩ := List.mem_filterMap.mp resolved
    rw [setting] at typed other
    cases sink : y.sink with
    | stdout =>
        rw [sink] at typed
        exact absurd typed (by simp [Sink.type])
    | file path =>
        rw [sink] at other
        exact ⟨a, member, y, path, present, sink, fun same => other (congrArg Sink.file same)⟩

theorem hasFile_settings (found : m.logger l = some x) (isChanged : Bool) :
    ((m.appendersOf l).foldl (updatePath outputPath) (m, isChanged, false)).2.2 = true ↔
      ∃ s ∈ m.settingsOf l, s.1.type = "file" := by
  rw [(updatePaths outputPath _ _).2.2, appendersOf, found]
  simp only [any_settings found, Bool.false_or, List.any_eq_true, decide_eq_true_eq]

theorem updateFile_provided (found : m.logger l = some x) (isChanged : Bool)
    (provided : Provided (.new (.file outputPath)) (m.settingsOf l)) :
    m.updateFile l outputPath isChanged = (m, isChanged) := by
  have settled : ∀ a ∈ m.appendersOf l, ¬ Misdirected outputPath m a := by
    intro a member misdirected
    rw [appendersOf, found] at member
    obtain ⟨s, inside, typed, other⟩ := (misdirected_iff found).mp ⟨a, member, misdirected⟩
    exact other (provided.2 s inside typed)
  obtain ⟨kept, flag⟩ := updatePaths_settled (s := (m, isChanged, false)) _ settled
  simp only [updateFile]
  rw [if_pos ((hasFile_settings found isChanged).mpr provided.1), kept, flag]

theorem updateFile_missing (found : m.logger l = some x) (isChanged : Bool)
    (missing : ¬ Provided (.new (.file outputPath)) (m.settingsOf l)) :
    (m.updateFile l outputPath isChanged).2 = true := by
  simp only [updateFile]
  split
  · rename_i hasFile
    have present := (hasFile_settings found isChanged).mp hasFile
    apply updatePaths_misdirected
    rw [appendersOf, found]
    apply (misdirected_iff found).mpr
    by_contra none_other
    refine missing ⟨present, fun s inside typed => ?_⟩
    by_contra other
    exact none_other ⟨s, inside, typed, other⟩
  · rfl

theorem updateFile_flagged (m : LoggerManager) (l : Nat) (outputPath : String) :
    (m.updateFile l outputPath true).2 = true := by
  simp only [updateFile]
  split
  · exact updatePaths_flagged _ rfl
  · rfl

theorem updateKind_provided (found : m.logger l = some x) (isChanged : Bool)
    (provided : ∀ fresh, ofKind outputPath kind = some fresh → Provided fresh (m.settingsOf l)) :
    updateKind l outputPath (m, isChanged) kind = (m, isChanged) := by
  unfold ofKind at provided
  unfold updateKind
  split
  · rename_i stdout
    exact updateStdout_provided found isChanged (provided _ (if_pos stdout))
  · rename_i other
    rw [if_neg other] at provided
    split
    · rename_i file
      exact updateFile_provided found isChanged (provided _ (if_pos file))
    · rfl

theorem updateKind_missing (found : m.logger l = some x) (isChanged : Bool)
    {fresh : LogAppender} (asked : ofKind outputPath kind = some fresh)
    (missing : ¬ Provided fresh (m.settingsOf l)) :
    (updateKind l outputPath (m, isChanged) kind).2 = true := by
  unfold ofKind at asked
  unfold updateKind
  split
  · rename_i stdout
    rw [if_pos stdout] at asked
    obtain rfl := Option.some.inj asked
    exact updateStdout_missing found isChanged missing
  · rename_i other
    rw [if_neg other] at asked
    split
    · rename_i file
      rw [if_pos file] at asked
      obtain rfl := Option.some.inj asked
      exact updateFile_missing found isChanged missing
    · rename_i neither
      rw [if_neg neither] at asked
      cases asked

theorem updateKinds_flagged (kinds : List String) {s : LoggerManager × Bool}
    (flagged : s.2 = true) : (kinds.foldl (updateKind l outputPath) s).2 = true := by
  apply List.foldlRecOn (motive := fun t : LoggerManager × Bool => t.2 = true)
  · exact flagged
  · intro t kept kind _
    unfold updateKind
    rw [kept]
    split
    · unfold updateStdout
      split <;> rfl
    · split
      · exact updateFile_flagged t.1 l outputPath
      · exact kept

theorem updateKinds_provided (found : m.logger l = some x) (isChanged : Bool)
    (kinds : List String) (provided : AllProvided outputPath kinds (m.settingsOf l)) :
    kinds.foldl (updateKind l outputPath) (m, isChanged) = (m, isChanged) := by
  apply List.foldlRecOn (motive := fun t : LoggerManager × Bool => t = (m, isChanged))
  · rfl
  · intro t same kind member
    rw [same]
    exact updateKind_provided found isChanged (provided kind member)

/-- The first kind that is not provided raises the flag. -/
theorem updateKinds_missing (found : m.logger l = some x) (isChanged : Bool)
    (kinds : List String) (missing : ¬ AllProvided outputPath kinds (m.settingsOf l)) :
    (kinds.foldl (updateKind l outputPath) (m, isChanged)).2 = true := by
  induction kinds with
  | nil => exact absurd (fun kind member => by cases member) missing
  | cons kind rest ih =>
      by_cases here : ∀ fresh, ofKind outputPath kind = some fresh →
          Provided fresh (m.settingsOf l)
      · rw [List.foldl_cons, updateKind_provided found isChanged here]
        apply ih
        intro provided
        apply missing
        intro other member
        rcases List.mem_cons.mp member with rfl | later
        · exact here
        · exact provided other later
      · push Not at here
        obtain ⟨fresh, asked, absent⟩ := here
        exact updateKinds_flagged rest (updateKind_missing found isChanged asked absent)

theorem updateKinds_formatter (found : m.logger l = some x) (isChanged : Bool)
    (kinds : List String) : ∃ y, (kinds.foldl (updateKind l outputPath) (m, isChanged)).1.logger l =
      some y ∧ y.formatter = x.formatter := by
  apply updateKinds_keep (P := fun n => ∃ y, n.logger l = some y ∧ y.formatter = x.formatter)
  · intro n flag inv
    obtain ⟨y, present, same⟩ := inv
    unfold updateStdout
    split
    · exact ⟨y, present, same⟩
    · have grown := addNew_logger l (.new .stdout) present l
      rw [if_pos rfl] at grown
      exact ⟨_, grown, same⟩
  · intro n flag inv
    obtain ⟨y, present, same⟩ := inv
    have own := ((updatePaths outputPath (n.appendersOf l) (n, flag, false)).2.1 l).trans present
    simp only [updateFile]
    split
    · exact ⟨y, own, same⟩
    · have grown := addNew_logger l (.new (.file outputPath)) own l
      rw [if_pos rfl] at grown
      exact ⟨_, grown, same⟩
  · exact ⟨x, found, rfl⟩

end Kinds

theorem provideKinds_all (outputPath : String) (kinds : List String) (settings : List Setting) :
    AllProvided outputPath kinds (kinds.foldl (provideKind outputPath) settings) :=
  fun _ listed _ asked => provideKinds_provided kinds settings asked (Or.inl listed)

section Report

variable {m : LoggerManager} {l : Nat} {name : String}

theorem updateLogger_upToDate (wf : WellFormed m) (registered : m.loggers[name]? = some l)
    {level : LogLevel} {pattern : String} {kinds : List String} {outputPath : String}
    (current : UpToDate m l level pattern kinds outputPath) :
    m.updateLogger name level pattern kinds outputPath = (m, false) := by
  obtain ⟨x, found, rfl, rfl, provided⟩ := current
  have leveled : m.updateLevel l x.level false = (m, false) := by
    simp only [updateLevel, found, ne_eq, not_true_eq_false, if_false]
  have patterned : m.updatePattern l x.formatter.pattern false = (m, false) := by
    simp only [updatePattern, found, ne_eq, not_true_eq_false, if_false]
  rw [updateLogger_eq wf registered, leveled, patterned]
  exact updateKinds_provided found false kinds provided

theorem updateLogger_outdated (wf : WellFormed m) (registered : m.loggers[name]? = some l)
    {level : LogLevel} {pattern : String} {kinds : List String} {outputPath : String}
    (outdated : ¬ UpToDate m l level pattern kinds outputPath) :
    (m.updateLogger name level pattern kinds outputPath).2 = true := by
  obtain ⟨x, found, _⟩ := wf.keyed name l registered
  rw [updateLogger_eq wf registered]
  by_cases leveled : level = x.level
  · have same : m.updateLevel l level false = (m, false) := by
      simp only [updateLevel, found, leveled, ne_eq, not_true_eq_false, if_false]
    rw [same]
    by_cases patterned : pattern = x.formatter.pattern
    · have still : m.updatePattern l pattern false = (m, false) := by
        simp only [updatePattern, found, patterned, ne_eq, not_true_eq_false, if_false]
      rw [still]
      apply updateKinds_missing found
      intro provided
      exact outdated ⟨x, found, leveled.symm, patterned.symm, provided⟩
    · apply updateKinds_flagged
      simp only [updatePattern, found, ne_eq, patterned, not_false_eq_true, if_true]
  · have flagged : (m.updateLevel l level false).2 = true := by
      simp only [updateLevel, found, ne_eq, leveled, not_false_eq_true, if_true]
    have kept := (updateLevel_spec found level false).1
    rw [flagged]
    apply updateKinds_flagged
    simp only [updatePattern, kept]
    split <;> rfl

/-- After the call the logger is as the arguments ask. -/
theorem updateLogger_makes (wf : WellFormed m) (registered : m.loggers[name]? = some l)
    (level : LogLevel) (pattern : String) (kinds : List String) (outputPath : String) :
    UpToDate (m.updateLogger name level pattern kinds outputPath).1 l level pattern kinds
      outputPath := by
  obtain ⟨x, found, _⟩ := wf.keyed name l registered
  obtain ⟨⟨y, last, set⟩, settings⟩ :=
    updateLogger_settings outputPath wf registered level pattern kinds
  refine ⟨y, last, set, ?_, ?_⟩
  · rw [updateLogger_eq wf registered] at last
    have leveled := (updateLevel_spec found level false).1
    have patterned : ∃ z, ((m.updateLevel l level false).1.updatePattern l pattern
        (m.updateLevel l level false).2).1.logger l = some z ∧ z.formatter.pattern = pattern := by
      simp only [updatePattern, leveled]
      split
      · refine ⟨{ x with level, formatter := .new pattern }, ?_, rfl⟩
        rw [modifyAll_logger, modifyLogger_logger, if_pos rfl, leveled, Option.map_some]
      · rename_i same
        exact ⟨_, leveled, (not_not.mp same).symm⟩
    obtain ⟨z, middle, own⟩ := patterned
    obtain ⟨w, final, kept⟩ := updateKinds_formatter middle
      ((m.updateLevel l level false).1.updatePattern l pattern
        (m.updateLevel l level false).2).2 kinds
    obtain rfl := Option.some.inj (final.symm.trans last)
    rw [kept, own]
  · rw [settings]
    exact provideKinds_all outputPath kinds _

end Report

section Export

variable {m n : LoggerManager} {yaml : YamlCpp}

/-- Registries with the same export define the same loggers. -/
theorem toYamlString_views (faithful : yaml.Faithful) (left : m.defines ≠ [])
    (right : n.defines ≠ []) (same : m.toYamlString yaml = n.toYamlString yaml) (name : String) :
    (m.view name).map (·.define name) = (n.view name).map (·.define name) := by
  rw [toYamlString_document faithful left, toYamlString_document faithful right] at same
  have documents : m.document = n.document := by
    have loads := faithful.load_dump _ (document_built left)
    rw [Except.ok.inj same, faithful.load_dump _ (document_built right)] at loads
    exact (Except.ok.inj loads).symm
  have items : Node.ofItems (m.defines.map LogDefine.node) =
      .ofItems (n.defines.map LogDefine.node) := by
    have loggers : ∀ o : LoggerManager, Node.get "loggers" (some o.document) =
        .ok (some (.ofItems (o.defines.map LogDefine.node))) := fun _ => rfl
    have read := loggers m
    rw [documents, loggers n] at read
    exact (Option.some.inj (Except.ok.inj read)).symm
  have decoded := LogDefineSet.ofText_nodes faithful m.defines_plain
    (faithful.load_dump _ (LogDefineSet.nodes_built left))
  rw [items, LogDefineSet.ofText_nodes faithful n.defines_plain
    (faithful.load_dump _ (LogDefineSet.nodes_built right))] at decoded
  rw [← find_defines, ← find_defines, Except.ok.inj decoded]

/-- What an appender's definition tells about where it writes. -/
def shownSetting (i : LogAppenderDefine) : Setting :=
  (if i.type = "file" then .file i.path else .stdout, i.level)

theorem define_setting (x : LogAppender) :
    shownSetting x.define = setting x := by
  cases sink : x.sink with
  | stdout => simp [shownSetting, LogAppender.define, sink, setting, Sink.type]
  | file path => simp [shownSetting, LogAppender.define, sink, setting, Sink.type]

/-- A logger with the same definition is as the arguments ask if the other one is. -/
theorem upToDate_of_define (wf : WellFormed m) {l : Nat} {name : String}
    (registered : m.loggers[name]? = some l) (still : n.loggers[name]? = some l)
    {level : LogLevel} {pattern : String} {kinds : List String} {outputPath : String}
    (current : UpToDate n l level pattern kinds outputPath)
    (same : (n.view name).map (·.define name) = (m.view name).map (·.define name)) :
    UpToDate m l level pattern kinds outputPath := by
  obtain ⟨x, found, _⟩ := wf.keyed name l registered
  obtain ⟨y, last, rfl, rfl, provided⟩ := current
  rw [view, view, registered, still, Option.bind_some, Option.bind_some, viewOf, viewOf, found,
    last, Option.map_some, Option.map_some, Option.map_some, Option.map_some] at same
  obtain ⟨_, level, formatter, appenders⟩ := LogDefine.mk.inj (Option.some.inj same)
  have settings : n.settingsOf l = m.settingsOf l := by
    have mapped := congrArg (List.map shownSetting) appenders
    simp only [List.map_map, Function.comp_def, define_setting] at mapped
    rw [settingsOf_found found, settingsOf_found last]
    exact mapped
  rw [settings] at provided
  exact ⟨x, found, level.symm, formatter.symm, provided⟩

/-- `updateLogger` reports a change just if the export changes, leaves the registry alone if it
reports none, and reports none when it is called again. -/
theorem updateLogger_reports (reachable : Reachable next init m) (faithful : yaml.Faithful)
    (name : String) (level : LogLevel) (pattern : String) (kinds : List String)
    (outputPath : String) :
    ((m.updateLogger name level pattern kinds outputPath).2 = true ↔
      (m.updateLogger name level pattern kinds outputPath).1.toYamlString yaml ≠
        m.toYamlString yaml) ∧
    ((m.updateLogger name level pattern kinds outputPath).2 = false →
      (m.updateLogger name level pattern kinds outputPath).1 = m) ∧
    ((m.updateLogger name level pattern kinds outputPath).1.updateLogger name level pattern kinds
      outputPath).2 = false := by
  have wf := reachable_wellFormed reachable
  cases registered : m.loggers[name]? with
  | none =>
      have unknown : m.updateLogger name level pattern kinds outputPath = (m, false) := by
        simp only [updateLogger, registered, Option.bind_none]
      rw [unknown, unknown]
      simp
  | some l =>
      have kept := wf.updateLogger name level pattern kinds outputPath
      have loggers := (updateLogger_sameRegistry wf name level pattern kinds outputPath).1
      have still : (m.updateLogger name level pattern kinds outputPath).1.loggers[name]? =
          some l := by rw [loggers, registered]
      have current := updateLogger_makes wf registered level pattern kinds outputPath
      have again := congrArg Prod.snd (updateLogger_upToDate kept still current)
      by_cases before : UpToDate m l level pattern kinds outputPath
      · have quiet := updateLogger_upToDate wf registered before
        rw [quiet] at again ⊢
        simp [again]
      · have flagged := updateLogger_outdated wf registered before
        refine ⟨iff_of_true flagged fun same => before ?_, fun silent => ?_, again⟩
        · have inside : name ∈ m.loggers :=
            Std.ExtTreeMap.mem_iff_isSome_getElem?.mpr (by rw [registered]; rfl)
          have remains : name ∈ (m.updateLogger name level pattern kinds outputPath).1.loggers := by
            rw [loggers]
            exact inside
          apply upToDate_of_define wf registered still current
          exact toYamlString_views faithful (defines_ne_nil kept remains)
            (defines_ne_nil wf inside) same name
        · rw [flagged] at silent
          cases silent

/-- A file is asked for twice and an unknown kind once. -/
theorem updateLogger_reports_root :
    (init.updateLogger "root" .debug defaultPattern ["file", "udp", "file"] "a.log").1.toYamlString
        flowYaml ≠ init.toYamlString flowYaml ∧
    ((init.updateLogger "root" .debug defaultPattern ["file", "udp", "file"] "a.log").1.updateLogger
      "root" .debug defaultPattern ["file", "udp", "file"] "a.log").2 = false := by
  obtain ⟨reports, _, again⟩ := updateLogger_reports (m := init) ⟨[], .nil⟩ flowYaml_faithful
    "root" .debug defaultPattern ["file", "udp", "file"] "a.log"
  exact ⟨reports.mp (by decide +kernel), again⟩

end Export

end ZnetServer.LoggerManager
