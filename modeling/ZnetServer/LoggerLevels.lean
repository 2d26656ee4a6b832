import ZnetServer.LoggerSync

set_option autoImplicit false

/- Which levels the appenders of a logger have after `createLogger`, on its two paths. -/
namespace ZnetServer.LoggerManager

open Transition

/-- Where an appender writes and from which level on. -/
abbrev Setting := Sink × LogLevel

def setting (x : LogAppender) : Setting := (x.sink, x.level)

/-- An appender of the kind that is asked for gets the path. -/
def redirect (fresh : LogAppender) (s : Setting) : Setting :=
  if s.1.type = fresh.sink.type then (fresh.sink, s.2) else s

/-- What `updateLogger` makes of the appenders for one that is asked for: those of its kind get
its path, and without any it is added. -/
def provide (fresh : LogAppender) (settings : List Setting) : List Setting :=
  settings.map (redirect fresh) ++
    if settings.any fun s => s.1.type = fresh.sink.type then [] else [setting fresh]

def provideKind (outputPath : String) (settings : List Setting) (kind : String) : List Setting :=
  match ofKind outputPath kind with
  | none => settings
  | some fresh => provide fresh settings

/-- Some appender of the type accepts the level, or there is none and a new one does. -/
def Ready (level : LogLevel) (type : String) (settings : List Setting) : Prop :=
  (∃ s ∈ settings, s.1.type = type ∧ s.2 ≤ level) ∨
    (∀ s ∈ settings, s.1.type ≠ type) ∧ .debug ≤ level

/-- There are appenders of the kind, all with the right path. -/
def Provided (fresh : LogAppender) (settings : List Setting) : Prop :=
  (∃ s ∈ settings, s.1.type = fresh.sink.type) ∧
    ∀ s ∈ settings, s.1.type = fresh.sink.type → s.1 = fresh.sink

section Settings

variable {outputPath kind : String} {fresh : LogAppender}

theorem ofKind_some (asked : ofKind outputPath kind = some fresh) :
    fresh.sink.type = kind ∧ fresh.level = .debug := by
  unfold ofKind at asked
  split at asked
  · rename_i stdout
    obtain rfl := Option.some.inj asked
    exact ⟨stdout.symm, rfl⟩
  · split at asked
    · rename_i file
      obtain rfl := Option.some.inj asked
      exact ⟨file.symm, rfl⟩
    · cases asked

@[simp] theorem redirect_type (fresh : LogAppender) (s : Setting) :
    (redirect fresh s).1.type = s.1.type := by
  unfold redirect
  split
  · rename_i same
    exact same.symm
  · rfl

@[simp] theorem redirect_level (fresh : LogAppender) (s : Setting) :
    (redirect fresh s).2 = s.2 := by
  unfold redirect
  split <;> rfl

theorem present_or_absent (fresh : LogAppender) (settings : List Setting) :
    (∃ s ∈ settings, s.1.type = fresh.sink.type) ∨ ∀ s ∈ settings, s.1.type ≠ fresh.sink.type := by
  by_cases absent : ∀ s ∈ settings, s.1.type ≠ fresh.sink.type
  · exact Or.inr absent
  · left
    simpa using absent

theorem provide_present {settings : List Setting}
    (present : ∃ s ∈ settings, s.1.type = fresh.sink.type) :
    provide fresh settings = settings.map (redirect fresh) := by
  have found : (settings.any fun s => s.1.type = fresh.sink.type) = true := by
    simpa using present
  rw [provide, if_pos found, List.append_nil]

theorem provide_absent {settings : List Setting}
    (absent : ∀ s ∈ settings, s.1.type ≠ fresh.sink.type) :
    provide fresh settings = settings ++ [setting fresh] := by
  have missing : ¬ (settings.any fun s => s.1.type = fresh.sink.type) = true := by
    simpa using absent
  have same : settings.map (redirect fresh) = settings.map id := by
    apply List.map_congr_left
    intro s member
    exact if_neg (absent s member)
  rw [provide, if_neg missing, same, List.map_id]

/-- Asking for an appender does not change who accepts the level. -/
theorem ready_provide (level : LogLevel) (type : String) (settings : List Setting)
    (debug : fresh.level = .debug) :
    Ready level type (provide fresh settings) ↔ Ready level type settings := by
  rcases present_or_absent fresh settings with present | absent
  · rw [provide_present present]
    simp only [Ready, List.mem_map, exists_exists_and_eq_and, forall_exists_index, and_imp,
      forall_apply_eq_imp_iff₂, redirect_type, redirect_level]
  · rw [provide_absent absent]
    by_cases own : fresh.sink.type = type
    · subst own
      constructor
      · intro ready
        right
        refine ⟨absent, ?_⟩
        rcases ready with ⟨s, member, same, low⟩ | ⟨_, low⟩
        · rcases List.mem_append.mp member with old | last
          · exact absurd same (absent s old)
          · obtain rfl := List.mem_singleton.mp last
            rw [← debug]
            exact low
        · exact low
      · intro ready
        left
        rcases ready with ⟨s, member, same, _⟩ | ⟨_, low⟩
        · exact absurd same (absent s member)
        · exact ⟨setting fresh, by simp, rfl, by rwa [setting, debug]⟩
    · have apart : (setting fresh).1.type ≠ type := own
      simp only [Ready, List.mem_append, List.mem_singleton, or_and_right, exists_or,
        exists_eq_left, apart, false_and, or_false, or_imp, forall_and, forall_eq, ne_eq,
        not_false_eq_true, and_true]

theorem provided_provide (fresh : LogAppender) (settings : List Setting) :
    Provided fresh (provide fresh settings) := by
  rcases present_or_absent fresh settings with present | absent
  · rw [provide_present present]
    obtain ⟨s, member, same⟩ := present
    refine ⟨⟨redirect fresh s, List.mem_map_of_mem member, by rw [redirect_type, same]⟩, ?_⟩
    intro t mapped typed
    obtain ⟨old, _, rfl⟩ := List.mem_map.mp mapped
    rw [redirect_type] at typed
    rw [redirect, if_pos typed]
  · rw [provide_absent absent]
    refine ⟨⟨setting fresh, by simp, rfl⟩, fun t member typed => ?_⟩
    rcases List.mem_append.mp member with old | last
    · exact absurd typed (absent t old)
    · exact List.mem_singleton.mp last ▸ rfl

theorem mem_provide_other {settings : List Setting} {s : Setting}
    (apart : s.1.type ≠ fresh.sink.type) : s ∈ provide fresh settings ↔ s ∈ settings := by
  rcases present_or_absent fresh settings with present | absent
  · rw [provide_present present, List.mem_map]
    constructor
    · intro mapped
      obtain ⟨old, member, rfl⟩ := mapped
      rw [redirect_type] at apart
      rw [redirect, if_neg apart]
      exact member
    · intro member
      exact ⟨s, member, if_neg apart⟩
  · rw [provide_absent absent, List.mem_append, or_iff_left]
    intro last
    exact apart (List.mem_singleton.mp last ▸ rfl)

theorem provided_keep {other : LogAppender} {settings : List Setting} {kept : String}
    (asked : ofKind outputPath kind = some fresh) (wanted : ofKind outputPath kept = some other)
    (provided : Provided fresh settings) : Provided fresh (provide other settings) := by
  by_cases same : kind = kept
  · subst same
    obtain rfl := Option.some.inj (asked.symm.trans wanted)
    exact provided_provide fresh settings
  · have apart : ∀ s : Setting, s.1.type = fresh.sink.type → s.1.type ≠ other.sink.type := by
      intro s own shared
      rw [(ofKind_some asked).1] at own
      rw [(ofKind_some wanted).1] at shared
      exact same (own.symm.trans shared)
    obtain ⟨⟨s, member, own⟩, only⟩ := provided
    refine ⟨⟨s, (mem_provide_other (apart s own)).mpr member, own⟩, fun t inside own => ?_⟩
    exact only t ((mem_provide_other (apart t own)).mp inside) own

theorem provideKinds_provided (kinds : List String) (settings : List Setting)
    (asked : ofKind outputPath kind = some fresh)
    (listed : kind ∈ kinds ∨ Provided fresh settings) :
    Provided fresh (kinds.foldl (provideKind outputPath) settings) := by
  induction kinds generalizing settings with
  | nil => exact listed.resolve_left List.not_mem_nil
  | cons first rest ih =>
      apply ih
      rcases listed with member | provided
      · rcases List.mem_cons.mp member with rfl | later
        · right
          rw [provideKind, asked]
          exact provided_provide fresh settings
        · exact Or.inl later
      · right
        unfold provideKind
        split
        · exact provided
        · rename_i other wanted
          exact provided_keep asked wanted provided

theorem provideKinds_ready (outputPath : String) (level : LogLevel) (type : String)
    (kinds : List String) (settings : List Setting) :
    Ready level type (kinds.foldl (provideKind outputPath) settings) ↔
      Ready level type settings := by
  induction kinds generalizing settings with
  | nil => rfl
  | cons first rest ih =>
      rw [List.foldl_cons, ih]
      unfold provideKind
      split
      · rfl
      · rename_i fresh asked
        exact ready_provide level type settings (ofKind_some asked).2

/-- Once a kind was asked for, some appender of it with the right path accepts the level just if
the appenders were ready for it before. -/
theorem provideKinds_accept (level : LogLevel) {kinds : List String} (settings : List Setting)
    (listed : kind ∈ kinds) (asked : ofKind outputPath kind = some fresh) :
    (∃ s ∈ kinds.foldl (provideKind outputPath) settings, s.1 = fresh.sink ∧ s.2 ≤ level) ↔
      Ready level kind settings := by
  obtain ⟨⟨other, inside, typed⟩, only⟩ :=
    provideKinds_provided kinds settings asked (Or.inl listed)
  have type := (ofKind_some asked).1
  rw [← provideKinds_ready outputPath level kind kinds settings, Ready, ← type]
  constructor
  · intro accepted
    obtain ⟨s, member, sink, low⟩ := accepted
    exact Or.inl ⟨s, member, by rw [sink], low⟩
  · intro ready
    rcases ready with ⟨s, member, own, low⟩ | ⟨absent, _⟩
    · exact ⟨s, member, only s member own, low⟩
    · exact absurd typed (absent other inside)

end Settings

/-- The settings of the appenders of a logger. -/
def settingsOf (m : LoggerManager) (l : Nat) : List Setting :=
  (m.resolve (m.appendersOf l)).map setting

/-- `setFilepath` if the appender is a file appender. -/
def toFile (outputPath : String) (x : LogAppender) : LogAppender :=
  match x.sink with
  | .stdout => x
  | .file _ => { x with sink := .file outputPath }

section Paths

variable {m : LoggerManager} {outputPath : String}

theorem setting_toFile (x : LogAppender) :
    setting (toFile outputPath x) = redirect (.new (.file outputPath)) (setting x) := by
  unfold toFile redirect setting
  cases sink : x.sink with
  | stdout => simp [LogAppender.new, Sink.type, sink]
  | file path => simp [LogAppender.new, Sink.type]

@[simp] theorem toFile_type (x : LogAppender) :
    (toFile outputPath x).sink.type = x.sink.type := by
  unfold toFile
  cases sink : x.sink with
  | stdout => simp only [sink]
  | file path => rfl

theorem toFile_again (x : LogAppender) :
    toFile outputPath (toFile outputPath x) = toFile outputPath x := by
  cases sink : x.sink with
  | stdout => simp only [toFile, sink]
  | file path => simp only [toFile, sink]

/-- Every case of one turn of the loop over the appenders. -/
theorem updatePath_cases (outputPath : String) (s : LoggerManager × Bool × Bool) (a : Nat) :
    (updatePath outputPath s a = s ∧ ∀ x, s.1.appender a = some x → x.sink = .stdout) ∨
    ∃ x path, s.1.appender a = some x ∧ x.sink = .file path ∧
      ((path = outputPath ∧ updatePath outputPath s a = (s.1, s.2.1, true)) ∨
      (path ≠ outputPath ∧ updatePath outputPath s a =
        (s.1.modifyAppender a fun x => { x with sink := .file outputPath }, true, true))) := by
  unfold updatePath
  cases found : s.1.appender a with
  | none => exact Or.inl ⟨rfl, by simp⟩
  | some x =>
      rw [Option.map_some]
      cases sink : x.sink with
      | stdout => exact Or.inl ⟨rfl, fun y same => Option.some.inj same ▸ sink⟩
      | file path =>
          refine Or.inr ⟨x, path, rfl, sink, ?_⟩
          by_cases same : path = outputPath
          · exact Or.inl ⟨same, by simp [same]⟩
          · exact Or.inr ⟨same, by simp [same]⟩

theorem updatePath_appender (s : LoggerManager × Bool × Bool) (a b : Nat) :
    (updatePath outputPath s a).1.appender b =
      if a = b then (s.1.appender b).map (toFile outputPath) else s.1.appender b := by
  rcases updatePath_cases outputPath s a with
    ⟨same, stdout⟩ | ⟨x, path, found, file, ⟨equal, turn⟩ | ⟨_, turn⟩⟩
  · rw [same]
    split
    · rename_i own
      subst own
      cases found : s.1.appender a with
      | none => rfl
      | some x =>
          have kept : toFile outputPath x = x := by simp only [toFile, stdout x found]
          rw [Option.map_some, kept]
    · rfl
  · rw [turn]
    split
    · rename_i own
      subst own
      have kept : toFile outputPath x = x := by
        simp only [toFile, file, ← equal]
        rw [← file]
      rw [found, Option.map_some, kept]
    · rfl
  · rw [turn, modifyAppender_appender]
    split
    · rename_i own
      subst own
      simp only [found, Option.map_some, toFile, file]
    · rfl

theorem updatePath_hasFile (s : LoggerManager × Bool × Bool) (a : Nat) :
    (updatePath outputPath s a).2.2 =
      (s.2.2 || (s.1.appender a).any fun x => x.sink.type = "file") := by
  rcases updatePath_cases outputPath s a with
    ⟨same, stdout⟩ | ⟨x, path, found, file, ⟨_, turn⟩ | ⟨_, turn⟩⟩
  · rw [same]
    cases found : s.1.appender a with
    | none => simp
    | some x => simp [stdout x found, Sink.type]
  · simp [turn, found, file, Sink.type]
  · simp [turn, found, file, Sink.type]

theorem updatePath_logger (s : LoggerManager × Bool × Bool) (a l : Nat) :
    (updatePath outputPath s a).1.logger l = s.1.logger l := by
  rcases updatePath_cases outputPath s a with
    ⟨same, _⟩ | ⟨_, _, _, _, ⟨_, turn⟩ | ⟨_, turn⟩⟩
  · rw [same]
  · rw [turn]
  · rw [turn, modifyAppender_logger]

/-- The loop over the appenders. -/
theorem updatePaths (outputPath : String) (list : List Nat) (s : LoggerManager × Bool × Bool) :
    (∀ b, (list.foldl (updatePath outputPath) s).1.appender b =
      if b ∈ list then (s.1.appender b).map (toFile outputPath) else s.1.appender b) ∧
    (∀ l, (list.foldl (updatePath outputPath) s).1.logger l = s.1.logger l) ∧
    (list.foldl (updatePath outputPath) s).2.2 =
      (s.2.2 || list.any fun a => (s.1.appender a).any fun x => x.sink.type = "file") := by
  induction list generalizing s with
  | nil => exact ⟨fun _ => rfl, fun _ => rfl, (Bool.or_false _).symm⟩
  | cons a rest ih =>
      obtain ⟨appenders, loggers, hasFile⟩ := ih (updatePath outputPath s a)
      refine ⟨fun b => ?_, fun l => ?_, ?_⟩
      · rw [List.foldl_cons, appenders, updatePath_appender]
        by_cases here : a = b
        · subst here
          rw [if_pos rfl, if_pos List.mem_cons_self, Option.map_map]
          have again : toFile outputPath ∘ toFile outputPath = toFile outputPath :=
            funext toFile_again
          rw [again, ite_self]
        · have same : b ∈ a :: rest ↔ b ∈ rest := by
            rw [List.mem_cons, or_iff_right fun equal => here equal.symm]
          simp only [if_neg here, same]
      · rw [List.foldl_cons, loggers, updatePath_logger]
      · have later : ∀ b, ((updatePath outputPath s a).1.appender b).any
            (fun x => x.sink.type = "file") =
              (s.1.appender b).any fun x => x.sink.type = "file" := by
          intro b
          rw [updatePath_appender]
          split
          · simp only [Option.any_map, toFile_type]
          · rfl
        rw [List.foldl_cons, hasFile, updatePath_hasFile, List.any_cons, Bool.or_assoc]
        simp only [later]

end Paths

section Refinement

variable {m : LoggerManager} {l : Nat} {x : Logger} {outputPath : String}

theorem settingsOf_found (found : m.logger l = some x) :
    m.settingsOf l = (m.resolve x.appenders).map setting := by
  rw [settingsOf, appendersOf, found]

/-- The loops of `updateLogger` ask what the settings tell. -/
theorem any_settings (found : m.logger l = some x) (type : String) :
    x.appenders.any (fun a => (m.appender a).any fun y => y.sink.type = type) =
      (m.settingsOf l).any fun s => s.1.type = type := by
  rw [settingsOf_found found, List.any_map, resolve, List.any_filterMap]
  apply congrArg x.appenders.any
  funext a
  cases m.appender a <;> rfl

theorem settingsOf_addNew (found : m.logger l = some x)
    (attached : ∀ a ∈ x.appenders, ∃ y, m.appender a = some y) (object : LogAppender) :
    (m.addNew l object).settingsOf l = m.settingsOf l ++ [setting object] := by
  have grown := addNew_logger l object found l
  rw [if_pos rfl] at grown
  have old : x.appenders.filterMap (m.addNew l object).appender =
      x.appenders.filterMap m.appender := by
    apply List.filterMap_congr
    intro a member
    obtain ⟨y, present⟩ := attached a member
    rw [addNew_appender l object found, if_neg (appender_ne_next a present)]
  have last := addNew_appender l object found m.appenderStore.next
  rw [if_pos rfl] at last
  rw [settingsOf_found grown, settingsOf_found found, resolve, resolve, List.filterMap_append, old,
    List.filterMap_cons_some last, List.filterMap_nil, List.map_append]
  rfl

theorem settingsOf_updateStdout (wf : WellFormed m) (found : m.logger l = some x)
    (isChanged : Bool) : (m.updateStdout l isChanged).1.settingsOf l =
      provide (.new .stdout) (m.settingsOf l) := by
  have type : (LogAppender.new .stdout).sink.type = "stdout" := rfl
  have kept : (m.settingsOf l).map (redirect (.new .stdout)) = (m.settingsOf l).map id := by
    apply List.map_congr_left
    intro s _
    unfold redirect
    obtain ⟨sink, level⟩ := s
    cases sink <;> rfl
  have asked : (m.appendersOf l).any (fun a => (m.appender a).any (·.sink.isStdout)) =
      (m.settingsOf l).any fun s => s.1.type = "stdout" := by
    rw [appendersOf, found, ← any_settings found]
    simp only
    congr
    funext a
    congr
    funext y
    cases y.sink <;> rfl
  rw [provide, kept, List.map_id, type, updateStdout, asked]
  split
  · rw [List.append_nil]
  · apply settingsOf_addNew found
    intro a member
    obtain ⟨y, present, _⟩ := wf.attached l x found a member
    exact ⟨y, present⟩

theorem settingsOf_updateFile (wf : WellFormed m) (found : m.logger l = some x)
    (isChanged : Bool) : (m.updateFile l outputPath isChanged).1.settingsOf l =
      provide (.new (.file outputPath)) (m.settingsOf l) := by
  obtain ⟨appenders, loggers, hasFile⟩ :=
    updatePaths outputPath x.appenders (m, isChanged, false)
  have own := (loggers l).trans found
  have type : (LogAppender.new (.file outputPath)).sink.type = "file" := rfl
  have redirected : x.appenders.filterMap
        (x.appenders.foldl (updatePath outputPath) (m, isChanged, false)).1.appender =
      (x.appenders.filterMap m.appender).map (toFile outputPath) := by
    rw [List.map_filterMap]
    apply List.filterMap_congr
    intro a member
    rw [appenders, if_pos member]
  have settings : (x.appenders.foldl (updatePath outputPath) (m, isChanged, false)).1.settingsOf l =
      (m.settingsOf l).map (redirect (.new (.file outputPath))) := by
    rw [settingsOf_found own, settingsOf_found found, resolve, redirected, List.map_map,
      List.map_map, resolve]
    apply List.map_congr_left
    intro y _
    exact setting_toFile y
  rw [Bool.false_or, any_settings found] at hasFile
  simp only [updateFile, appendersOf, found, provide, type, hasFile]
  split
  · rw [settings, List.append_nil]
  · rw [← settings]
    apply settingsOf_addNew own
    intro a member
    obtain ⟨y, present, _⟩ := wf.attached l x found a member
    exact ⟨toFile outputPath y, by rw [appenders, if_pos member, present, Option.map_some]⟩

theorem updateStdout_level (found : m.logger l = some x) (isChanged : Bool) :
    ∃ y, (m.updateStdout l isChanged).1.logger l = some y ∧ y.level = x.level := by
  unfold updateStdout
  split
  · exact ⟨x, found, rfl⟩
  · have grown := addNew_logger l (.new .stdout) found l
    rw [if_pos rfl] at grown
    exact ⟨_, grown, rfl⟩

theorem updateFile_level (found : m.logger l = some x) (isChanged : Bool) :
    ∃ y, (m.updateFile l outputPath isChanged).1.logger l = some y ∧ y.level = x.level := by
  obtain ⟨_, loggers, _⟩ := updatePaths outputPath (m.appendersOf l) (m, isChanged, false)
  have own := (loggers l).trans found
  unfold updateFile
  simp only
  split
  · exact ⟨x, own, rfl⟩
  · have grown := addNew_logger l (.new (.file outputPath)) own l
    rw [if_pos rfl] at grown
    exact ⟨_, grown, rfl⟩

/-- A turn of the loop of `updateLogger` over the kinds. -/
theorem updateKind_spec (outputPath : String) (wf : WellFormed m) (found : m.logger l = some x)
    (isChanged : Bool) (kind : String) :
    WellFormed (updateKind l outputPath (m, isChanged) kind).1 ∧
    (∃ y, (updateKind l outputPath (m, isChanged) kind).1.logger l = some y ∧
      y.level = x.level) ∧
    (updateKind l outputPath (m, isChanged) kind).1.settingsOf l =
      provideKind outputPath (m.settingsOf l) kind := by
  unfold updateKind provideKind ofKind
  split
  · exact ⟨wf.updateStdout l isChanged, updateStdout_level found isChanged,
      settingsOf_updateStdout wf found isChanged⟩
  · split
    · exact ⟨wf.updateFile l outputPath isChanged, updateFile_level found isChanged,
        settingsOf_updateFile wf found isChanged⟩
    · exact ⟨wf, ⟨x, found, rfl⟩, rfl⟩

theorem updateKinds_spec (outputPath : String) (wf : WellFormed m) (found : m.logger l = some x)
    (isChanged : Bool) (kinds : List String) :
    (∃ y, (kinds.foldl (updateKind l outputPath) (m, isChanged)).1.logger l = some y ∧
      y.level = x.level) ∧
    (kinds.foldl (updateKind l outputPath) (m, isChanged)).1.settingsOf l =
      kinds.foldl (provideKind outputPath) (m.settingsOf l) := by
  induction kinds generalizing m x isChanged with
  | nil => exact ⟨⟨x, found, rfl⟩, rfl⟩
  | cons kind rest ih =>
      obtain ⟨kept, ⟨y, present, level⟩, settings⟩ :=
        updateKind_spec outputPath wf found isChanged kind
      obtain ⟨⟨z, last, same⟩, later⟩ :=
        ih kept present (updateKind l outputPath (m, isChanged) kind).2
      rw [List.foldl_cons, List.foldl_cons, ← settings]
      exact ⟨⟨z, last, same.trans level⟩, later⟩

theorem updateLevel_spec (found : m.logger l = some x) (level : LogLevel) (isChanged : Bool) :
    (m.updateLevel l level isChanged).1.logger l = some { x with level } ∧
    (m.updateLevel l level isChanged).1.settingsOf l = m.settingsOf l := by
  unfold updateLevel
  simp only [found]
  split
  · have set : (m.modifyLogger l fun x => { x with level }).logger l = some { x with level } := by
      rw [modifyLogger_logger, if_pos rfl, found, Option.map_some]
    refine ⟨set, ?_⟩
    rw [settingsOf_found set, settingsOf_found found]
    rfl
  · rename_i same
    obtain rfl := not_not.mp same
    exact ⟨found, rfl⟩

theorem updatePattern_spec (found : m.logger l = some x) (pattern : String) (isChanged : Bool) :
    (∃ y, (m.updatePattern l pattern isChanged).1.logger l = some y ∧ y.level = x.level) ∧
    (m.updatePattern l pattern isChanged).1.settingsOf l = m.settingsOf l := by
  unfold updatePattern
  simp only [found]
  split
  · have again : ∀ y, resetFormatter pattern (resetFormatter pattern y) =
        resetFormatter pattern y := fun _ => rfl
    have set : (m.modifyLogger l fun x => { x with formatter := .new pattern }).logger l =
        some { x with formatter := .new pattern } := by
      rw [modifyLogger_logger, if_pos rfl, found, Option.map_some]
    have kept := modifyAll_logger (resetFormatter pattern) x.appenders
      (m.modifyLogger l fun x => { x with formatter := .new pattern }) l
    refine ⟨⟨_, kept.trans set, rfl⟩, ?_⟩
    rw [settingsOf_found (kept.trans set), settingsOf_found found, resolve, resolve,
      List.map_filterMap, List.map_filterMap]
    apply List.filterMap_congr
    intro a member
    rw [modifyAll_appender again, if_pos member, modifyLogger_appender, Option.map_map]
    rfl
  · exact ⟨⟨x, found, rfl⟩, rfl⟩

/-- `updateLogger` sets the level of the logger and leaves those of its appenders. -/
theorem updateLogger_settings (outputPath : String) (wf : WellFormed m) {name : String}
    (registered : m.loggers[name]? = some l) (level : LogLevel) (pattern : String)
    (kinds : List String) :
    (∃ y, (m.updateLogger name level pattern kinds outputPath).1.logger l = some y ∧
      y.level = level) ∧
    (m.updateLogger name level pattern kinds outputPath).1.settingsOf l =
      kinds.foldl (provideKind outputPath) (m.settingsOf l) := by
  obtain ⟨x, found, _⟩ := wf.keyed name l registered
  rw [updateLogger_eq wf registered]
  obtain ⟨leveled, first⟩ := updateLevel_spec found level false
  obtain ⟨⟨y, patterned, same⟩, second⟩ :=
    updatePattern_spec leveled pattern (m.updateLevel l level false).2
  have kept := (wf.updateLevel l level false).updatePattern l pattern
    (m.updateLevel l level false).2
  obtain ⟨⟨z, last, still⟩, settings⟩ :=
    updateKinds_spec outputPath kept patterned _ kinds
  rw [← first, ← second]
  exact ⟨⟨z, last, still.trans same⟩, settings⟩

/-- The loop of the constructor of `Logger`. -/
theorem addKinds_settings (outputPath : String) (wf : WellFormed m) (found : m.logger l = some x)
    (kinds : List String) :
    (∃ y, (kinds.foldl (fun n kind => addSome l n (ofKind outputPath kind)) m).logger l = some y ∧
      y.level = x.level) ∧
    (kinds.foldl (fun n kind => addSome l n (ofKind outputPath kind)) m).settingsOf l =
      m.settingsOf l ++ (kinds.filterMap (ofKind outputPath)).map setting := by
  induction kinds generalizing m x with
  | nil => exact ⟨⟨x, found, rfl⟩, (List.append_nil _).symm⟩
  | cons kind rest ih =>
      rw [List.foldl_cons]
      cases made : ofKind outputPath kind with
      | none =>
          rw [List.filterMap_cons_none made]
          exact ih wf found
      | some object =>
          have grown := addNew_logger l object found l
          rw [if_pos rfl] at grown
          have attached : ∀ a ∈ x.appenders, ∃ y, m.appender a = some y := by
            intro a member
            obtain ⟨y, present, _⟩ := wf.attached l x found a member
            exact ⟨y, present⟩
          obtain ⟨⟨y, last, level⟩, settings⟩ := ih (wf.addNew l object) grown
          refine ⟨⟨y, last, level⟩, ?_⟩
          rw [List.filterMap_cons_some made, List.map_cons, ← List.singleton_append,
            ← List.append_assoc, ← settingsOf_addNew found attached]
          exact settings

theorem constructLogger_settings (outputPath : String) (wf : WellFormed m) (name : String)
    (level : LogLevel) (pattern : String) (kinds : List String) :
    (∃ y, (m.constructLogger name level pattern kinds outputPath).logger m.loggerStore.next =
      some y ∧ y.level = level) ∧
    (m.constructLogger name level pattern kinds outputPath).settingsOf m.loggerStore.next =
      (kinds.filterMap (ofKind outputPath)).map setting := by
  have made : (m.newLogger (.new name level pattern)).logger m.loggerStore.next =
      some (.new name level pattern) := by
    rw [newLogger_logger, if_pos rfl]
  obtain ⟨found, settings⟩ := addKinds_settings outputPath
    (wf.newLogger (.new name level pattern) rfl) made kinds
  have bare : (m.newLogger (.new name level pattern)).settingsOf m.loggerStore.next = [] := by
    rw [settingsOf_found made]
    rfl
  rw [bare, List.nil_append] at settings
  exact ⟨found, settings⟩

theorem inheritSettings_settings (found : m.logger l = some x) (level : LogLevel)
    (pattern : String) : (m.inheritSettings l level pattern).settingsOf l =
      (m.settingsOf l).map fun s => (s.1, level) := by
  have again : ∀ y : LogAppender, { ({ y with level, formatter := some (.new pattern) } :
      LogAppender) with level, formatter := some (.new pattern) } =
        { y with level, formatter := some (.new pattern) } := fun _ => rfl
  have kept := (inheritSettings_logger (m := m) l level pattern l).trans found
  rw [settingsOf_found kept, settingsOf_found found, resolve, resolve, List.map_map,
    List.map_filterMap, List.map_filterMap]
  apply List.filterMap_congr
  intro a member
  rw [inheritSettings, appendersOf, found, modifyAll_appender again, if_pos member,
    Option.map_map]
  rfl

/-- A new logger and all of its appenders have the level. -/
theorem createLogger_settings (outputPath : String) (wf : WellFormed m) {name : String}
    (missing : m.loggers[name]? = none) (level : LogLevel) (pattern : String)
    (kinds : List String) :
    ∃ n y, m.createLogger name level pattern kinds outputPath = (n, m.loggerStore.next) ∧
      n.logger m.loggerStore.next = some y ∧ y.level = level ∧
      n.settingsOf m.loggerStore.next =
        (kinds.filterMap (ofKind outputPath)).map fun x => (x.sink, level) := by
  obtain ⟨⟨y, made, set⟩, constructed⟩ :=
    constructLogger_settings outputPath wf name level pattern kinds
  have inherited := inheritSettings_settings made level pattern
  rw [constructed, List.map_map] at inherited
  have kept := (inheritSettings_logger (m := m.constructLogger name level pattern kinds outputPath)
    m.loggerStore.next level pattern m.loggerStore.next).trans made
  unfold createLogger
  rw [missing]
  exact ⟨_, y, rfl, kept, set, inherited⟩

end Refinement

/-- Each event of the level or a higher one passes the logger and an appender of each kind that
is listed, for a file with the path. -/
def Honours (made : LoggerManager × Nat) (level : LogLevel) (kinds : List String)
    (outputPath : String) : Prop :=
  ∃ v, made.1.viewOf made.2 = some v ∧
    ∀ kind ∈ kinds, ∀ fresh, ofKind outputPath kind = some fresh →
    ∀ own, level ≤ own → v.level ≤ own ∧ ∃ y ∈ v.appenders, y.sink = fresh.sink ∧ y.level ≤ own

theorem honours_iff {n : LoggerManager} {l : Nat} {y : Logger} {level : LogLevel}
    {kinds : List String} {outputPath : String} (found : n.logger l = some y)
    (set : y.level = level) : Honours (n, l) level kinds outputPath ↔
      ∀ kind ∈ kinds, ∀ fresh, ofKind outputPath kind = some fresh →
        ∃ s ∈ n.settingsOf l, s.1 = fresh.sink ∧ s.2 ≤ level := by
  have shown : n.viewOf l = some ⟨y.level, y.formatter, n.resolve y.appenders⟩ := by
    rw [viewOf, found, Option.map_some]
  rw [settingsOf_found found]
  constructor
  · intro honours kind listed fresh asked
    obtain ⟨v, looks, passes⟩ := honours
    obtain rfl := Option.some.inj (shown.symm.trans looks)
    obtain ⟨_, x, member, sink, low⟩ := passes kind listed fresh asked level (le_refl level)
    exact ⟨setting x, List.mem_map_of_mem member, sink, low⟩
  · intro accepts
    refine ⟨_, shown, fun kind listed fresh asked own above => ⟨set ▸ above, ?_⟩⟩
    obtain ⟨s, mapped, sink, low⟩ := accepts kind listed fresh asked
    obtain ⟨x, member, rfl⟩ := List.mem_map.mp mapped
    exact ⟨x, member, sink, low.trans above⟩

/-- `createLogger` honours its level just if the logger is new or, for each kind that is listed,
some appender of the registered one accepts the level or there is none and a new one does. -/
theorem createLogger_honours_iff {m : LoggerManager} (reachable : Reachable next init m)
    (name : String) (level : LogLevel) (pattern : String) (kinds : List String)
    (outputPath : String) :
    Honours (m.createLogger name level pattern kinds outputPath) level kinds outputPath ↔
      ∀ v, m.view name = some v → ∀ kind ∈ kinds, ∀ fresh, ofKind outputPath kind = some fresh →
        Ready level kind (v.appenders.map setting) := by
  have wf := reachable_wellFormed reachable
  cases registered : m.loggers[name]? with
  | none =>
      have new : m.view name = none := by
        rw [view, registered, Option.bind_none]
      refine iff_of_true ?_ (by simp [new])
      obtain ⟨n, y, created, made, set, settings⟩ :=
        createLogger_settings outputPath wf registered level pattern kinds
      rw [created, honours_iff made set, settings]
      intro kind listed fresh asked
      refine ⟨(fresh.sink, level), ?_, rfl, le_refl level⟩
      exact List.mem_map_of_mem (List.mem_filterMap.mpr ⟨kind, listed, asked⟩)
  | some l =>
      obtain ⟨x, found, _⟩ := wf.keyed name l registered
      have shown : m.view name = some ⟨x.level, x.formatter, m.resolve x.appenders⟩ := by
        rw [view, registered, Option.bind_some, viewOf, found, Option.map_some]
      have updated : m.createLogger name level pattern kinds outputPath =
          ((m.updateLogger name level pattern kinds outputPath).1, l) := by
        simp only [createLogger, registered]
      obtain ⟨⟨y, last, set⟩, settings⟩ :=
        updateLogger_settings outputPath wf registered level pattern kinds
      rw [updated, honours_iff last set, settings, settingsOf_found found]
      constructor
      · intro accepts v looks kind listed fresh asked
        obtain rfl := Option.some.inj (shown.symm.trans looks)
        exact (provideKinds_accept level _ listed asked).mp (accepts kind listed fresh asked)
      · intro ready kind listed fresh asked
        exact (provideKinds_accept level _ listed asked).mpr
          (ready _ shown kind listed fresh asked)

/-- A logger that logs from `debug` on is asked to log from `info` on, also to a file. -/
theorem createLogger_honours_info : Honours ((init.createLogger "net" .debug "%m" ["stdout"]
    "").1.createLogger "net" .info "%m" ["stdout", "file"] "net.log") .info ["stdout", "file"]
      "net.log" := by
  have run : Run next anyStep init [(init, .createLogger "net" .debug "%m" ["stdout"] "")]
      (init.createLogger "net" .debug "%m" ["stdout"] "").1 := Run.nil.snoc trivial rfl
  have shown : ((init.createLogger "net" .debug "%m" ["stdout"] "").1.view "net").map
      (fun v => v.appenders.map setting) = some [(.stdout, .debug)] := by
    decide +kernel
  apply (createLogger_honours_iff run.reachable "net" .info "%m" ["stdout", "file"] "net.log").mpr
  intro v looks kind listed fresh _
  rw [looks, Option.map_some, Option.some.injEq] at shown
  rw [shown]
  rcases List.mem_pair.mp listed with rfl | rfl
  · exact Or.inl ⟨_, List.mem_cons_self, rfl, by decide⟩
  · exact Or.inr ⟨by decide, by decide⟩

/-- A logger that logs errors only is asked to log from `debug` on. -/
theorem createLogger_keeps_level : ¬ Honours ((init.createLogger "net" .error "%m" ["stdout"]
    "").1.createLogger "net" .debug "%m" ["stdout"] "") .debug ["stdout"] "" := by
  intro honours
  obtain ⟨v, looks, passes⟩ := honours
  have shown : ((((init.createLogger "net" .error "%m" ["stdout"] "").1.createLogger "net" .debug
      "%m" ["stdout"] "").1.viewOf ((init.createLogger "net" .error "%m" ["stdout"]
        "").1.createLogger "net" .debug "%m" ["stdout"] "").2).map
          fun v => v.appenders.map setting) = some [(.stdout, .error)] := by
    decide +kernel
  rw [looks, Option.map_some, Option.some.injEq] at shown
  obtain ⟨_, y, member, _, low⟩ :=
    passes "stdout" List.mem_cons_self (.new .stdout) rfl .debug (le_refl _)
  have only := List.mem_map_of_mem (f := setting) member
  rw [shown, List.mem_singleton] at only
  rw [(Prod.mk.inj only).2] at low
  exact absurd low (by decide)

end ZnetServer.LoggerManager
