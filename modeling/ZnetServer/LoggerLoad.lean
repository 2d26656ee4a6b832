import ZnetServer.ConfigLoad
import ZnetServer.LogConfig
import ZnetServer.LoggerExport
import ZnetServer.OrderedSetFirst

set_option autoImplicit false

/- `LoadFromYaml` on a process: the registry of variables, among them `g_loggers_config` with
its listener, and the loggers. -/
namespace ZnetServer.LoggerLoad

open Yaml Config

variable {ι : Type} {types : ι → ConfigType} {yaml : YamlCpp}

/-- The types that are instantiated, that of `g_loggers_config` among them. -/
def loggersAnd (yaml : YamlCpp) (types : ι → ConfigType) : Option ι → ConfigType
  | none => loggersType yaml
  | some i => types i

/-- The variables and the loggers that their listeners act on. -/
abbrev Process (yaml : YamlCpp) (types : ι → ConfigType) :=
  Config (loggersAnd yaml types) LoggerManager × LoggerManager

/-- Log statements write to streams only. -/
def quiet : LogTo LoggerManager := fun _ _ m => m

/-- The listeners of the variable leave the loggers alone. -/
def Neutral (var : ConfigVarBase (loggersAnd yaml types) LoggerManager) : Prop :=
  ∀ cb ∈ var.2.cbs.toList.map Prod.snd, ∀ newValue oldValue m, (cb newValue oldValue m).1 = m

/-- `g_loggers_config` holds the value and has its listener; the other variables are neutral. -/
structure Wired (process : Process yaml types) (value : LogDefineSet) : Prop where
  loggers : process.1.lookupBase "loggers" = some ⟨none, loggersHolding yaml value⟩
  others : ∀ name var, name ≠ "loggers" → process.1.lookupBase name = some var → Neutral var

/-- What a text for `loggers` does to the value and to the loggers. -/
def take (yaml : YamlCpp) (state : LogDefineSet × LoggerManager) (text : String) :
    LogDefineSet × LoggerManager :=
  match LogDefineSet.ofText yaml text with
  | .error _ => state
  | .ok value =>
    if equalLists LogDefine.equals state.1.toList value.toList then state
    else (value, state.2.logInit value)

/-- What the texts of a document do, one after the other. -/
def takeAll (yaml : YamlCpp) (state : LogDefineSet × LoggerManager) (texts : List String) :
    LogDefineSet × LoggerManager :=
  texts.foldl (take yaml) state

theorem notify_neutral {C : ConfigType} {callbacks : List (OnChangeCallback C LoggerManager)}
    (neutral : ∀ cb ∈ callbacks, ∀ newValue oldValue m, (cb newValue oldValue m).1 = m)
    (newValue oldValue : C.T) (m : LoggerManager) :
    (ConfigVar.notify newValue oldValue callbacks m).1 = m := by
  induction callbacks generalizing m with
  | nil => rfl
  | cons cb rest ih =>
      have here := neutral cb List.mem_cons_self newValue oldValue m
      have later := ih (fun other member => neutral other (List.mem_cons_of_mem cb member))
      unfold ConfigVar.notify
      cases result : cb newValue oldValue m with
      | mk after thrown =>
          rw [result] at here
          cases thrown with
          | none =>
              simp only at here ⊢
              rw [later after, here]
          | some what => exact here

/-- A text for a neutral variable reaches no logger and leaves the variable neutral. -/
theorem fromString_neutral {var : ConfigVarBase (loggersAnd yaml types) LoggerManager}
    (neutral : Neutral var) (text : String) (m : LoggerManager) :
    (var.2.fromString quiet text m).2.1 = m ∧
      Neutral ⟨var.1, (var.2.fromString quiet text m).1⟩ := by
  unfold ConfigVar.fromString
  cases (loggersAnd yaml types var.1).fromStr text with
  | error what => exact ⟨rfl, neutral⟩
  | ok value =>
      by_cases same : (loggersAnd yaml types var.1).eq var.2.value value = true
      · simp only [ConfigVar.setValue, if_pos same]
        exact ⟨trivial, neutral⟩
      · simp only [ConfigVar.setValue, if_neg same]
        have unheard := notify_neutral neutral value var.2.value m
        cases result : ConfigVar.notify value var.2.value (var.2.cbs.toList.map Prod.snd) m with
        | mk after thrown =>
            rw [result] at unheard
            cases thrown with
            | none => exact ⟨unheard, neutral⟩
            | some what => exact ⟨unheard, neutral⟩

/-- The listener is called with a value that is different, and throws nothing. -/
theorem setValue_holding (value other : LogDefineSet) (m : LoggerManager) :
    (loggersHolding yaml value).setValue other m =
      if equalLists LogDefine.equals value.toList other.toList = true then
        (loggersHolding yaml value, m, none)
      else (loggersHolding yaml other, m.logInit other, none) := by
  unfold ConfigVar.setValue
  change (if equalLists LogDefine.equals value.toList other.toList = true then _ else _ :
    ConfigVar (loggersType yaml) LoggerManager × LoggerManager × Option String) = _
  split <;> rfl

/-- A text for `g_loggers_config`. -/
theorem fromString_loggers (yaml : YamlCpp) (value : LogDefineSet) (text : String)
    (m : LoggerManager) :
    ((loggersHolding yaml value).fromString quiet text m).1 =
        loggersHolding yaml (take yaml (value, m) text).1 ∧
      ((loggersHolding yaml value).fromString quiet text m).2.1 =
        (take yaml (value, m) text).2 := by
  have decodes : (loggersType yaml).fromStr text = LogDefineSet.ofText yaml text := rfl
  unfold ConfigVar.fromString take
  rw [decodes]
  cases LogDefineSet.ofText yaml text with
  | error what => exact ⟨rfl, rfl⟩
  | ok other =>
      simp only [setValue_holding]
      by_cases equal : equalLists LogDefine.equals value.toList other.toList = true
      · simp only [if_pos equal, and_self]
      · simp only [if_neg equal]
        exact ⟨trivial, trivial⟩

section Loading

variable {process : Process yaml types} {value : LogDefineSet}

/-- The texts of the members listed as `loggers`. -/
def loggersTexts (yaml : YamlCpp) (members : List (String × Node)) : List String :=
  (under "loggers" members).map (memberText yaml ·.2)

/-- One listed member: a text for `loggers` is taken, and the others pass the loggers by. -/
theorem Wired.member (wired : Wired process value) (member : String × Node) :
    Wired (loadMember yaml quiet process member)
        (takeAll yaml (value, process.2) (loggersTexts yaml [member])).1 ∧
      (loadMember yaml quiet process member).2 =
        (takeAll yaml (value, process.2) (loggersTexts yaml [member])).2 := by
  obtain ⟨name, node⟩ := member
  by_cases same : name = "loggers"
  · subst same
    have texts : loggersTexts yaml [("loggers", node)] = [memberText yaml node] := rfl
    unfold loadMember
    split
    · rename_i missing
      cases missing.symm.trans wired.loggers
    · rename_i var found
      obtain rfl := Option.some.inj (found.symm.trans wired.loggers)
      obtain ⟨held, loggers⟩ := fromString_loggers yaml value
        (memberText yaml node) process.2
      rw [texts]
      refine ⟨⟨?_, ?_⟩, loggers⟩
      · rw [lookupBase_put, if_pos rfl]
        exact congrArg (fun var => some (Sigma.mk none var)) held
      · intro other var apart registered
        rw [lookupBase_put, if_neg (Ne.symm apart)] at registered
        exact wired.others other var apart registered
  · have texts : loggersTexts yaml [(name, node)] = [] := by
      rw [loggersTexts, under, List.filter_cons_of_neg (by simpa using same)]
      rfl
    rw [texts]
    unfold loadMember
    split
    · exact ⟨wired, rfl⟩
    · rename_i var found
      obtain ⟨unheard, neutral⟩ := fromString_neutral (wired.others name var same found)
        (memberText yaml node) process.2
      refine ⟨⟨?_, ?_⟩, unheard⟩
      · rw [lookupBase_put, if_neg same]
        exact wired.loggers
      · intro other next apart registered
        rw [lookupBase_put] at registered
        split at registered
        · obtain rfl := Option.some.inj registered
          exact neutral
        · exact wired.others other next apart registered

theorem Wired.members (wired : Wired process value) (members : List (String × Node)) :
    Wired (members.foldl (loadMember yaml quiet) process)
        (takeAll yaml (value, process.2) (loggersTexts yaml members)).1 ∧
      (members.foldl (loadMember yaml quiet) process).2 =
        (takeAll yaml (value, process.2) (loggersTexts yaml members)).2 := by
  induction members generalizing process value with
  | nil => exact ⟨wired, rfl⟩
  | cons member rest ih =>
      obtain ⟨later, same⟩ := wired.member member
      obtain ⟨last, final⟩ := ih later
      have split : loggersTexts yaml (member :: rest) =
          loggersTexts yaml [member] ++ loggersTexts yaml rest := by
        rw [loggersTexts, under, ← List.singleton_append, List.filter_append, List.map_append]
        rfl
      have whole : takeAll yaml (value, process.2) (loggersTexts yaml (member :: rest)) =
          takeAll yaml ((takeAll yaml (value, process.2) (loggersTexts yaml [member])).1,
            (loadMember yaml quiet process member).2) (loggersTexts yaml rest) := by
        rw [same, split, takeAll, List.foldl_append]
        rfl
      rw [List.foldl_cons, whole]
      exact ⟨last, final⟩

mutual

theorem listAllYamlMember_quiet (node : Node) (pre : String)
    (output : List (String × Node) × LoggerManager) :
    (listAllYamlMember quiet node pre output).2 = output.2 := by
  by_cases listed : validName pre = true
  · cases node with
    | map entries =>
        rw [listAllYamlMember, if_pos listed]
        exact listEntries_quiet entries pre _
    | null | scalar | sequence => rw [listAllYamlMember, if_pos listed]
  · rw [listAllYamlMember.eq_def, if_neg listed]
    rfl

theorem listEntries_quiet (entries : List (Node × Node)) (pre : String)
    (output : List (String × Node) × LoggerManager) :
    (listEntries quiet entries pre output).2 = output.2 := by
  match entries with
  | [] => rw [listEntries]
  | (key, value) :: rest =>
      rw [listEntries, listEntries_quiet rest, listAllYamlMember_quiet value]

end

/-- To the loggers a document is the texts it has for `loggers`. -/
theorem Wired.load (wired : Wired process value) (node : Node) :
    Wired (loadFromYaml yaml quiet process.1 node process.2)
        (takeAll yaml (value, process.2) (textsNamed yaml node "loggers")).1 ∧
      (loadFromYaml yaml quiet process.1 node process.2).2 =
        (takeAll yaml (value, process.2) (textsNamed yaml node "loggers")).2 := by
  have texts : loggersTexts yaml (listAllYamlMember quiet node "" ([], process.2)).1 =
      textsNamed yaml node "loggers" := by
    rw [loggersTexts, listAllYamlMember_under quiet (by decide)]
    rfl
  have silent := listAllYamlMember_quiet node "" ([], process.2)
  have start : Wired (process.1, (listAllYamlMember quiet node "" ([], process.2)).2) value :=
    ⟨wired.loggers, wired.others⟩
  obtain ⟨after, loggers⟩ := start.members (listAllYamlMember quiet node "" ([], process.2)).1
  simp only [texts, silent] at after loggers
  unfold loadFromYaml
  simp only [silent]
  exact ⟨after, loggers⟩

end Loading

section Documents

open LoggerManager

variable {m : LoggerManager}

/-- The exported document has one text for `loggers`. -/
theorem document_texts (nonempty : m.defines ≠ []) :
    textsNamed yaml m.document "loggers" =
      [yaml.emit (.ofItems (m.defines.map LogDefine.node))] := by
  obtain ⟨ld, rest, filled⟩ := List.exists_cons_of_ne_nil nonempty
  rw [document, filled]
  rfl

theorem document_decoded (faithful : yaml.Faithful) (nonempty : m.defines ≠ []) :
    LogDefineSet.ofText yaml (yaml.emit (.ofItems (m.defines.map LogDefine.node))) =
      .ok (.ofList m.defines) :=
  LogDefineSet.ofText_nodes faithful m.defines_plain
    (faithful.load_emit _ (LogDefineSet.nodes_built nonempty))

/-- `g_loggers_config` without a definition, and one more variable. -/
def sampleProcess (yaml : YamlCpp) (m : LoggerManager) : Process yaml (fun _ : Unit => textType) :=
  ((Config.empty.put "loggers" ⟨none, loggersHolding yaml OrderedSet.empty⟩
    ⟨rfl, by decide⟩).put "port" ⟨some (), .new "port" "80" ""⟩ ⟨rfl, by decide⟩, m)

theorem sampleProcess_wired (yaml : YamlCpp) (m : LoggerManager) :
    Wired (sampleProcess yaml m) OrderedSet.empty where
  loggers := by simp [sampleProcess]
  others name var apart registered := by
    simp only [sampleProcess, lookupBase_put, if_neg (Ne.symm apart)] at registered
    split at registered
    · obtain rfl := Option.some.inj registered
      intro cb member
      simp [ConfigVar.new] at member
    · cases registered

end Documents

section Mirrors

open LoggerManager

/-- The loggers are those that the definitions of the set ask for. -/
def Mirrors (value : LogDefineSet) (m : LoggerManager) : Prop :=
  ∀ name, m.view name = (value.find name).map LogDefine.reconciled

/-- `LoadFromYaml` on one document after the other. -/
def loadAll (process : Process yaml types) (documents : List Node) : Process yaml types :=
  documents.foldl (fun process node => loadFromYaml yaml quiet process.1 node process.2) process

/-- The sets that texts decode to. -/
def decoded (yaml : YamlCpp) (texts : List String) : List LogDefineSet :=
  texts.filterMap fun text => (LogDefineSet.ofText yaml text).toOption

theorem equals_self (value : LogDefineSet) :
    equalLists LogDefine.equals value.toList value.toList = true := by
  rw [equalLists_iff, List.forall₂_same]
  intro ld _
  rw [equals_iff, List.forall₂_same]
  refine ⟨rfl, rfl, rfl, fun define _ => ?_⟩
  simp [LogAppenderDefine.equals]

/-- One text: the state stays, with a set that is not told from the new one, or the loggers
become those of the new set. -/
theorem take_follows (yaml : YamlCpp) (state : LogDefineSet × LoggerManager)
    (wf : WellFormed state.2) (text : String) :
    (take yaml state text = state ∧ ∀ other ∈ decoded yaml [text],
        equalLists LogDefine.equals state.1.toList other.toList = true) ∨
      (decoded yaml [text] = [(take yaml state text).1] ∧
        WellFormed (take yaml state text).2 ∧
        Mirrors (take yaml state text).1 (take yaml state text).2) := by
  unfold take
  cases decodes : LogDefineSet.ofText yaml text with
  | error what =>
      left
      simp [decoded, decodes, Except.toOption]
  | ok other =>
      have single : decoded yaml [text] = [other] := by
        simp [decoded, decodes, Except.toOption]
      by_cases equal : equalLists LogDefine.equals state.1.toList other.toList = true
      · left
        simp only [if_pos equal, single, List.mem_singleton, forall_eq]
        exact ⟨trivial, equal⟩
      · right
        simp only [if_neg equal, single]
        exact ⟨trivial, wf.logInit other, fun name => logInit_view other name wf⟩

/-- What holds after any number of texts. -/
structure Followed (yaml : YamlCpp) (state after : LogDefineSet × LoggerManager)
    (texts : List String) : Prop where
  wellFormed : WellFormed after.2
  mirrors : after = state ∨ after.1 ∈ decoded yaml texts ∧ Mirrors after.1 after.2
  last : ∀ other ∈ (decoded yaml texts).getLast?,
    equalLists LogDefine.equals after.1.toList other.toList = true

theorem takeAll_followed (yaml : YamlCpp) (state : LogDefineSet × LoggerManager)
    (wf : WellFormed state.2) (texts : List String) :
    Followed yaml state (takeAll yaml state texts) texts := by
  induction texts using List.reverseRecOn with
  | nil => exact ⟨wf, .inl rfl, by simp [decoded]⟩
  | append_singleton front text ih =>
      have step : takeAll yaml state (front ++ [text]) =
          take yaml (takeAll yaml state front) text := by
        rw [takeAll, List.foldl_append]
        rfl
      have split : decoded yaml (front ++ [text]) =
          decoded yaml front ++ decoded yaml [text] := List.filterMap_append
      rw [step]
      rcases take_follows yaml _ ih.wellFormed text with
        ⟨same, equal⟩ | ⟨single, wellFormed, mirrors⟩
      · rw [same]
        refine ⟨ih.wellFormed, ?_, fun other inside => ?_⟩
        · rcases ih.mirrors with still | ⟨held, mirrors⟩
          · exact .inl still
          · exact .inr ⟨split ▸ List.mem_append_left _ held, mirrors⟩
        · rw [split, List.getLast?_append] at inside
          cases latest : (decoded yaml [text]).getLast? with
          | none =>
              rw [latest, Option.none_or] at inside
              exact ih.last other inside
          | some newest =>
              rw [latest, Option.some_or] at inside
              obtain rfl := Option.some.inj inside
              exact equal newest (List.mem_of_getLast? latest)
      · refine ⟨wellFormed, .inr ⟨?_, mirrors⟩, fun other inside => ?_⟩
        · rw [split, single]
          exact List.mem_append_right _ List.mem_cons_self
        · rw [split, single, List.getLast?_concat] at inside
          obtain rfl := Option.some.inj inside
          exact equals_self _

variable {process : Process yaml types} {value : LogDefineSet}

/-- To the loggers documents are the texts that they have for `loggers`. -/
theorem Wired.loadAll (wired : Wired process value) (documents : List Node) :
    Wired (loadAll process documents) (takeAll yaml (value, process.2)
        (documents.flatMap (textsNamed yaml · "loggers"))).1 ∧
      (LoggerLoad.loadAll process documents).2 = (takeAll yaml (value, process.2)
        (documents.flatMap (textsNamed yaml · "loggers"))).2 := by
  induction documents generalizing process value with
  | nil => exact ⟨wired, rfl⟩
  | cons node rest ih =>
      obtain ⟨after, loggers⟩ := wired.load node
      obtain ⟨final, last⟩ := ih after
      have whole : takeAll yaml (value, process.2)
          ((node :: rest).flatMap (textsNamed yaml · "loggers")) =
            takeAll yaml ((takeAll yaml (value, process.2) (textsNamed yaml node "loggers")).1,
              (loadFromYaml yaml quiet process.1 node process.2).2)
              (rest.flatMap (textsNamed yaml · "loggers")) := by
        rw [loggers, List.flatMap_cons, takeAll, List.foldl_append]
        rfl
      rw [whole]
      exact ⟨final, last⟩

/-- Whatever documents are loaded, the loggers stay as they are or they are those of the set
that `g_loggers_config` holds, which is not told from the last set that a document has. -/
theorem loads_mirror (wired : Wired process value)
    (reached : Transition.Reachable next init process.2)
    (documents : List Node) :
    ∃ held, Wired (loadAll process documents) held ∧
      (held = value ∧ (loadAll process documents).2 = process.2 ∨
        held ∈ decoded yaml (documents.flatMap (textsNamed yaml · "loggers")) ∧
          Mirrors held (loadAll process documents).2) ∧
      ∀ last ∈ (decoded yaml (documents.flatMap (textsNamed yaml · "loggers"))).getLast?,
        equalLists LogDefine.equals held.toList last.toList = true := by
  obtain ⟨after, loggers⟩ := wired.loadAll documents
  have followed := takeAll_followed yaml (value, process.2)
    (reachable_wellFormed reached)
    (documents.flatMap (textsNamed yaml · "loggers"))
  refine ⟨_, after, ?_, followed.last⟩
  rw [loggers]
  rcases followed.mirrors with same | mirrors
  · left
    rw [same]
    exact ⟨rfl, rfl⟩
  · exact .inr mirrors

theorem loads_mirror_root :
    ∃ held, Mirrors held
      (loadAll (sampleProcess blockStyle init)
        [(init.configureLogger inheriting).document]).2 ∧
      equalLists LogDefine.equals held.toList (init.configureLogger inheriting).defines = true := by
  have faithful : blockStyle.Faithful := flowExcept_faithful _
  have nonempty : (init.configureLogger inheriting).defines ≠ [] := by decide
  have sets : decoded blockStyle ([(init.configureLogger inheriting).document].flatMap
      (textsNamed blockStyle · "loggers")) =
        [.ofList (init.configureLogger inheriting).defines] := by
    rw [List.flatMap_cons, List.flatMap_nil, List.append_nil, document_texts nonempty, decoded,
      List.filterMap_cons, document_decoded faithful nonempty]
    rfl
  obtain ⟨held, _, follows, last⟩ := loads_mirror (sampleProcess_wired blockStyle init)
    ⟨[], .nil⟩ [(init.configureLogger inheriting).document]
  rw [sets] at follows last
  have equal := last (.ofList _) rfl
  rw [OrderedSet.toList_ofList (defines_sorted _)] at equal
  rcases follows with ⟨rfl, _⟩ | ⟨_, mirrors⟩
  · cases equal.symm.trans (show equalLists LogDefine.equals
      (OrderedSet.empty : LogDefineSet).toList (init.configureLogger inheriting).defines = false by
        decide)
  · exact ⟨held, mirrors, equal⟩

end Mirrors

section Saved

open Transition LoggerManager

variable {m : LoggerManager}

/-- The same names, and loggers whose appenders accept and write the same at every level. -/
structure SameBehaviour (n m : LoggerManager) : Prop where
  names : ∀ name, name ∈ n.loggers ↔ name ∈ m.loggers
  accepting : ∀ name level,
    (n.view name).map (·.accepting level) = (m.view name).map (·.accepting level)

theorem SameBehaviour.refl (m : LoggerManager) : SameBehaviour m m :=
  ⟨fun _ => Iff.rfl, fun _ _ => rfl⟩

theorem SameBehaviour.trans {k n m : LoggerManager} (first : SameBehaviour k n)
    (second : SameBehaviour n m) : SameBehaviour k m :=
  ⟨fun name => (first.names name).trans (second.names name),
    fun name level => (first.accepting name level).trans (second.accepting name level)⟩

/-- Making the loggers of the exported definitions gives loggers that behave the same. -/
theorem logInit_defines {other : LoggerManager} (con : Consistent m) (wf : WellFormed m)
    (own : WellFormed other) : SameBehaviour (other.logInit (.ofList m.defines)) m := by
  have views : ∀ name, (other.logInit (.ofList m.defines)).view name =
      (m.view name).map fun v => (v.define name).reconciled := by
    intro name
    rw [logInit_view _ _ own, find_defines, Option.map_map]
    rfl
  constructor
  · intro name
    rw [Std.ExtTreeMap.mem_iff_isSome_getElem?, Std.ExtTreeMap.mem_iff_isSome_getElem?,
      ← (own.logInit _).view_isSome, ← wf.view_isSome, views, Option.isSome_map]
  · intro name level
    rw [views, Option.map_map]
    apply Option.map_congr
    intro v looks
    exact reconciled_accepting v name (con.view_synced looks) level

/-- What the exported document does to the value and to the loggers. -/
theorem takeAll_document (faithful : yaml.Faithful) (nonempty : m.defines ≠ [])
    (value : LogDefineSet) (other : LoggerManager) :
    takeAll yaml (value, other) (textsNamed yaml m.document "loggers") =
      if equalLists LogDefine.equals value.toList m.defines = true then (value, other)
      else (.ofList m.defines, other.logInit (.ofList m.defines)) := by
  have listed : (OrderedSet.ofList m.defines : LogDefineSet).toList = m.defines :=
    OrderedSet.toList_ofList m.defines_sorted
  rw [document_texts nonempty, takeAll, List.foldl_cons, List.foldl_nil, take,
    document_decoded faithful nonempty]
  simp only [listed]

/-- A file that the loggers were written to, once loaded, brings them back, unless the
variable holds a set that is not told from theirs; then nothing changes, so that in the
process they were written in they behave the same in either case. -/
theorem save_load (types : ι → ConfigType) {trace : List (LoggerManager × Op)}
    (run : Run next AttachesFresh init trace m) (some_name : ∃ name, name ∈ m.loggers)
    (faithful : yaml.Faithful) :
    ∃ text root, m.toYamlString yaml = .ok text ∧ yaml.load text = .ok root ∧
      ∀ (process : Process yaml types) (value : LogDefineSet), Wired process value →
        Reachable next init process.2 →
        (equalLists LogDefine.equals value.toList m.defines = true →
          (loadFromYaml yaml quiet process.1 root process.2).2 = process.2) ∧
        (equalLists LogDefine.equals value.toList m.defines = false ∨ process.2 = m →
          SameBehaviour (loadFromYaml yaml quiet process.1 root process.2).2 m) := by
  obtain ⟨con, wf⟩ := run_consistent run
  obtain ⟨name, registered⟩ := some_name
  have nonempty := defines_ne_nil wf registered
  refine ⟨_, m.document, toYamlString_document faithful nonempty,
    faithful.load_dump _ (document_built nonempty), fun process value wired reached => ?_⟩
  rw [(wired.load m.document).2, takeAll_document faithful nonempty]
  refine ⟨fun equal => by rw [if_pos equal], fun told => ?_⟩
  split
  · rename_i equal
    rcases told with differ | same
    · rw [equal] at differ
      cases differ
    · rw [same]
      exact .refl m
  · exact logInit_defines con wf (reachable_wellFormed reached)

theorem save_load_root :
    ∃ text root, (init.configureLogger inheriting).toYamlString blockStyle = .ok text ∧
      blockStyle.load text = .ok root ∧
      ((loadFromYaml blockStyle quiet (sampleProcess blockStyle init).1 root init).2.view
        "root").map (·.accepting .info) = some [(.stdout, some "%p")] := by
  have run : Run next AttachesFresh init [(init, .configureLogger inheriting)]
      (init.configureLogger inheriting) := Run.nil.snoc trivial rfl
  obtain ⟨text, root, written, read, loads⟩ := save_load (fun _ : Unit => textType) run
    ⟨"root", by decide⟩ (flowExcept_faithful _)
  obtain ⟨_, behaves⟩ := loads _ _ (sampleProcess_wired blockStyle init) ⟨[], .nil⟩
  have same := behaves (.inl (by decide))
  exact ⟨text, root, written, read, (same.accepting "root" .info).trans (by decide)⟩

/-- A definition after it was made into a logger and written out: levels that were the
logger's are spelled out. -/
def settle (ld : LogDefine) : LogDefine := ld.reconciled.define ld.name

theorem wants_define_fields {ld : LogDefine} {d : LogAppenderDefine} {x : LogAppender}
    (wanted : ld.wants d = some x) :
    x.define.sink = some x.sink ∧ x.define.level = ld.levelOf d ∧
      x.define.formatter = d.formatter := by
  obtain ⟨sink, kind, rfl⟩ := Option.map_eq_some_iff.mp wanted
  refine ⟨?_, rfl, ?_⟩
  · cases sink <;> simp only [LogAppenderDefine.sink, LogAppender.define, Sink.type]
  · by_cases own : d.formatter = "" <;> simp [LogAppender.define, LogDefine.patternOf, own]

/-- What is written for a wanted appender asks for one that is written in the same way. -/
theorem wants_settled {ld : LogDefine} {d : LogAppenderDefine} {x : LogAppender}
    (wanted : ld.wants d = some x) :
    ((settle ld).wants x.define).map LogAppender.define = some x.define := by
  obtain ⟨sink, level, formatter⟩ := wants_define_fields wanted
  have same : (settle ld).levelOf x.define = x.define.level := by
    change (if x.define.level = .unknow then ld.level else x.define.level) = x.define.level
    rw [level, LogDefine.levelOf]
    by_cases inherited : d.level = .unknow
    · simp only [if_pos inherited, ite_self]
    · simp only [if_neg inherited]
  have written : (if x.define.formatter != "" then (settle ld).patternOf x.define else "") =
      x.define.formatter := by
    by_cases own : x.define.formatter = "" <;> simp [LogDefine.patternOf, own]
  rw [LogDefine.wants, sink, Option.map_some, Option.map_some, same]
  refine congrArg some ?_
  simp only [LogAppender.define, Option.map_some, Option.getD_some, LogFormatter.new_pattern] at *
  rw [written]

theorem settle_settle (ld : LogDefine) : settle (settle ld) = settle ld := by
  have appenders : (((ld.appender.filterMap ld.wants).map LogAppender.define).filterMap
      (settle ld).wants).map LogAppender.define =
        (ld.appender.filterMap ld.wants).map LogAppender.define := by
    rw [List.filterMap_map, List.map_filterMap, ← List.filterMap_eq_map]
    apply List.filterMap_congr
    intro x inside
    obtain ⟨d, _, wanted⟩ := List.mem_filterMap.mp inside
    exact wants_settled wanted
  have formatter : (settle ld).formatter = ld.formatter := LogFormatter.new_pattern _
  change (⟨ld.name, ld.level, (LogFormatter.new (settle ld).formatter).pattern, _⟩ : LogDefine) =
    ⟨ld.name, ld.level, (LogFormatter.new ld.formatter).pattern, _⟩
  rw [formatter]
  exact congrArg (LogDefine.mk ld.name ld.level _) appenders

/-- What is written after the loggers were made of a set. -/
theorem defines_logInit {other : LoggerManager} (own : WellFormed other) (value : LogDefineSet) :
    (other.logInit value).defines = value.toList.map settle := by
  have settled : (value.toList.map settle).Pairwise (·.name < ·.name) :=
    List.pairwise_map.mpr value.sorted
  have same : (⟨_, defines_sorted (other.logInit value)⟩ : LogDefineSet) = ⟨_, settled⟩ := by
    apply OrderedSet.ext_mem
    intro ld
    change ld ∈ (other.logInit value).defines ↔ ld ∈ value.toList.map settle
    rw [mem_defines, List.mem_map]
    constructor
    · rintro ⟨name, v, looks, rfl⟩
      rw [logInit_view value name own] at looks
      obtain ⟨d, found, rfl⟩ := Option.map_eq_some_iff.mp looks
      obtain ⟨member, rfl⟩ := OrderedSet.find_eq_some.mp found
      exact ⟨d, member, rfl⟩
    · rintro ⟨d, member, rfl⟩
      refine ⟨d.name, d.reconciled, ?_, rfl⟩
      rw [logInit_view value d.name own, find_mem member, Option.map_some]
  exact congrArg OrderedSet.toList same

/-- The loggers are written to a file, and the file is loaded. -/
def saveLoad (process : Process yaml types) : Except Fault (Process yaml types) := do
  let root ← yaml.load (← process.2.toYamlString yaml)
  .ok (loadFromYaml yaml quiet process.1 root process.2)

/-- The same any number of times. -/
def rounds : Nat → Process yaml types → Except Fault (Process yaml types)
  | 0, process => .ok process
  | k + 1, process => do rounds k (← saveLoad process)

/-- A process whose file is written the same as before in the next round. -/
structure Stable (process : Process yaml types) (value : LogDefineSet) : Prop where
  wired : Wired process value
  run : ∃ trace, Run next AttachesFresh init trace process.2
  nonempty : process.2.defines ≠ []
  same : equalLists LogDefine.equals value.toList process.2.defines = true ∨
    process.2.defines.map settle = process.2.defines

/-- One round: the definitions that are written stay or are settled, and the next round will
write them again. -/
theorem saveLoad_round {process : Process yaml types} {value : LogDefineSet}
    (faithful : yaml.Faithful) (wired : Wired process value)
    (reached : ∃ trace, Run next AttachesFresh init trace process.2)
    (nonempty : process.2.defines ≠ []) :
    ∃ later held, saveLoad process = .ok later ∧ Stable later held ∧
      SameBehaviour later.2 process.2 ∧
      (equalLists LogDefine.equals value.toList process.2.defines = true →
        later.2.defines = process.2.defines) ∧
      (equalLists LogDefine.equals value.toList process.2.defines = false →
        later.2.defines = process.2.defines.map settle) := by
  obtain ⟨trace, run⟩ := reached
  obtain ⟨con, wf⟩ := run_consistent run
  have saved : saveLoad process =
      .ok (loadFromYaml yaml quiet process.1 process.2.document process.2) := by
    simp only [saveLoad, toYamlString_document faithful nonempty,
      faithful.load_dump _ (document_built nonempty), bind, Except.bind]
  obtain ⟨after, loggers⟩ := wired.load process.2.document
  rw [takeAll_document faithful nonempty] at after loggers
  by_cases equal : equalLists LogDefine.equals value.toList process.2.defines = true
  · rw [if_pos equal] at after loggers
    refine ⟨_, value, saved, ⟨after, ?_, ?_, .inl ?_⟩, ?_, fun _ => by rw [loggers],
      fun differ => absurd equal (by simp [differ])⟩
    all_goals rw [loggers]
    · exact ⟨trace, run⟩
    · exact nonempty
    · exact equal
    · exact .refl _
  · rw [if_neg equal] at after loggers
    have written : (process.2.logInit (.ofList process.2.defines)).defines =
        process.2.defines.map settle := by
      rw [defines_logInit wf, OrderedSet.toList_ofList process.2.defines_sorted]
    have settled : (process.2.defines.map settle).map settle = process.2.defines.map settle := by
      rw [List.map_map]
      exact List.map_congr_left fun ld _ => settle_settle ld
    have allowed : AttachesFresh process.2 (.logInit (.ofList process.2.defines)) := trivial
    refine ⟨_, _, saved, ⟨after, ?_, ?_, .inr ?_⟩, ?_, fun same => absurd same equal, fun _ => ?_⟩
    all_goals rw [loggers]
    · exact ⟨_, run.snoc allowed rfl⟩
    · rw [written]
      simpa using nonempty
    · rw [written, settled]
    · exact logInit_defines con wf wf
    · exact written

/-- After one round the text stays the same however many rounds follow, and so does what the
loggers accept, which is what they accepted before. -/
theorem saves_settle {process : Process yaml types} {value : LogDefineSet}
    {trace : List (LoggerManager × Op)} (faithful : yaml.Faithful) (wired : Wired process value)
    (run : Run next AttachesFresh init trace process.2)
    (some_name : ∃ name, name ∈ process.2.loggers) :
    ∃ once text, saveLoad process = .ok once ∧ once.2.toYamlString yaml = .ok text ∧
      ∀ k, ∃ later, rounds k once = .ok later ∧ later.2.toYamlString yaml = .ok text ∧
        SameBehaviour later.2 process.2 := by
  obtain ⟨name, registered⟩ := some_name
  obtain ⟨once, held, saved, stable, behaves, _⟩ := saveLoad_round faithful wired ⟨trace, run⟩
    (defines_ne_nil (run_consistent run).2 registered)
  refine ⟨once, _, saved, toYamlString_document faithful stable.nonempty, fun k => ?_⟩
  -- Every further round writes what was written and leads from a stable process to another.
  have further : ∀ (k : Nat) (start : Process yaml types) (held : LogDefineSet),
      Stable start held → ∃ later, rounds k start = .ok later ∧
        later.2.defines = start.2.defines ∧ SameBehaviour later.2 start.2 := by
    intro k
    induction k with
    | zero => exact fun start _ _ => ⟨start, rfl, rfl, .refl _⟩
    | succ k ih =>
        intro start held stable
        obtain ⟨second, kept, saved, stays, behaves, unchanged, settled⟩ :=
          saveLoad_round faithful stable.wired stable.run stable.nonempty
        have written : second.2.defines = start.2.defines := by
          by_cases equal : equalLists LogDefine.equals held.toList start.2.defines = true
          · exact unchanged equal
          · rcases stable.same with same | same
            · exact absurd same equal
            · rw [settled (by simpa using equal), same]
        obtain ⟨later, run, defines, same⟩ := ih second kept stays
        refine ⟨later, ?_, defines.trans written, same.trans behaves⟩
        simp only [rounds, saved, bind, Except.bind, run]
  obtain ⟨later, run, defines, same⟩ := further k once held stable
  refine ⟨later, run, ?_, same.trans behaves⟩
  rw [toYamlString_document faithful (by rw [defines]; exact stable.nonempty), document, defines]
  rfl

theorem saves_settle_root :
    ∃ once text, saveLoad (sampleProcess blockStyle (init.configureLogger inheriting)) = .ok once ∧
      once.2.toYamlString blockStyle = .ok text ∧
      ∀ k, ∃ later, rounds k once = .ok later ∧ later.2.toYamlString blockStyle = .ok text ∧
        (later.2.view "root").map (·.accepting .info) = some [(.stdout, some "%p")] := by
  have run : Run next AttachesFresh init [(init, .configureLogger inheriting)]
      (init.configureLogger inheriting) := Run.nil.snoc trivial rfl
  obtain ⟨once, text, saved, written, later⟩ := saves_settle (flowExcept_faithful _)
    (sampleProcess_wired blockStyle (init.configureLogger inheriting)) run ⟨"root", by decide⟩
  refine ⟨once, text, saved, written, fun k => ?_⟩
  obtain ⟨last, rounds, same, behaves⟩ := later k
  exact ⟨last, rounds, same, (behaves.accepting "root" .info).trans (by decide)⟩

end Saved

end ZnetServer.LoggerLoad
