import ZnetServer.LexicalCast
import ZnetServer.LogConfig

set_option autoImplicit false

/- Which documents the decoders of the containers take. None of them asks for the kind of its
node: the loops go by `size()` and `node[i]`, or from `begin()` to `end()`. -/
namespace ZnetServer

open Yaml

/-- A variable's type that is decoded by the loop over `node[i]`. -/
structure Listed (yaml : YamlCpp) (C : Codec) where
  type : ConfigType
  /-- What is built of the elements. -/
  collect : List C.T → type.T
  decodes : ∀ text, type.fromStr text = do .ok (collect (← Sequence.castFromString yaml text))

/-- A variable's type that is decoded by the loop over the entries. -/
structure Keyed (yaml : YamlCpp) (C : Codec) where
  type : ConfigType
  collect : List (String × C.T) → type.T
  decodes : ∀ text, type.fromStr text = do .ok (collect (← Mapping.castFromString yaml text))

/-- `vector`, `list`, `set` and `unordered_set` -/
def Sequence.listed (yaml : YamlCpp) {C : Codec} (S : Sequence C) : Listed yaml C where
  type := (S.codec yaml).type
  collect := S.collect
  decodes _ := rfl

/-- `map` and `unordered_map` -/
def Mapping.keyed (yaml : YamlCpp) {C : Codec} (M : Mapping C) : Keyed yaml C where
  type := (M.codec yaml).type
  collect := M.collect
  decodes _ := rfl

/-- The two `LexicalCast`s of `LogDefine`, with what its `operator==` compares. -/
def LogDefine.codec (yaml : YamlCpp) : Codec where
  T := LogDefine
  Val := String × LogLevel × String × List (String × String)
  value ld := (ld.name, ld.level, ld.formatter, ld.appender.map fun a => (a.type, a.path))
  same := inferInstance
  fromStr := LogDefine.ofText yaml
  toStr ld := .ok (ld.toText yaml)

/-- The type of `g_loggers_config`. -/
def loggersListed (yaml : YamlCpp) : Listed yaml (LogDefine.codec yaml) where
  type := loggersType yaml
  collect := OrderedSet.ofList
  decodes text := by
    show LogDefineSet.ofText yaml text = _
    unfold LogDefineSet.ofText Sequence.castFromString
    rw [bind_assoc]
    rfl

def Yaml.Node.IsSequence : Node → Prop
  | .sequence _ => True
  | .null | .scalar _ | .map _ => False

def Yaml.Node.IsMap : Node → Prop
  | .map _ => True
  | .null | .scalar _ | .sequence _ => False

namespace ConfigVar

variable {C : ConfigType} {W : Type}

/-- The decoder throws, and nothing follows but the record of that. -/
def Refuses (log : LogTo W) (var : ConfigVar C W) (text : String) (w : W) : Prop :=
  ∃ what, C.fromStr text = .error what ∧ var.fromString log text w = (var, log .error
    ("ConfigVar::fromString() error, name=" ++ var.name ++ " exception: " ++ what) w, false)

/-- `setValue` of the given value would change nothing. -/
def Holds (var : ConfigVar C W) (value : C.T) : Prop :=
  var.value = value ∨ C.eq var.value value = true

/-- A text is accepted only if its document fits or is Null, which empties the container; every
other document is refused. -/
structure ShapeGuarded (yaml : YamlCpp) (fits : Node → Prop) (empty : C.T) (log : LogTo W)
    (var : ConfigVar C W) (text : String) (w : W) : Prop where
  accepted : (var.fromString log text w).2.2 = true → ∃ node, yaml.load text = .ok node ∧
    (fits node ∨ node = .null ∧ (var.fromString log text w).1.Holds empty)
  refused : ∀ node, yaml.load text = .ok node → ¬ fits node → node ≠ .null →
    var.Refuses log text w

end ConfigVar

/-- The text under the key that is read as `i`; it is empty where there is none. -/
def placeText (yaml : YamlCpp) (entries : List (Node × Node)) (i : Nat) : String :=
  Node.emitted yaml ((entries.find? fun entry =>
    entry.1.isScalar && yaml.keyIndex entry.1.text == some i).map Prod.snd)

/-- A scalar, or a map with a text for an element at each place below its size. -/
def Sequence.Misreads (yaml : YamlCpp) (C : Codec) (text : String) : Prop :=
  (∃ scalar, yaml.load text = .ok (.scalar scalar)) ∨
  ∃ entries, yaml.load text = .ok (.map entries) ∧
    ∀ i < entries.length, ∃ x, C.fromStr (placeText yaml entries i) = .ok x

/-- A scalar or an empty sequence. -/
def Mapping.Misreads (yaml : YamlCpp) (text : String) : Prop :=
  (∃ scalar, yaml.load text = .ok (.scalar scalar)) ∨ yaml.load text = .ok (.sequence [])

namespace ConfigVar

variable {C : ConfigType} {W : Type} {log : LogTo W} {var : ConfigVar C W} {text : String}
  {w : W}

/-- What does not decode is refused. -/
theorem refuses_of_error {what : String} (thrown : C.fromStr text = .error what) :
    var.Refuses log text w :=
  ⟨what, thrown, by simp only [fromString, thrown]⟩

/-- What is accepted decodes, and the variable then holds it. -/
theorem holds_of_accepted (accepted : (var.fromString log text w).2.2 = true) :
    ∃ value, C.fromStr text = .ok value ∧ (var.fromString log text w).1.Holds value := by
  cases decoded : C.fromStr text with
  | error what =>
      simp only [fromString, decoded] at accepted
      cases accepted
  | ok value =>
      refine ⟨value, rfl, ?_⟩
      rw [fromString_var, accept, decoded]
      by_cases equal : C.eq var.value value = true
      · simp only [equal, ↓reduceIte]
        exact .inr equal
      · simp only [equal, Bool.false_eq_true, ↓reduceIte]
        exact .inl rfl

/-- A decoder guards the shape if it throws at every node of another one. -/
theorem shapeGuarded_iff {yaml : YamlCpp} {fits : Node → Prop} {empty : C.T}
    {decode : Node → Except Fault C.T}
    (decodes : C.fromStr text = do decode (← yaml.load text))
    (null : decode .null = .ok empty) :
    var.ShapeGuarded yaml fits empty log text w ↔
      ¬ ∃ node value, yaml.load text = .ok node ∧ ¬ fits node ∧ node ≠ .null ∧
        decode node = .ok value := by
  constructor
  · rintro guarded ⟨node, value, loaded, wrong, given, decoded⟩
    obtain ⟨what, thrown, _⟩ := guarded.refused node loaded wrong given
    rw [decodes, loaded] at thrown
    have both : Except.ok value = Except.error what := decoded.symm.trans thrown
    cases both
  · intro right
    constructor
    · intro accepted
      obtain ⟨value, decoded, holds⟩ := holds_of_accepted accepted
      rw [decodes] at decoded
      obtain ⟨node, loaded, decoded⟩ := bind_ok_iff.mp decoded
      refine ⟨node, loaded, ?_⟩
      by_cases good : fits node
      · exact .inl good
      · by_cases absent : node = .null
        · rw [absent, null] at decoded
          exact .inr ⟨absent, Except.ok.inj decoded ▸ holds⟩
        · exact absurd ⟨node, value, loaded, good, absent, decoded⟩ right
    · intro node loaded wrong given
      cases decoded : decode node with
      | error what =>
          apply refuses_of_error
          rw [decodes, loaded]
          exact decoded
      | ok value => exact absurd ⟨node, value, loaded, wrong, given, decoded⟩ right

end ConfigVar

section Decoders

variable {yaml : YamlCpp} {C : Codec}

/-- The list decoder behind `YAML::Load`. -/
def Listed.decode (D : Listed yaml C) (node : Node) : Except Fault D.type.T := do
  .ok (D.collect (← (List.range node.size).mapM fun i => do
    C.fromStr (Node.emitted yaml (← Node.at_ yaml i (some node)))))

/-- The map decoder behind `YAML::Load`. -/
def Keyed.decode (D : Keyed yaml C) (node : Node) : Except Fault D.type.T := do
  .ok (D.collect (← Mapping.castNode yaml node))

theorem Listed.fromStr_eq (D : Listed yaml C) (text : String) :
    D.type.fromStr text = (do D.decode (← yaml.load text)) := by
  rw [D.decodes]
  unfold Sequence.castFromString Listed.decode
  rw [bind_assoc]

theorem Keyed.fromStr_eq (D : Keyed yaml C) (text : String) :
    D.type.fromStr text = (do D.decode (← yaml.load text)) := by
  rw [D.decodes]
  unfold Mapping.castFromString Keyed.decode
  rw [bind_assoc]

/-- The loop over the places of a map, which has as many as it has entries. -/
theorem Listed.decode_map (D : Listed yaml C) (entries : List (Node × Node)) :
    (∃ value, D.decode (.map entries) = .ok value) ↔
      ∀ i < entries.length, ∃ x, C.fromStr (placeText yaml entries i) = .ok x := by
  have loop : (∃ read, (List.range entries.length).mapM
        (fun i => C.fromStr (placeText yaml entries i)) = .ok read) ↔
      ∀ i < entries.length, ∃ x, C.fromStr (placeText yaml entries i) = .ok x := by
    rw [mapM_ok_iff]
    simp only [List.mem_range]
  rw [← loop]
  constructor
  · intro ⟨value, decoded⟩
    obtain ⟨read, reads, _⟩ := bind_ok_iff.mp decoded
    exact ⟨read, reads⟩
  · intro ⟨read, reads⟩
    exact ⟨D.collect read, bind_ok_iff.mpr ⟨read, reads, rfl⟩⟩

theorem Listed.misreads_iff (D : Listed yaml C) (text : String) :
    (∃ node value, yaml.load text = .ok node ∧ ¬ node.IsSequence ∧ node ≠ .null ∧
      D.decode node = .ok value) ↔ Sequence.Misreads yaml C text := by
  constructor
  · intro ⟨node, value, loaded, wrong, given, decoded⟩
    cases node with
    | null => exact absurd rfl given
    | scalar scalar => exact .inl ⟨scalar, loaded⟩
    | sequence items => exact absurd trivial wrong
    | map entries => exact .inr ⟨entries, loaded, (D.decode_map entries).mp ⟨value, decoded⟩⟩
  · intro misreads
    rcases misreads with ⟨scalar, loaded⟩ | ⟨entries, loaded, places⟩
    · exact ⟨.scalar scalar, D.collect [], loaded, id, by simp, rfl⟩
    · obtain ⟨value, decoded⟩ := (D.decode_map entries).mpr places
      exact ⟨.map entries, value, loaded, id, by simp, decoded⟩

theorem Keyed.misreads_iff (D : Keyed yaml C) (text : String) :
    (∃ node value, yaml.load text = .ok node ∧ ¬ node.IsMap ∧ node ≠ .null ∧
      D.decode node = .ok value) ↔ Mapping.Misreads yaml text := by
  constructor
  · intro ⟨node, value, loaded, wrong, given, decoded⟩
    cases node with
    | null => exact absurd rfl given
    | scalar scalar => exact .inl ⟨scalar, loaded⟩
    | map entries => exact absurd trivial wrong
    | sequence items =>
        cases items with
        | nil => exact .inr loaded
        | cons item rest => cases decoded
  · intro misreads
    rcases misreads with ⟨scalar, loaded⟩ | loaded
    · exact ⟨.scalar scalar, D.collect [], loaded, id, by simp, rfl⟩
    · exact ⟨.sequence [], D.collect [], loaded, id, by simp, rfl⟩

variable {W : Type}

/-- The decoders keep every document of another shape out but for scalars, which they read as
empty, for the maps that a list reads place by place, and for the empty sequence of a map. -/
theorem shapeGuarded_iff_reads (yaml : YamlCpp) (C : Codec) (log : LogTo W) (text : String)
    (w : W) :
    (∀ (D : Listed yaml C) (var : ConfigVar D.type W),
      var.ShapeGuarded yaml Node.IsSequence (D.collect []) log text w ↔
        ¬ Sequence.Misreads yaml C text) ∧
    ∀ (D : Keyed yaml C) (var : ConfigVar D.type W),
      var.ShapeGuarded yaml Node.IsMap (D.collect []) log text w ↔
        ¬ Mapping.Misreads yaml text := by
  constructor
  · intro D var
    rw [← D.misreads_iff text]
    exact ConfigVar.shapeGuarded_iff (D.fromStr_eq text) rfl
  · intro D var
    rw [← D.misreads_iff text]
    exact ConfigVar.shapeGuarded_iff (D.fromStr_eq text) rfl

end Decoders

section Loggers

open LoggerManager

/-- What an accepted empty set does to `loggers` and to the manager. -/
theorem fromString_loggers_empty (yaml : YamlCpp) {old : LogDefineSet} (filled : old.toList ≠ [])
    (log : LogTo LoggerManager) {text : String}
    (decoded : LogDefineSet.ofText yaml text = .ok .empty) (m : LoggerManager) :
    (loggersHolding yaml old).fromString log text m =
      (loggersHolding yaml .empty, m.logInit .empty, true) := by
  have apart : equalLists LogDefine.equals old.toList [] = false := by
    cases elements : old.toList with
    | nil => exact absurd elements filled
    | cons first rest => rfl
  have decodes : (loggersType yaml).fromStr text = .ok OrderedSet.empty := decoded
  have different : (loggersType yaml).eq old OrderedSet.empty = false := apart
  simp only [ConfigVar.fromString, decodes, ConfigVar.setValue, loggersHolding, different]
  rfl

/-- The document `off` in double quotes. -/
def offText : String := String.ofList (flow (.scalar "off"))

theorem load_offText : flowYaml.load offText = .ok (.scalar "off") := load_flow (.scalar "off")

theorem ofText_offText : LogDefineSet.ofText flowYaml offText = .ok .empty := by
  unfold LogDefineSet.ofText
  rw [load_offText]
  rfl

/-- `loggers` takes it for an empty list, and its listener removes every logger. -/
theorem off_empties_loggers :
    let var := loggersHolding flowYaml (oneAppender { type := "stdout" })
    let m := init.logInit (oneAppender { type := "stdout" })
    let after := var.fromString (fun _ _ m => m) offText m
    flowYaml.load offText = .ok (.scalar "off") ∧
    ¬ var.ShapeGuarded flowYaml Node.IsSequence OrderedSet.empty (fun _ _ m => m) offText m ∧
    after.2.2 = true ∧ OrderedSet.toList after.1.value = [] ∧
    (m.view "net").isSome ∧ ∀ name, after.2.1.view name = none := by
  intro var m after
  have outcome : after = (loggersHolding flowYaml .empty, m.logInit .empty, true) :=
    fromString_loggers_empty flowYaml (by decide) _ ofText_offText m
  have wf : WellFormed m := init_wellFormed.logInit _
  refine ⟨load_offText, fun guarded => ?_, ?_, ?_, ?_, fun name => ?_⟩
  · obtain ⟨what, thrown, _⟩ := guarded.refused _ load_offText id (by simp)
    have both : Except.ok OrderedSet.empty = Except.error what :=
      ofText_offText.symm.trans thrown
    cases both
  · rw [outcome]
  · rw [outcome]
    rfl
  · rw [logInit_view _ "net" init_wellFormed]
    rfl
  · rw [outcome, logInit_view _ name wf]
    rfl

end Loggers

end ZnetServer
