import ZnetServer.Config
import ZnetServer.Yaml

set_option autoImplicit false

/- `server/config.cpp`: a document is flattened to dotted names, and each listed name
that is registered is set from the text of its node. -/
namespace ZnetServer.Config

open Yaml

variable {W : Type}

/-- The name of an entry below a prefix. -/
def dotted (pre key : String) : String := if pre = "" then key else pre ++ "." ++ key

mutual

/-- `output` and the log go in and come out. -/
def listAllYamlMember (log : LogTo W) (node : Node) (pre : String)
    (output : List (String × Node) × W) : List (String × Node) × W :=
  if validName pre then
    match node with
    | .map entries => listEntries log entries pre (output.1 ++ [(pre, node)], output.2)
    | .null | .scalar _ | .sequence _ => (output.1 ++ [(pre, node)], output.2)
  else
    (output.1, log .error ("Config::ListAllMember prefix is invalid, prefix=" ++ pre) output.2)

/-- The loop over the entries of a map. -/
def listEntries (log : LogTo W) (entries : List (Node × Node)) (pre : String)
    (output : List (String × Node) × W) : List (String × Node) × W :=
  match entries with
  | [] => output
  | (key, value) :: rest =>
    listEntries log rest pre (listAllYamlMember log value (dotted pre key.text) output)

end

/-- The text a member is decoded from. -/
def memberText (yaml : YamlCpp) (node : Node) : String :=
  if node.isScalar then node.text else yaml.emit node

variable {ι : Type} {types : ι → ConfigType}

/-- The body of the loop of `LoadFromYaml`. -/
def loadMember (yaml : YamlCpp) (log : LogTo W) (state : Config types W × W)
    (member : String × Node) : Config types W × W :=
  match found : state.1.lookupBase member.1 with
  | none => state
  | some var =>
    let result := var.2.fromString log (memberText yaml member.2) state.2
    (state.1.put member.1 ⟨var.1, result.1⟩ (by
      rw [ConfigVar.fromString_var, ConfigVar.accept_name]
      exact state.1.named member.1 var found), result.2.1)

def loadFromYaml (yaml : YamlCpp) (log : LogTo W) (config : Config types W) (node : Node)
    (w : W) : Config types W × W :=
  let listed := listAllYamlMember log node "" ([], w)
  listed.1.foldl (loadMember yaml log) (config, listed.2)

section Names

theorem validName_append (front back : String) :
    validName (front ++ back) = (validName front && validName back) := by
  simp [validName]

/-- Below an invalid name every name is invalid. -/
theorem dotted_invalid {pre : String} (invalid : validName pre = false) (key : String) :
    validName (dotted pre key) = false := by
  have nonempty : pre ≠ "" := by
    rintro rfl
    cases invalid
  simp only [dotted, nonempty, ↓reduceIte, validName_append, invalid, Bool.false_and]

end Names

mutual

/-- Every node reached through maps with its dotted name, in pre-order. -/
def dottedNodes (node : Node) (pre : String) : List (String × Node) :=
  (pre, node) :: match node with
    | .map entries => dottedEntries entries pre
    | .null | .scalar _ | .sequence _ => []

def dottedEntries (entries : List (Node × Node)) (pre : String) : List (String × Node) :=
  match entries with
  | [] => []
  | (key, value) :: rest => dottedNodes value (dotted pre key.text) ++ dottedEntries rest pre

end

/-- The texts a document has for a name, in order. -/
def textsNamed (yaml : YamlCpp) (node : Node) (name : String) : List String :=
  ((dottedNodes node "").filter (·.1 = name)).map (memberText yaml ·.2)

mutual

theorem dottedNodes_invalid (node : Node) {pre : String} (invalid : validName pre = false) :
    ∀ member ∈ dottedNodes node pre, validName member.1 = false := by
  intro member inside
  cases node with
  | map entries =>
      rcases List.mem_cons.mp inside with here | below
      · rw [here]
        exact invalid
      · exact dottedEntries_invalid entries invalid member below
  | null | scalar | sequence =>
      rw [List.mem_singleton.mp inside]
      exact invalid

theorem dottedEntries_invalid (entries : List (Node × Node)) {pre : String}
    (invalid : validName pre = false) :
    ∀ member ∈ dottedEntries entries pre, validName member.1 = false := by
  intro member inside
  match entries with
  | [] => cases inside
  | (key, value) :: rest =>
      rcases List.mem_append.mp inside with first | later
      · exact dottedNodes_invalid value (dotted_invalid invalid key.text) member first
      · exact dottedEntries_invalid rest invalid member later

end

section Listing

variable (log : LogTo W) {name : String}

/-- The members listed under one name. -/
def under (name : String) (members : List (String × Node)) : List (String × Node) :=
  members.filter (·.1 = name)

mutual

/-- The cut at invalid prefixes drops no member with a valid name. -/
theorem listAllYamlMember_under (valid : validName name = true) (node : Node) (pre : String)
    (output : List (String × Node) × W) :
    under name (listAllYamlMember log node pre output).1 =
      under name output.1 ++ under name (dottedNodes node pre) := by
  by_cases listed : validName pre = true
  · cases node with
    | map entries =>
        rw [listAllYamlMember, if_pos listed, listEntries_under valid entries, dottedNodes]
        simp only [under, List.filter_append, List.append_assoc]
        rw [← List.filter_append]
        rfl
    | null | scalar | sequence =>
        rw [listAllYamlMember, if_pos listed, dottedNodes]
        simp only [under, List.filter_append]
  · have invalid := Bool.eq_false_iff.mpr listed
    have nothing : under name (dottedNodes node pre) = [] := by
      rw [under, List.filter_eq_nil_iff]
      intro member inside same
      have bad := dottedNodes_invalid node invalid member inside
      rw [of_decide_eq_true same, valid] at bad
      cases bad
    rw [listAllYamlMember.eq_def, if_neg listed, nothing, List.append_nil]

theorem listEntries_under (valid : validName name = true) (entries : List (Node × Node))
    (pre : String) (output : List (String × Node) × W) :
    under name (listEntries log entries pre output).1 =
      under name output.1 ++ under name (dottedEntries entries pre) := by
  match entries with
  | [] => rw [listEntries, dottedEntries, show under name [] = [] from rfl, List.append_nil]
  | (key, value) :: rest =>
      rw [listEntries, listEntries_under valid rest, listAllYamlMember_under valid value,
        dottedEntries, List.append_assoc]
      simp only [under, List.filter_append]

end

end Listing

section Load

variable (yaml : YamlCpp) (log : LogTo W) (name : String)

/-- One listed member changes the variable of its own name and no other. -/
theorem loadMember_lookup (state : Config types W × W) (member : String × Node) :
    (loadMember yaml log state member).1.lookupBase name =
      if member.1 = name then
        (state.1.lookupBase name).map fun var =>
          ⟨var.1, var.2.accept (memberText yaml member.2)⟩
      else state.1.lookupBase name := by
  unfold loadMember
  split
  · rename_i missing
    by_cases same : member.1 = name
    · rw [if_pos same, ← same, missing]
      rfl
    · rw [if_neg same]
  · rename_i var found
    rw [lookupBase_put]
    by_cases same : member.1 = name
    · rw [if_pos same, if_pos same, ← same, found, ConfigVar.fromString_var]
      rfl
    · rw [if_neg same, if_neg same]

theorem loadMembers_lookup (members : List (String × Node)) (state : Config types W × W) :
    (members.foldl (loadMember yaml log) state).1.lookupBase name =
      (state.1.lookupBase name).map fun var =>
        ⟨var.1, ((under name members).map (memberText yaml ·.2)).foldl ConfigVar.accept var.2⟩ := by
  induction members generalizing state with
  | nil => exact (Option.map_id_apply).symm
  | cons member rest ih =>
      rw [List.foldl_cons, ih, loadMember_lookup]
      by_cases same : member.1 = name
      · simp only [same, ↓reduceIte, Option.map_map, under, decide_true, List.filter_cons_of_pos,
          List.map_cons, List.foldl_cons]
        rfl
      · simp only [same, ↓reduceIte, under, decide_false, Bool.false_eq_true, not_false_eq_true,
          List.filter_cons_of_neg]

theorem loadFromYaml_lookup (config : Config types W) (node : Node) (w : W) :
    (loadFromYaml yaml log config node w).1.lookupBase name =
      (config.lookupBase name).map fun var =>
        ⟨var.1, (textsNamed yaml node name).foldl ConfigVar.accept var.2⟩ := by
  rw [loadFromYaml, loadMembers_lookup]
  cases found : config.lookupBase name with
  | none => rfl
  | some var =>
      have valid := (config.named name var found).2
      rw [listAllYamlMember_under log valid]
      rfl

variable {name}

/-- A registered variable takes, in document order, the texts of the nodes whose dotted
name is its own, and depends on nothing else: a text that does not decode leaves it
alone, and so does a document that does not name it. -/
theorem loadFromYaml_independent (config : Config types W) (node : Node) (w : W)
    {var : ConfigVarBase types W} (registered : config.lookupBase name = some var) :
    (loadFromYaml yaml log config node w).1.lookupBase name =
      some ⟨var.1, (textsNamed yaml node name).foldl
        (fun own text => (own.fromString log text w).1) var.2⟩ ∧
    (∀ text what, (types var.1).fromStr text = .error what →
      ∀ own : ConfigVar (types var.1) W, (own.fromString log text w).1 = own) ∧
    (textsNamed yaml node name = [] →
      (loadFromYaml yaml log config node w).1.lookupBase name = some var) ∧
    ∀ (other : Config types W) (document : Node) (v : W),
      other.lookupBase name = some var →
      textsNamed yaml document name = textsNamed yaml node name →
      (loadFromYaml yaml log other document v).1.lookupBase name =
        (loadFromYaml yaml log config node w).1.lookupBase name := by
  refine ⟨?_, fun text what fails own => ?_, fun unnamed => ?_,
    fun other document v same agree => ?_⟩
  · have each : (fun (own : ConfigVar (types var.1) W) text => (own.fromString log text w).1) =
        ConfigVar.accept := by
      funext own text
      exact own.fromString_var log text w
    rw [loadFromYaml_lookup, registered, each]
    rfl
  · rw [ConfigVar.fromString_var, ConfigVar.accept, fails]
  · rw [loadFromYaml_lookup, registered, unnamed]
    rfl
  · rw [loadFromYaml_lookup, loadFromYaml_lookup, same, registered, agree]

end Load

/-- A variable of texts that refuses the empty one. -/
def textType : ConfigType where
  T := String
  eq := (· == ·)
  fromStr text := if text = "" then .error "bad lexical cast" else .ok text
  toStr := .ok

/-- Two variables, of which a document sets the first one twice and the second one badly. -/
def sampleConfig : Config (fun _ : Unit => textType) Unit :=
  (Config.empty.put "log.level" ⟨(), .new "log.level" "info" ""⟩ (by decide)).put "port"
    ⟨(), .new "port" "80" ""⟩ (by decide)

def sampleDocument : Node :=
  .map [(.scalar "log",
      .map [(.scalar "level", .scalar "warn"), (.scalar "level", .scalar "debug")]),
    (.scalar "port", .scalar "")]

theorem loadFromYaml_independent_sample :
    (loadFromYaml default (fun _ _ w => w) sampleConfig sampleDocument ()).1.lookupBase
      "log.level" = some ⟨(), .new "log.level" "debug" ""⟩ ∧
    (loadFromYaml default (fun _ _ w => w) sampleConfig sampleDocument ()).1.lookupBase
      "port" = some ⟨(), .new "port" "80" ""⟩ :=
  ⟨(loadFromYaml_independent default (fun _ _ w => w) sampleConfig sampleDocument ()
      (show sampleConfig.lookupBase "log.level" = some ⟨(), .new "log.level" "info" ""⟩ by
        simp [sampleConfig])).1,
    (loadFromYaml_independent default (fun _ _ w => w) sampleConfig sampleDocument ()
      (show sampleConfig.lookupBase "port" = some ⟨(), .new "port" "80" ""⟩ by
        simp [sampleConfig])).1⟩

end ZnetServer.Config
