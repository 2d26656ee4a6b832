import ZnetServer.ConfigLoad

set_option autoImplicit false

/- The registry as a store of values: in every run of its calls a name holds what was written
to it last, whatever listeners there are and whatever is logged. -/
namespace ZnetServer.Config

open Yaml

variable {ι : Type} {types : ι → ConfigType} {W : Type}

/-- What the registry is for: names with values of the types. -/
abbrev Values (types : ι → ConfigType) := String → Option (Σ i : ι, (types i).T)

/-- The calls on the registry and on its variables. -/
inductive StoreCall (types : ι → ConfigType) (W : Type) where
  | create (i : ι) (name : String) (value : (types i).T) (description : String)
  | loadFromYaml (node : Node)
  /-- `LookupBase(name)->fromString(val)` -/
  | fromString (name val : String)
  /-- `Lookup<T>(name)->setValue(value)` -/
  | setValue (i : ι) (name : String) (value : (types i).T)
  | addListener (i : ι) (name : String) (listenerId : Int) (cb : OnChangeCallback (types i) W)
  | removeListener (name : String) (listenerId : Int)

/-- A method called on the variable of a name, if there is one. -/
def useVar (s : Config types W × W) (name : String)
    (method : ∀ i, ConfigVar (types i) W → W → ConfigVar (types i) W × W)
    (named : ∀ i var w, (method i var w).1.name = var.name) : Config types W × W :=
  match found : s.1.lookupBase name with
  | none => s
  | some var =>
    let result := method var.1 var.2 s.2
    (s.1.put name ⟨var.1, result.1⟩ (by
      rw [named]
      exact s.1.named name var found), result.2)

theorem useVar_lookup (s : Config types W × W) (name : String)
    (method : ∀ i, ConfigVar (types i) W → W → ConfigVar (types i) W × W)
    (named : ∀ i var w, (method i var w).1.name = var.name) (other : String) :
    (useVar s name method named).1.lookupBase other =
      if name = other then
        (s.1.lookupBase other).map fun var => ⟨var.1, (method var.1 var.2 s.2).1⟩
      else s.1.lookupBase other := by
  unfold useVar
  split
  · rename_i missing
    by_cases same : name = other
    · rw [if_pos same, ← same, missing]
      rfl
    · rw [if_neg same]
  · rename_i var found
    rw [lookupBase_put]
    by_cases same : name = other
    · rw [if_pos same, if_pos same, ← same, found]
      rfl
    · rw [if_neg same, if_neg same]

section Calls

variable [DecidableEq ι] (yaml : YamlCpp) (log : LogTo W)

/-- `setValue` of a variable of the type; a caller that finds another one calls nothing. -/
def setTyped (i : ι) (value : (types i).T) (j : ι) (var : ConfigVar (types j) W) (w : W) :
    ConfigVar (types j) W × W :=
  if same : i = j then
    let result := var.setValue (same ▸ value) w
    (result.1, result.2.1)
  else (var, w)

def addTyped (i : ι) (listenerId : Int) (cb : OnChangeCallback (types i) W) (j : ι)
    (var : ConfigVar (types j) W) (w : W) : ConfigVar (types j) W × W :=
  if same : i = j then (var.addListener listenerId (same ▸ cb), w) else (var, w)

theorem setTyped_name (i : ι) (value : (types i).T) (j : ι) (var : ConfigVar (types j) W) (w : W) :
    (setTyped i value j var w).1.name = var.name := by
  unfold setTyped
  split
  · rw [ConfigVar.setValue_var]
    split <;> rfl
  · rfl

theorem addTyped_name (i : ι) (listenerId : Int) (cb : OnChangeCallback (types i) W) (j : ι)
    (var : ConfigVar (types j) W) (w : W) :
    (addTyped i listenerId cb j var w).1.name = var.name := by
  unfold addTyped
  split <;> rfl

def perform (s : Config types W × W) : StoreCall types W → Config types W × W
  | .create i name value description =>
    let result := s.1.create log i name value description s.2
    (result.1, result.2.1)
  | .loadFromYaml node => loadFromYaml yaml log s.1 node s.2
  | .fromString name val =>
    useVar s name
      (fun _ var w => ((var.fromString log val w).1, (var.fromString log val w).2.1))
      (fun _ var w => by rw [ConfigVar.fromString_var, ConfigVar.accept_name])
  | .setValue i name value => useVar s name (setTyped i value) (setTyped_name i value)
  | .addListener i name listenerId cb =>
    useVar s name (addTyped i listenerId cb) (addTyped_name i listenerId cb)
  | .removeListener name listenerId =>
    useVar s name (fun _ var w => (var.removeListener listenerId, w)) (fun _ _ _ => rfl)

def performAll (s : Config types W × W) (calls : List (StoreCall types W)) : Config types W × W :=
  calls.foldl (perform yaml log) s

/-- The value of the last text that decodes. -/
def lastRead (C : ConfigType) (texts : List String) (value : C.T) : C.T :=
  ((texts.filterMap fun text => (C.fromStr text).toOption).getLast?).getD value

/-- Each name that has a value takes the last of its texts that decodes. -/
def overwrite (values : Values types) (texts : String → List String) : Values types :=
  fun name => (values name).map fun own => ⟨own.1, lastRead (types own.1) (texts name) own.2⟩

/-- A change of the value of one name, if it has one. -/
def modify (values : Values types) (name : String)
    (change : (Σ i : ι, (types i).T) → Σ i : ι, (types i).T) : Values types :=
  fun other => if name = other then (values other).map change else values other

/-- What a call writes. -/
def write (values : Values types) : StoreCall types W → Values types
  | .create i name value _ => fun other =>
    if name = other ∧ validName name = true then (values other).or (some ⟨i, value⟩)
    else values other
  | .loadFromYaml node => overwrite values (textsNamed yaml node)
  | .fromString name val => modify values name fun own =>
    ⟨own.1, lastRead (types own.1) [val] own.2⟩
  | .setValue i name value => modify values name fun own =>
    if same : i = own.1 then ⟨own.1, same ▸ value⟩ else own
  | .addListener .. | .removeListener .. => values

def writeAll (values : Values types) (calls : List (StoreCall types W)) : Values types :=
  calls.foldl (write yaml) values

end Calls

/-- The variable has the type and, for `operator==`, the value. -/
def HasValue (var : ConfigVarBase types W) (own : Σ i : ι, (types i).T) : Prop :=
  ∃ value, own = ⟨var.1, value⟩ ∧ (types var.1).eq var.2.value value = true

/-- The registry holds the values and no others. -/
def Stores (config : Config types W) (values : Values types) : Prop :=
  ∀ name, Option.Rel HasValue (config.lookupBase name) (values name)

section Values

variable {C : ConfigType} {own : ConfigVar C W} {value : C.T}

/-- Refused and repeated texts leave a value that is equal to the last one written. -/
theorem accept_lastRead (reflexive : ∀ x, C.eq x x = true) (texts : List String)
    (equal : C.eq own.value value = true) :
    C.eq (texts.foldl ConfigVar.accept own).value (lastRead C texts value) = true := by
  induction texts generalizing own value with
  | nil => exact equal
  | cons text rest ih =>
      rw [List.foldl_cons]
      cases decoded : C.fromStr text with
      | error what =>
          have refused : own.accept text = own := by rw [ConfigVar.accept, decoded]
          have skipped : lastRead C (text :: rest) value = lastRead C rest value := by
            simp only [lastRead, List.filterMap_cons, decoded, Except.toOption]
          rw [refused, skipped]
          exact ih equal
      | ok read =>
          have taken : lastRead C (text :: rest) value = lastRead C rest read := by
            simp only [lastRead, List.filterMap_cons, decoded, Except.toOption]
            rw [List.getLast?_cons, Option.getD_some]
          have now : C.eq (own.accept text).value read = true := by
            rw [ConfigVar.accept, decoded]
            by_cases same : C.eq own.value read = true
            · simp only [same, ↓reduceIte]
            · simp only [if_neg same, reflexive]
          rw [taken]
          exact ih now

end Values

section Steps

theorem rel_map {α β γ δ : Type*} {R : α → β → Prop} {S : γ → δ → Prop} {f : α → γ} {g : β → δ}
    {a : Option α} {b : Option β} (related : Option.Rel R a b)
    (kept : ∀ x y, R x y → S (f x) (g y)) : Option.Rel S (a.map f) (b.map g) := by
  cases related with
  | none => exact .none
  | some here => exact .some (kept _ _ here)

/-- A method keeps the store if what it makes of a variable has the value that is written. -/
theorem Stores.useVar {s : Config types W × W} {values : Values types} (stores : Stores s.1 values)
    {name : String} {method : ∀ i, ConfigVar (types i) W → W → ConfigVar (types i) W × W}
    (named : ∀ i var w, (method i var w).1.name = var.name)
    {written : (Σ i : ι, (types i).T) → Σ i : ι, (types i).T}
    (kept : ∀ var own, HasValue var own →
      HasValue ⟨var.1, (method var.1 var.2 s.2).1⟩ (written own)) :
    Stores (Config.useVar s name method named).1 (modify values name written) := by
  intro other
  rw [useVar_lookup, modify]
  by_cases same : name = other
  · rw [if_pos same, if_pos same]
    exact rel_map (stores other) kept
  · rw [if_neg same, if_neg same]
    exact stores other

theorem modify_id (values : Values types) (name : String) : modify values name id = values := by
  funext other
  rw [modify, Option.map_id, id, ite_self]

variable [DecidableEq ι] (yaml : YamlCpp) (log : LogTo W)

theorem create_lookup (config : Config types W) (i : ι) (name : String) (value : (types i).T)
    (description : String) (w : W) (other : String) :
    (config.create log i name value description w).1.lookupBase other =
      if name = other ∧ validName name = true then
        (config.lookupBase other).or (some ⟨i, .new name value description⟩)
      else config.lookupBase other := by
  unfold create
  cases found : config.lookupBase name with
  | some var =>
      have same : ∀ other, config.lookupBase other = if name = other ∧ validName name = true then
          (config.lookupBase other).or (some ⟨i, .new name value description⟩)
          else config.lookupBase other := by
        intro other
        split
        · rename_i here
          rw [← here.1, found, Option.some_or]
        · rfl
      simp only
      split <;> exact same other
  | none =>
      dsimp only
      split
      · rename_i valid
        rw [lookupBase_put]
        by_cases here : name = other
        · rw [if_pos here, if_pos ⟨here, valid⟩, ← here, found, Option.none_or]
        · rw [if_neg here, if_neg fun both => here both.1]
      · rename_i invalid
        rw [if_neg fun both => invalid both.2]

theorem setTyped_value (reflexive : ∀ i x, (types i).eq x x = true) (i : ι) (value : (types i).T)
    (w : W) {var : ConfigVarBase types W} {own : Σ i : ι, (types i).T} (has : HasValue var own) :
    HasValue ⟨var.1, (setTyped i value var.1 var.2 w).1⟩
      (if same : i = own.1 then ⟨own.1, same ▸ value⟩ else own) := by
  obtain ⟨held, rfl, equal⟩ := has
  unfold setTyped
  by_cases same : i = var.1
  · rw [dif_pos same, dif_pos same]
    refine ⟨same ▸ value, rfl, ?_⟩
    simp only [ConfigVar.setValue_var]
    by_cases repeated : (types var.1).eq var.2.value (same ▸ value) = true
    · rw [if_pos repeated]
      exact repeated
    · rw [if_neg repeated]
      exact reflexive var.1 _
  · rw [dif_neg same, dif_neg same]
    exact ⟨held, rfl, equal⟩

theorem addTyped_value (i : ι) (listenerId : Int) (cb : OnChangeCallback (types i) W) (w : W)
    {var : ConfigVarBase types W} {own : Σ i : ι, (types i).T} (has : HasValue var own) :
    HasValue ⟨var.1, (addTyped i listenerId cb var.1 var.2 w).1⟩ own := by
  obtain ⟨held, rfl, equal⟩ := has
  unfold addTyped
  split <;> exact ⟨held, rfl, equal⟩

/-- Each call writes to the values what it says. -/
theorem Stores.perform (reflexive : ∀ i x, (types i).eq x x = true) {s : Config types W × W}
    {values : Values types} (stores : Stores s.1 values) (call : StoreCall types W) :
    Stores (Config.perform yaml log s call).1 (write yaml values call) := by
  cases call with
  | create i name value description =>
      intro other
      have here := stores other
      simp only [Config.perform, write, create_lookup]
      split
      · generalize s.1.lookupBase other = found, values other = own at here ⊢
        cases here with
        | none => exact .some ⟨value, rfl, reflexive i value⟩
        | some has => exact .some has
      · exact here
  | loadFromYaml node =>
      intro name
      simp only [Config.perform, loadFromYaml_lookup, write, overwrite]
      apply rel_map (stores name)
      rintro var _ ⟨value, rfl, equal⟩
      exact ⟨_, rfl, accept_lastRead (reflexive var.1) _ equal⟩
  | fromString name val =>
      apply stores.useVar
      rintro var _ ⟨value, rfl, equal⟩
      have read := accept_lastRead (reflexive var.1) [val] equal
      refine ⟨_, rfl, ?_⟩
      rw [ConfigVar.fromString_var]
      exact read
  | setValue i name value =>
      exact stores.useVar (setTyped_name i value)
        fun _ _ has => setTyped_value reflexive i value s.2 has
  | addListener i name listenerId cb =>
      rw [write, ← modify_id values name]
      exact stores.useVar (addTyped_name i listenerId cb)
        fun _ _ has => addTyped_value i listenerId cb s.2 has
  | removeListener name listenerId =>
      rw [write, ← modify_id values name]
      apply stores.useVar
      rintro var _ ⟨value, rfl, equal⟩
      exact ⟨value, rfl, equal⟩

theorem Stores.performAll (reflexive : ∀ i x, (types i).eq x x = true) {s : Config types W × W}
    {values : Values types} (stores : Stores s.1 values) (calls : List (StoreCall types W)) :
    Stores (Config.performAll yaml log s calls).1 (writeAll yaml values calls) := by
  induction calls generalizing s values with
  | nil => exact stores
  | cons call rest ih => exact ih (stores.perform yaml log reflexive call)

/-- The name's texts set its value whatever it was. -/
def Decides (C : ConfigType) (texts : List String) : Prop :=
  (texts.filterMap fun text => (C.fromStr text).toOption) ≠ []

/-- Values that differ only if the texts set them. -/
def CoveredAt (texts : List String) (own other : Σ i : ι, (types i).T) : Prop :=
  own = other ∨ own.1 = other.1 ∧ Decides (types own.1) texts

def Covered (texts : String → List String) (left right : Values types) : Prop :=
  ∀ name, Option.Rel (CoveredAt (texts name)) (left name) (right name)

omit [DecidableEq ι] in
/-- A change that keeps the types keeps what the texts will cover. -/
theorem CoveredAt.change {texts : List String} {own other : Σ i : ι, (types i).T}
    (covered : CoveredAt texts own other)
    (change : (Σ i : ι, (types i).T) → Σ i : ι, (types i).T)
    (typed : ∀ own, (change own).1 = own.1) : CoveredAt texts (change own) (change other) := by
  rcases covered with rfl | ⟨same, decides⟩
  · exact Or.inl rfl
  · right
    rw [typed, typed]
    exact ⟨same, decides⟩

omit [DecidableEq ι] in
theorem Covered.modify {texts : String → List String} {left right : Values types}
    (covered : Covered texts left right) (name : String)
    {change : (Σ i : ι, (types i).T) → Σ i : ι, (types i).T}
    (typed : ∀ own, (change own).1 = own.1) :
    Covered texts (Config.modify left name change) (Config.modify right name change) := by
  intro other
  rw [Config.modify, Config.modify]
  by_cases same : name = other
  · rw [if_pos same, if_pos same]
    exact rel_map (covered other) fun _ _ here => here.change change typed
  · rw [if_neg same, if_neg same]
    exact covered other

theorem Covered.write {texts : String → List String} {left right : Values types}
    (covered : Covered texts left right) (call : StoreCall types W) :
    Covered texts (Config.write yaml left call) (Config.write yaml right call) := by
  cases call with
  | create i name value description =>
      intro other
      have here := covered other
      simp only [Config.write]
      split
      · generalize left other = own, right other = found at here ⊢
        cases here with
        | none => exact .some (Or.inl rfl)
        | some same => exact .some same
      · exact here
  | loadFromYaml node =>
      intro name
      exact rel_map (covered name) fun _ _ here =>
        here.change (fun own => ⟨own.1, lastRead _ (textsNamed yaml node name) own.2⟩) fun _ => rfl
  | fromString name val => exact covered.modify name fun _ => rfl
  | setValue i name value =>
      refine covered.modify name fun own => ?_
      split <;> rfl
  | addListener | removeListener => exact covered

theorem Covered.writeAll {texts : String → List String} {left right : Values types}
    (covered : Covered texts left right) (calls : List (StoreCall types W)) :
    Covered texts (Config.writeAll yaml left calls) (Config.writeAll yaml right calls) := by
  induction calls generalizing left right with
  | nil => exact covered
  | cons call rest ih => exact ih (covered.write yaml call)

end Steps

end ZnetServer.Config
