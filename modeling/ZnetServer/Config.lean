import Mathlib.Data.String.Basic
import ZnetServer.LogFormatter

set_option autoImplicit false

/- `server/config.h`: a configuration variable with its listeners, and the registry. The
state `W` is all that listeners and log statements act on; the registry is no part of it. -/
namespace ZnetServer

section Maps

variable {κ α β : Type} {cmp : κ → κ → Ordering} [Std.TransCmp cmp] [Std.LawfulEqCmp cmp]

theorem map_insert (m : Std.ExtTreeMap κ α cmp) (f : α → β) (k : κ) (v : α) :
    (m.insert k v).map (fun _ => f) = (m.map fun _ => f).insert k (f v) := by
  apply Std.ExtTreeMap.ext_getElem?
  intro other
  rw [Std.ExtTreeMap.getElem?_map, Std.ExtTreeMap.getElem?_insert,
    Std.ExtTreeMap.getElem?_insert, Std.ExtTreeMap.getElem?_map]
  split <;> rfl

theorem map_erase (m : Std.ExtTreeMap κ α cmp) (f : α → β) (k : κ) :
    (m.erase k).map (fun _ => f) = (m.map fun _ => f).erase k := by
  apply Std.ExtTreeMap.ext_getElem?
  intro other
  rw [Std.ExtTreeMap.getElem?_map, Std.ExtTreeMap.getElem?_erase,
    Std.ExtTreeMap.getElem?_erase, Std.ExtTreeMap.getElem?_map]
  split <;> rfl

end Maps

/-- A type with the two functors `ConfigVar` is instantiated with; what they throw is a
`std::exception` with its text. -/
structure ConfigType where
  T : Type
  eq : T → T → Bool
  fromStr : String → Except String T
  toStr : T → Except String String

/-- A log statement on the root logger. -/
abbrev LogTo (W : Type) := LogLevel → String → W → W

/-- `OnChangeCallback`, with the exception that leaves it. -/
abbrev OnChangeCallback (C : ConfigType) (W : Type) := C.T → C.T → W → W × Option String

structure ConfigVar (C : ConfigType) (W : Type) where
  name : String
  description : String
  value : C.T
  cbs : Std.ExtTreeMap Int (OnChangeCallback C W)

namespace ConfigVar

variable {C : ConfigType} {W : Type}

/-- The constructor. -/
def new (name : String) (value : C.T) (description : String) : ConfigVar C W where
  name := name
  description := description
  value := value
  cbs := ∅

/-- The loop over `m_cbs`; an exception ends it. -/
def notify (newValue oldValue : C.T) : List (OnChangeCallback C W) → W → W × Option String
  | [], w => (w, none)
  | cb :: rest, w => match cb newValue oldValue w with
    | (w, some thrown) => (w, some thrown)
    | (w, none) => notify newValue oldValue rest w

/-- `setValue` with the exception that leaves it. -/
def setValue (var : ConfigVar C W) (value : C.T) (w : W) : ConfigVar C W × W × Option String :=
  if C.eq var.value value then (var, w, none)
  else ({ var with value }, notify value var.value (var.cbs.toList.map Prod.snd) w)

def toString (log : LogTo W) (var : ConfigVar C W) (w : W) : String × W :=
  match C.toStr var.value with
  | .ok text => (text, w)
  | .error what => ("", log .error
      ("ConfigVar::toString() error, name=" ++ var.name ++ " exception: " ++ what) w)

def fromString (log : LogTo W) (var : ConfigVar C W) (text : String) (w : W) :
    ConfigVar C W × W × Bool :=
  let failed (var : ConfigVar C W) (what : String) (w : W) := (var, log .error
    ("ConfigVar::fromString() error, name=" ++ var.name ++ " exception: " ++ what) w, false)
  match C.fromStr text with
  | .error what => failed var what w
  | .ok value => match var.setValue value w with
    | (var, w, some what) => failed var what w
    | (var, w, none) => (var, w, true)

def addListener (var : ConfigVar C W) (listenerId : Int) (cb : OnChangeCallback C W) :
    ConfigVar C W :=
  { var with cbs := var.cbs.insert listenerId cb }

def removeListener (var : ConfigVar C W) (listenerId : Int) : ConfigVar C W :=
  { var with cbs := var.cbs.erase listenerId }

/-- What a text does to the variable, its listeners left aside: nothing if it does not
decode or decodes to an equal value. -/
def accept (var : ConfigVar C W) (text : String) : ConfigVar C W :=
  match C.fromStr text with
  | .error _ => var
  | .ok value => if C.eq var.value value then var else { var with value }

@[simp] theorem accept_name (var : ConfigVar C W) (text : String) :
    (var.accept text).name = var.name := by
  unfold accept
  split
  · rfl
  · split <;> rfl

theorem setValue_var (var : ConfigVar C W) (value : C.T) (w : W) :
    (var.setValue value w).1 = if C.eq var.value value then var else { var with value } := by
  unfold setValue
  split <;> rfl

theorem fromString_var (log : LogTo W) (var : ConfigVar C W) (text : String) (w : W) :
    (var.fromString log text w).1 = var.accept text := by
  unfold fromString accept
  cases C.fromStr text with
  | error what => rfl
  | ok value =>
      have set := setValue_var var value w
      simp only
      split
      · rename_i same
        rw [same] at set
        exact set
      · rename_i same
        rw [same] at set
        exact set

end ConfigVar

/-- The names that `Create` takes and under which members are listed. -/
def nameCharacters : String := "abcdefghijklmnopqrstuvwxyzABCDEFGHIJKLMNOPQRSTUVWXYZ0123456789._"

/-- `find_first_not_of(nameCharacters) == npos` -/
def validName (name : String) : Bool := name.toList.all (nameCharacters.toList.contains ·)

inductive ConfigError where
  /-- `std::logic_error` -/
  | nameConflict (name : String)
  /-- `std::invalid_argument` -/
  | invalidName (name : String)
  deriving DecidableEq

section Registry

variable {ι : Type} (types : ι → ConfigType) (W : Type)

/-- `ConfigVarBase::ptr`: a variable of one of the instantiated types. -/
abbrev ConfigVarBase := Σ i : ι, ConfigVar (types i) W

/-- `GetDatas()`, with what `Create` sees to. -/
structure Config where
  datas : Std.ExtTreeMap String (ConfigVarBase types W)
  named : ∀ name var, datas[name]? = some var → var.2.name = name ∧ validName name = true

end Registry

namespace Config

variable {ι : Type} {types : ι → ConfigType} {W : Type}

def empty : Config types W := ⟨∅, fun _ _ found => by simp at found⟩

def lookupBase (config : Config types W) (name : String) : Option (ConfigVarBase types W) :=
  config.datas[name]?

/-- The assignment to an entry of the map. -/
def put (config : Config types W) (name : String) (var : ConfigVarBase types W)
    (fits : var.2.name = name ∧ validName name = true) : Config types W where
  datas := config.datas.insert name var
  named := by
    intro other found stored
    rw [Std.ExtTreeMap.getElem?_insert] at stored
    split at stored
    · rename_i same
      obtain rfl := Std.LawfulEqCmp.eq_of_compare same
      exact Option.some.inj stored ▸ fits
    · exact config.named other found stored

@[simp] theorem lookupBase_put (config : Config types W) (name other : String)
    (var : ConfigVarBase types W) (fits : var.2.name = name ∧ validName name = true) :
    (config.put name var fits).lookupBase other =
      if name = other then some var else config.lookupBase other := by
  simp only [lookupBase, put, Std.ExtTreeMap.getElem?_insert, Std.LawfulEqCmp.compare_eq_iff_eq]

/-- `Lookup<T>`: the cast succeeds for the type the variable was created with. -/
def lookup [DecidableEq ι] (config : Config types W) (i : ι) (name : String) :
    Option (ConfigVar (types i) W) :=
  (config.lookupBase name).bind fun var =>
    if same : var.1 = i then some (same ▸ var.2) else none

def create [DecidableEq ι] (log : LogTo W) (config : Config types W) (i : ι) (name : String)
    (value : (types i).T) (description : String) (w : W) :
    Config types W × W × Except ConfigError (ConfigVar (types i) W) :=
  match config.lookupBase name with
  | some var =>
    if same : var.1 = i then
      (config, log .info ("Config::Create name=" ++ name ++ " already exists") w,
        .ok (same ▸ var.2))
    else (config, w, .error (.nameConflict name))
  | none =>
    if valid : validName name = true then
      let var := ConfigVar.new name value description
      (config.put name ⟨i, var⟩ ⟨rfl, valid⟩, w, .ok var)
    else
      (config, log .error ("Config::Lookup name is invalid, name=" ++ name) w,
        .error (.invalidName name))

end Config

end ZnetServer
