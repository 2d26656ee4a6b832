import ZnetServer.Config
import ZnetServer.ObjectStore

set_option autoImplicit false

/- The registry as the rest of the program holds it: a map of pointers to variables. -/
namespace ZnetServer

open ObjectStore

variable {ι : Type} (types : ι → ConfigType) (W : Type)

/-- `GetDatas()` and the variables behind the pointers. -/
structure ConfigRegistry where
  vars : Store (ConfigVarBase types W)
  datas : Std.ExtTreeMap String Nat

inductive RegistryCall
  | create (i : ι) (name : String) (value : (types i).T) (description : String)
  | lookup (i : ι) (name : String)
  | lookupBase (name : String)
  /-- A method of the variable, called by whoever holds the pointer. -/
  | use (r : Nat) (method : ∀ i, ConfigVar (types i) W → ConfigVar (types i) W)
      (named : ∀ i var, (method i var).name = var.name)

variable {types W}

def RegistryCall.Uses (r : Nat) : RegistryCall types W → Prop
  | .use other _ _ => other = r
  | .create .. | .lookup .. | .lookupBase _ => False

namespace ConfigRegistry

def empty : ConfigRegistry types W := ⟨.empty, ∅⟩

def lookupBase (reg : ConfigRegistry types W) (name : String) : Option Nat := reg.datas[name]?

/-- A variable of the type is registered under the name. -/
def Holds (reg : ConfigRegistry types W) (i : ι) (name : String) (r : Nat) : Prop :=
  reg.datas[name]? = some r ∧ ∃ var : ConfigVar (types i) W, reg.vars.read r = some ⟨i, var⟩

def WellFormed (reg : ConfigRegistry types W) : Prop :=
  ∀ name r, reg.datas[name]? = some r →
    ∃ var, reg.vars.read r = some var ∧ var.2.name = name ∧ validName name = true

theorem empty_wellFormed : (empty : ConfigRegistry types W).WellFormed := by
  intro name r stored
  simp [empty] at stored

variable [DecidableEq ι]

/-- `std::dynamic_pointer_cast<ConfigVar<T>>` -/
def cast (reg : ConfigRegistry types W) (i : ι) (r : Nat) : Option Nat :=
  (reg.vars.read r).bind fun var => if var.1 = i then some r else none

def lookup (reg : ConfigRegistry types W) (i : ι) (name : String) : Option Nat :=
  (reg.lookupBase name).bind (reg.cast i)

def create (log : LogTo W) (reg : ConfigRegistry types W) (i : ι) (name : String)
    (value : (types i).T) (description : String) (w : W) :
    ConfigRegistry types W × W × Except ConfigError Nat :=
  match reg.lookupBase name with
  | some tmp => match reg.cast i tmp with
    | some casted =>
      (reg, log .info ("Config::Create name=" ++ name ++ " already exists") w, .ok casted)
    | none => (reg, w, .error (.nameConflict name))
  | none =>
    if validName name = true then
      ({ vars := reg.vars.alloc ⟨i, .new name value description⟩,
         datas := reg.datas.insert name reg.vars.next }, w, .ok reg.vars.next)
    else
      (reg, log .error ("Config::Lookup name is invalid, name=" ++ name) w,
        .error (.invalidName name))

/-- What a call leaves; a lookup leaves everything. -/
def perform (log : LogTo W) (s : ConfigRegistry types W × W) :
    RegistryCall types W → ConfigRegistry types W × W
  | .create i name value description =>
      let result := s.1.create log i name value description s.2
      (result.1, result.2.1)
  | .lookup _ _ | .lookupBase _ => s
  | .use r method _ =>
    ({ s.1 with vars := s.1.vars.modify r fun var => ⟨var.1, method _ var.2⟩ }, s.2)

def performAll (log : LogTo W) (s : ConfigRegistry types W × W)
    (calls : List (RegistryCall types W)) : ConfigRegistry types W × W :=
  calls.foldl (perform log) s

section Create

variable (log : LogTo W) (reg : ConfigRegistry types W) (i : ι) (name : String)
  (value : (types i).T) (description : String) (w : W)

/-- Everything that `Create` can do. -/
inductive Created : ConfigRegistry types W × W × Except ConfigError Nat → Prop
  | found (r : Nat) (registered : reg.datas[name]? = some r) (same : reg.cast i r = some r) :
      Created (reg, log .info ("Config::Create name=" ++ name ++ " already exists") w, .ok r)
  | conflict (r : Nat) (registered : reg.datas[name]? = some r) (other : reg.cast i r = none) :
      Created (reg, w, .error (.nameConflict name))
  | made (unknown : reg.datas[name]? = none) (valid : validName name = true) :
      Created (⟨reg.vars.alloc ⟨i, .new name value description⟩,
        reg.datas.insert name reg.vars.next⟩, w, .ok reg.vars.next)
  | invalid (unknown : reg.datas[name]? = none) (invalid : validName name = false) :
      Created (reg, log .error ("Config::Lookup name is invalid, name=" ++ name) w,
        .error (.invalidName name))

theorem cast_eq {r casted : Nat} (cast : reg.cast i r = some casted) : casted = r := by
  obtain ⟨var, _, same⟩ := Option.bind_eq_some_iff.mp cast
  split at same
  · exact (Option.some.inj same).symm
  · cases same

theorem create_cases :
    Created log reg i name value description w (reg.create log i name value description w) := by
  unfold create lookupBase
  cases registered : reg.datas[name]? with
  | some tmp =>
      cases cast : reg.cast i tmp with
      | some casted =>
          obtain rfl := cast_eq reg i cast
          simp only [cast]
          exact .found casted registered cast
      | none =>
          simp only [cast]
          exact .conflict tmp registered cast
  | none =>
      cases valid : validName name with
      | true =>
          simp only [↓reduceIte]
          exact .made registered valid
      | false =>
          simp only [Bool.false_eq_true, ↓reduceIte]
          exact .invalid registered valid

variable {reg i name value description w}

theorem create_throws {error : ConfigError}
    (throws : (reg.create log i name value description w).2.2 = .error error) :
    (reg.create log i name value description w).1 = reg := by
  have outcome := create_cases log reg i name value description w
  cases created : reg.create log i name value description w with
  | mk after rest =>
      rw [created] at outcome throws
      cases outcome with
      | found r registered same => rfl
      | conflict r registered other => rfl
      | made unknown valid => cases throws
      | invalid unknown bad => rfl

theorem create_holds {r : Nat}
    (returns : (reg.create log i name value description w).2.2 = .ok r) :
    Holds (reg.create log i name value description w).1 i name r := by
  have outcome := create_cases log reg i name value description w
  cases created : reg.create log i name value description w with
  | mk after rest =>
      rw [created] at outcome returns
      cases outcome with
      | found casted registered same =>
          obtain rfl := Except.ok.inj returns
          obtain ⟨var, read, typed⟩ := Option.bind_eq_some_iff.mp same
          split at typed
          · rename_i agrees
            subst agrees
            exact ⟨registered, var.2, read⟩
          · cases typed
      | conflict casted registered other => cases returns
      | made unknown valid =>
          obtain rfl := Except.ok.inj returns
          refine ⟨Std.ExtTreeMap.getElem?_insert_self, .new name value description, ?_⟩
          rw [Store.read_alloc, if_pos rfl]
      | invalid unknown bad => cases returns

end Create

section Answers

variable {reg : ConfigRegistry types W} {i : ι} {name : String} {r : Nat}

theorem Holds.cast_self (holds : reg.Holds i name r) : reg.cast i r = some r := by
  obtain ⟨var, read⟩ := holds.2
  rw [cast, read, Option.bind_some, if_pos rfl]

theorem Holds.cast_other (holds : reg.Holds i name r) {j : ι} (other : j ≠ i) :
    reg.cast j r = none := by
  obtain ⟨var, read⟩ := holds.2
  rw [cast, read, Option.bind_some, if_neg (Ne.symm other)]

theorem Holds.lookup (holds : reg.Holds i name r) : reg.lookup i name = some r := by
  rw [ConfigRegistry.lookup, lookupBase, holds.1, Option.bind_some, holds.cast_self]

theorem Holds.lookup_other (holds : reg.Holds i name r) {j : ι} (other : j ≠ i) :
    reg.lookup j name = none := by
  rw [ConfigRegistry.lookup, lookupBase, holds.1, Option.bind_some, holds.cast_other other]

theorem Holds.create (holds : reg.Holds i name r) (log : LogTo W) (value : (types i).T)
    (description : String) (w : W) : reg.create log i name value description w =
      (reg, log .info ("Config::Create name=" ++ name ++ " already exists") w, .ok r) := by
  simp only [ConfigRegistry.create, lookupBase, holds.1, holds.cast_self]

theorem Holds.create_other (holds : reg.Holds i name r) {j : ι} (other : j ≠ i) (log : LogTo W)
    (value : (types j).T) (description : String) (w : W) :
    reg.create log j name value description w = (reg, w, .error (.nameConflict name)) := by
  simp only [ConfigRegistry.create, lookupBase, holds.1, holds.cast_other other]

end Answers

section Values

/-- The registry by value that the pointers lead to. -/
def Shows (reg : ConfigRegistry types W) (config : Config types W) : Prop :=
  ∀ name, config.lookupBase name = (reg.datas[name]?).bind reg.vars.read

variable {reg : ConfigRegistry types W} {config : Config types W}

theorem Shows.lookup (shows_ : reg.Shows config) (i : ι) (name : String) :
    (reg.lookup i name).bind reg.vars.read = (config.lookup i name).map (⟨i, ·⟩) := by
  rw [ConfigRegistry.lookup, lookupBase, Config.lookup, shows_ name]
  cases registered : reg.datas[name]? with
  | none => rfl
  | some r =>
      rw [Option.bind_some, Option.bind_some, cast]
      cases read : reg.vars.read r with
      | none => rfl
      | some var =>
          rw [Option.bind_some, Option.bind_some]
          by_cases same : var.1 = i
          · subst same
            rw [if_pos rfl, dif_pos rfl, Option.bind_some, read]
            rfl
          · rw [if_neg same, dif_neg same]
            rfl

omit [DecidableEq ι] in
/-- A new variable is behind its own name, and what was behind the others stays there. -/
theorem Shows.alloc (shows_ : reg.Shows config) (wf : reg.WellFormed) {name : String}
    (var : ConfigVarBase types W) (fits : var.2.name = name ∧ validName name = true) :
    Shows ⟨reg.vars.alloc var, reg.datas.insert name reg.vars.next⟩
      (config.put name var fits) := by
  intro other
  rw [Config.lookupBase_put, Std.ExtTreeMap.getElem?_insert]
  by_cases same : name = other
  · rw [if_pos same, if_pos (Std.LawfulEqCmp.compare_eq_iff_eq.mpr same), Option.bind_some,
      Store.read_alloc, if_pos rfl]
  · have apart : ¬ compare name other = .eq :=
      fun equal => same (Std.LawfulEqCmp.eq_of_compare equal)
    rw [if_neg same, if_neg apart, shows_ other]
    cases registered : reg.datas[other]? with
    | none => rfl
    | some r =>
        obtain ⟨found, read, _⟩ := wf other r registered
        rw [Option.bind_some, Option.bind_some, Store.read_alloc,
          if_neg (Nat.ne_of_lt (Store.read_lt read))]

/-- Creating through pointers shows what creating by value does. -/
theorem Shows.create (shows_ : reg.Shows config) (wf : reg.WellFormed) (log : LogTo W) (i : ι)
    (name : String) (value : (types i).T) (description : String) (w : W) :
    let made := reg.create log i name value description w
    let byValue := config.create log i name value description w
    made.1.Shows byValue.1 ∧ made.2.1 = byValue.2.1 ∧
      made.2.2.map made.1.vars.read = byValue.2.2.map (some ⟨i, ·⟩) := by
  have looks := shows_ name
  simp only [ConfigRegistry.create, Config.create, lookupBase]
  cases registered : reg.datas[name]? with
  | none =>
      rw [registered, Option.bind_none] at looks
      simp only [looks]
      by_cases valid : validName name = true
      · simp only [valid, ↓reduceIte, ↓reduceDIte, Except.map, Store.read_alloc]
        exact ⟨shows_.alloc wf _ _, trivial, trivial⟩
      · simp only [valid, Bool.false_eq_true, ↓reduceIte, ↓reduceDIte]
        exact ⟨shows_, trivial, rfl⟩
  | some r =>
      obtain ⟨var, read, _⟩ := wf name r registered
      rw [registered, Option.bind_some, read] at looks
      simp only [looks, cast, read, Option.bind_some]
      by_cases same : var.1 = i
      · subst same
        simp only [↓reduceIte, ↓reduceDIte, Except.map, read]
        exact ⟨shows_, trivial, trivial⟩
      · simp only [same, ↓reduceIte, ↓reduceDIte]
        exact ⟨shows_, trivial, rfl⟩

end Values

section Runs

variable (log : LogTo W) {s : ConfigRegistry types W × W}

/-- What a call does to the registry: nothing, a new variable under a new name, or a method
of a variable. -/
inductive Effect (reg : ConfigRegistry types W) :
    RegistryCall types W → ConfigRegistry types W → Prop
  | none (call : RegistryCall types W) : Effect reg call reg
  | made {i : ι} {name : String} (value : (types i).T) (description : String)
      (unknown : reg.datas[name]? = none) (valid : validName name = true) :
      Effect reg (.create i name value description)
        ⟨reg.vars.alloc ⟨i, .new name value description⟩, reg.datas.insert name reg.vars.next⟩
  | used {r : Nat} (method : ∀ i, ConfigVar (types i) W → ConfigVar (types i) W)
      (named : ∀ i var, (method i var).name = var.name) :
      Effect reg (.use r method named)
        { reg with vars := reg.vars.modify r fun var => ⟨var.1, method var.1 var.2⟩ }

theorem perform_effect (s : ConfigRegistry types W × W) (call : RegistryCall types W) :
    Effect s.1 call (perform log s call).1 := by
  cases call with
  | create i name value description =>
      have outcome := create_cases log s.1 i name value description s.2
      change Effect s.1 _ (s.1.create log i name value description s.2).1
      cases created : s.1.create log i name value description s.2 with
      | mk after rest =>
          rw [created] at outcome
          cases outcome with
          | found r registered same => exact .none _
          | conflict r registered other => exact .none _
          | made unknown valid => exact .made value description unknown valid
          | invalid unknown bad => exact .none _
  | lookup i name => exact .none _
  | lookupBase name => exact .none _
  | use r method named => exact .used method named

theorem Holds.perform {i : ι} {name : String} {r : Nat} (holds : s.1.Holds i name r)
    (call : RegistryCall types W) : (ConfigRegistry.perform log s call).1.Holds i name r := by
  obtain ⟨registered, var, read⟩ := holds
  have effect := perform_effect log s call
  generalize (ConfigRegistry.perform log s call).1 = after at effect ⊢
  cases effect with
  | none => exact ⟨registered, var, read⟩
  | made value description unknown valid =>
      constructor
      · rw [Std.ExtTreeMap.getElem?_insert]
        split
        · rename_i same
          rw [Std.LawfulEqCmp.eq_of_compare same, registered] at unknown
          cases unknown
        · exact registered
      · have old : r ≠ s.1.vars.next := Nat.ne_of_lt (Store.read_lt read)
        exact ⟨var, by rw [Store.read_alloc, if_neg old, read]⟩
  | used method named =>
      refine ⟨registered, ?_⟩
      rw [Store.read_modify]
      split
      · rename_i same
        subst same
        exact ⟨method i var, by rw [read, Option.map_some]⟩
      · exact ⟨var, read⟩

theorem WellFormed.perform (wf : s.1.WellFormed) (call : RegistryCall types W) :
    (ConfigRegistry.perform log s call).1.WellFormed := by
  have effect := perform_effect log s call
  generalize (ConfigRegistry.perform log s call).1 = after at effect ⊢
  cases effect with
  | none => exact wf
  | @made i name value description unknown valid =>
      intro other r stored
      rw [Std.ExtTreeMap.getElem?_insert] at stored
      split at stored
      · rename_i same
        obtain rfl := Option.some.inj stored
        obtain rfl := Std.LawfulEqCmp.eq_of_compare same
        exact ⟨⟨i, .new name value description⟩, by rw [Store.read_alloc, if_pos rfl], rfl, valid⟩
      · obtain ⟨var, read, named⟩ := wf other r stored
        have old : r ≠ s.1.vars.next := Nat.ne_of_lt (Store.read_lt read)
        exact ⟨var, by rw [Store.read_alloc, if_neg old, read], named⟩
  | @used r method named =>
      intro name q stored
      obtain ⟨var, read, holder, valid⟩ := wf name q stored
      rw [Store.read_modify]
      split
      · rename_i same
        subst same
        exact ⟨⟨var.1, method var.1 var.2⟩, by rw [read, Option.map_some],
          (named var.1 var.2).trans holder, valid⟩
      · exact ⟨var, read, holder, valid⟩

theorem read_perform {r : Nat} {var : ConfigVarBase types W} (read : s.1.vars.read r = some var)
    {call : RegistryCall types W} (unused : ¬ call.Uses r) :
    (perform log s call).1.vars.read r = some var := by
  have effect := perform_effect log s call
  generalize (perform log s call).1 = after at effect ⊢
  cases effect with
  | none => exact read
  | made value description unknown valid =>
      rw [Store.read_alloc, if_neg (Nat.ne_of_lt (Store.read_lt read)), read]
  | @used other method named =>
      have apart : other ≠ r := unused
      rw [Store.read_modify, if_neg apart, read]

theorem WellFormed.performAll (wf : s.1.WellFormed) (calls : List (RegistryCall types W)) :
    (ConfigRegistry.performAll log s calls).1.WellFormed := by
  induction calls generalizing s with
  | nil => exact wf
  | cons call rest ih => exact ih (wf.perform log call)

theorem Holds.performAll {i : ι} {name : String} {r : Nat} (holds : s.1.Holds i name r)
    (calls : List (RegistryCall types W)) :
    (ConfigRegistry.performAll log s calls).1.Holds i name r := by
  induction calls generalizing s with
  | nil => exact holds
  | cons call rest ih => exact ih (holds.perform log call)

theorem read_performAll {r : Nat} {var : ConfigVarBase types W}
    (read : s.1.vars.read r = some var) {calls : List (RegistryCall types W)}
    (unused : ∀ call ∈ calls, ¬ call.Uses r) :
    (performAll log s calls).1.vars.read r = some var := by
  induction calls generalizing s with
  | nil => exact read
  | cons call rest ih =>
      have first := read_perform log read (unused call List.mem_cons_self)
      exact ih first fun other member => unused other (List.mem_cons_of_mem call member)

/-- In every run the keys are valid and the names of their variables, and a call that throws
leaves the registry alone. What `Create` returned for a type and a name is from then on
what every entry point returns for them, with the value that its holders give it, and the
name stays closed to every other type. -/
theorem registry_grows (w : W) (calls : List (RegistryCall types W)) :
    let s := performAll log (empty, w) calls
    s.1.WellFormed ∧
      ∀ (i : ι) (name : String) (value : (types i).T) (description : String),
        let made := s.1.create log i name value description s.2
        (∀ error, made.2.2 = .error error → made.1 = s.1) ∧
          ∀ r, made.2.2 = .ok r → ∀ later : List (RegistryCall types W),
            let t := performAll log (made.1, made.2.1) later
            t.1.lookup i name = some r ∧ t.1.lookupBase name = some r ∧
              (∀ other note, (t.1.create log i name other note t.2).1 = t.1 ∧
                (t.1.create log i name other note t.2).2.2 = .ok r) ∧
              (∀ j, j ≠ i → t.1.lookup j name = none ∧ ∀ other note,
                t.1.create log j name other note t.2 = (t.1, t.2, .error (.nameConflict name))) ∧
              ((∀ call ∈ later, ¬ call.Uses r) → t.1.vars.read r = made.1.vars.read r) := by
  intro s
  refine ⟨empty_wellFormed.performAll log calls, fun i name value description => ?_⟩
  intro made
  refine ⟨fun error throws => create_throws log throws, fun r returns later => ?_⟩
  intro t
  have created : made.1.Holds i name r := create_holds log returns
  have holds : t.1.Holds i name r := created.performAll log (s := (made.1, made.2.1)) later
  obtain ⟨registered, var, read⟩ := created
  refine ⟨holds.lookup, holds.1, fun other note => ?_, fun j different => ?_, fun unused => ?_⟩
  · rw [holds.create log other note t.2]
    exact ⟨rfl, rfl⟩
  · exact ⟨holds.lookup_other different,
      fun other note => holds.create_other different log other note t.2⟩
  · rw [read]
    exact read_performAll log (s := (made.1, made.2.1)) read unused

end Runs

/-- Texts and flags. -/
def sampleTypes : Bool → ConfigType
  | true => { T := String, eq := (· == ·), fromStr := .ok, toStr := .ok }
  | false =>
    { T := Bool, eq := (· == ·), fromStr := fun text => .ok (text == "1"),
      toStr := fun _ => .ok "" }

/-- Creating, conflicting and failing calls. -/
def sampleCalls : List (RegistryCall sampleTypes Unit) :=
  [.create true "port" "80" "", .lookup false "port", .create false "port" true "",
    .create true "a-b" "" ""]

theorem registry_grows_port :
    let s := performAll (fun _ _ w => w) ((empty, ()) : ConfigRegistry sampleTypes Unit × Unit)
      [.create true "log.level" "info" ""]
    let made := s.1.create (fun _ _ w => w) false "port" false "" s.2
    let t := performAll (fun _ _ w => w) (made.1, made.2.1) sampleCalls
    t.1.lookup false "port" = some 1 ∧ t.1.lookup true "port" = none ∧
      t.1.vars.read 1 = made.1.vars.read 1 := by
  intro s made t
  have grows := registry_grows (fun _ _ w => w) ()
    ([.create true "log.level" "info" ""] : List (RegistryCall sampleTypes Unit))
  have returns : made.2.2 = .ok 1 := by
    rfl
  obtain ⟨own, _, _, others, untouched⟩ :=
    (grows.2 false "port" false "").2 1 returns sampleCalls
  have unused : ∀ call ∈ sampleCalls, ¬ call.Uses 1 := by
    simp [sampleCalls, RegistryCall.Uses]
  exact ⟨own, (others true (by decide)).1, untouched unused⟩

end ConfigRegistry

end ZnetServer
