import Mathlib.Data.List.Basic

set_option autoImplicit false

/- The nodes of yaml-cpp as the program reads and builds them. Parsing and printing
are the library's, so they are members of `YamlCpp`. -/
namespace ZnetServer.Yaml

inductive Node where
  | null
  | scalar (text : String)
  | sequence (items : List Node)
  | map (entries : List (Node × Node))

namespace Node

/-- `Node::Scalar()` -/
def text : Node → String
  | .scalar text => text
  | _ => ""

/-- `Node::IsScalar()` -/
def isScalar : Node → Bool
  | .scalar _ => true
  | _ => false

/-- `Node::size()` -/
def size : Node → Nat
  | .sequence items => items.length
  | .map entries => entries.length
  | _ => 0

/-- A node that starts as `YAML::Node node;` and is assigned under each key once. -/
def ofFields : List (String × Node) → Node
  | [] => .null
  | fields => .map (fields.map fun field => (.scalar field.1, field.2))

/-- A node that starts undefined and is filled by `push_back`. -/
def ofItems : List Node → Node
  | [] => .null
  | items => .sequence items

end Node

/-- Exceptions of the library, all below `std::exception`. -/
abbrev Fault := String

structure YamlCpp where
  /-- `YAML::Load` -/
  load : String → Except Fault Node
  /-- `YAML::Dump` -/
  dump : Node → String
  /-- `operator<<` -/
  emit : Node → String
  /-- What `as<std::string>()` makes of a Null node, if it does not throw. -/
  nullText : Option String
  /-- A map key read as a `size_t`. -/
  keyIndex : String → Option Nat

/-- A library that reads nothing. -/
instance : Inhabited YamlCpp where
  default := {
    load := fun _ => .error "bad file"
    dump := fun _ => ""
    emit := fun _ => ""
    nullText := none
    keyIndex := fun _ => none }

namespace Node

/-- `node[key]` for a string; `none` is the undefined node. -/
def get (key : String) : Option Node → Except Fault (Option Node)
  | some (.scalar _) => .error "operator[] call on a scalar"
  | some (.map entries) =>
      .ok ((entries.find? fun entry => entry.1.isScalar && entry.1.text == key).map Prod.snd)
  | some (.sequence _) | some .null | none => .ok none

/-- `node[i]` for a `size_t`. -/
def at_ (yaml : YamlCpp) (i : Nat) : Option Node → Except Fault (Option Node)
  | some (.scalar _) => .error "operator[] call on a scalar"
  | some (.sequence items) => .ok items[i]?
  | some (.map entries) => .ok ((entries.find? fun entry =>
      entry.1.isScalar && yaml.keyIndex entry.1.text == some i).map Prod.snd)
  | some .null | none => .ok none

/-- `node.as<std::string>()` -/
def asString (yaml : YamlCpp) : Option Node → Except Fault String
  | some (.scalar text) => .ok text
  | some .null => match yaml.nullText with
    | some text => .ok text
    | none => .error "bad conversion"
  | _ => .error "bad conversion"

/-- `node[key].as<std::string>()` -/
def textAt (yaml : YamlCpp) (key : String) (node : Option Node) : Except Fault String := do
  asString yaml (← get key node)

/-- The same behind `node[key].IsDefined()`. -/
def textIfDefined (yaml : YamlCpp) (key : String) (node : Option Node) :
    Except Fault (Option String) := do
  match ← get key node with
  | none => .ok none
  | some found => some <$> asString yaml (some found)

/-- `ss << node`; an undefined node prints nothing. -/
def emitted (yaml : YamlCpp) : Option Node → String
  | none => ""
  | some node => yaml.emit node

end Node

section Access

variable {α β : Type}

theorem mapM_ok {f : α → Except Fault β} {g : α → β} {items : List α}
    (each : ∀ item ∈ items, f item = .ok (g item)) : items.mapM f = .ok (items.map g) := by
  induction items with
  | nil => rfl
  | cons item rest ih =>
      have later := ih fun other member => each other (List.mem_cons_of_mem item member)
      rw [List.mapM_cons, each item List.mem_cons_self, later]
      rfl

/-- A step that succeeds passes its result on. -/
theorem bind_ok_iff {x : Except Fault α} {f : α → Except Fault β} {b : β} :
    (x >>= f) = .ok b ↔ ∃ a, x = .ok a ∧ f a = .ok b := by
  cases x with
  | error what => simp [bind, Except.bind]
  | ok a => simp [bind, Except.bind]

theorem mem_mapM {f : α → Except Fault β} {items : List α} {read : List β}
    (all : items.mapM f = .ok read) {y : β} (member : y ∈ read) :
    ∃ item ∈ items, f item = .ok y := by
  induction items generalizing read with
  | nil =>
      obtain rfl := Except.ok.inj all
      cases member
  | cons item rest ih =>
      rw [List.mapM_cons, bind_ok_iff] at all
      obtain ⟨head, first, all⟩ := all
      rw [bind_ok_iff] at all
      obtain ⟨tail, later, whole⟩ := all
      rw [← Except.ok.inj whole] at member
      rcases List.mem_cons.mp member with rfl | inside
      · exact ⟨item, List.mem_cons_self, first⟩
      · obtain ⟨other, among, reads⟩ := ih later inside
        exact ⟨other, List.mem_cons_of_mem item among, reads⟩

/-- A loop ends if each step does. -/
theorem mapM_ok_iff {f : α → Except Fault β} {items : List α} :
    (∃ read, items.mapM f = .ok read) ↔ ∀ item ∈ items, ∃ y, f item = .ok y := by
  induction items with
  | nil => exact ⟨fun _ item inside => (List.not_mem_nil inside).elim, fun _ => ⟨[], rfl⟩⟩
  | cons item rest ih =>
      rw [List.forall_mem_cons, ← ih]
      simp only [List.mapM_cons, bind_ok_iff]
      constructor
      · intro ⟨_, head, first, tail, later, _⟩
        exact ⟨⟨head, first⟩, ⟨tail, later⟩⟩
      · intro ⟨⟨head, first⟩, ⟨tail, later⟩⟩
        exact ⟨head :: tail, head, first, tail, later, rfl⟩

/-- What a loop reads, seen through a function of each item. -/
theorem map_mapM {γ : Type} {f : α → Except Fault β} {g : β → γ} {h : α → γ}
    (each : ∀ item y, f item = .ok y → g y = h item) {items : List α} {read : List β}
    (all : items.mapM f = .ok read) : read.map g = items.map h := by
  induction items generalizing read with
  | nil =>
      rw [← Except.ok.inj all]
      rfl
  | cons item rest ih =>
      rw [List.mapM_cons, bind_ok_iff] at all
      obtain ⟨head, first, all⟩ := all
      obtain ⟨tail, later, whole⟩ := bind_ok_iff.mp all
      rw [← Except.ok.inj whole, List.map_cons, List.map_cons, each item head first, ih later]

/-- A loop over the places of a list reads each item. -/
theorem mapM_places {f : Option α → Except Fault β} {g : α → β} {items : List α}
    (each : ∀ item ∈ items, f (some item) = .ok (g item)) :
    (List.range items.length).mapM (fun i => f items[i]?) = .ok (items.map g) := by
  have places : (List.range items.length).map (items[·]?) = items.map some := by
    apply List.ext_getElem (by simp)
    intro i inside _
    have bound : i < items.length := by simpa using inside
    simp [bound]
  have loop : (List.range items.length).mapM (fun i => f items[i]?) =
      ((List.range items.length).map (items[·]?)).mapM f := List.mapM_map.symm
  rw [loop, places, List.mapM_map]
  exact mapM_ok each

namespace Node

/-- The loop of a decoder over a node that was filled by `push_back`. -/
theorem mapM_at (yaml : YamlCpp) {f : Option Node → Except Fault β} {g : α → β}
    {encode : α → Node} {items : List α}
    (each : ∀ item ∈ items, f (some (encode item)) = .ok (g item)) :
    ((List.range (ofItems (items.map encode)).size).mapM fun i => do
      f (← at_ yaml i (some (ofItems (items.map encode))))) = .ok (items.map g) := by
  cases items with
  | nil => rfl
  | cons item rest =>
      have read := mapM_places (f := fun place => f (place.map encode)) each
      have size : (ofItems ((item :: rest).map encode)).size = (item :: rest).length :=
        List.length_map encode
      have body : ∀ i, (do f (← at_ yaml i (some (ofItems ((item :: rest).map encode))))) =
          f ((item :: rest)[i]?.map encode) := by
        intro i
        rw [← List.getElem?_map]
        rfl
      simp only [size, body, read]

theorem get_ofFields (key : String) (fields : List (String × Node)) :
    get key (some (ofFields fields)) =
      .ok ((fields.find? (·.1 == key)).map Prod.snd) := by
  cases fields with
  | nil => rfl
  | cons field rest =>
      simp only [ofFields, get, List.find?_map, Option.map_map]
      rfl

end Node

end Access

/-- Nodes built from maps with distinct string keys, sequences and string scalars. -/
inductive Built : Node → Prop
  | scalar (text : String) : Built (.scalar text)
  | sequence {items : List Node} (nonempty : items ≠ []) (parts : ∀ item ∈ items, Built item) :
      Built (.sequence items)
  | map {fields : List (String × Node)} (nonempty : fields ≠ [])
      (distinct : (fields.map Prod.fst).Nodup) (parts : ∀ field ∈ fields, Built field.2) :
      Built (.ofFields fields)

/-- `Load` undoes `Dump` and `operator<<`. -/
structure YamlCpp.Faithful (yaml : YamlCpp) : Prop where
  load_dump : ∀ node, Built node → yaml.load (yaml.dump node) = .ok node
  load_emit : ∀ node, Built node → yaml.load (yaml.emit node) = .ok node

/-- The same on every node, a Null one included. -/
structure YamlCpp.Undoes (yaml : YamlCpp) : Prop where
  load_dump : ∀ node, yaml.load (yaml.dump node) = .ok node
  load_emit : ∀ node, yaml.load (yaml.emit node) = .ok node

end ZnetServer.Yaml
