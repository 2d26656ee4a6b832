import Mathlib.Data.List.Basic
import ZnetServer.ConfigLoad

set_option autoImplicit false

/- Which nodes `ListAllYamlMember` lists and under which names, said by the places of
entries in the maps above them. -/
namespace ZnetServer.Config

open Yaml

/-- The node at a place below another, with the texts of the keys on the way; only maps are
entered. -/
def descend : Node → List Nat → Option (List String × Node)
  | node, [] => some ([], node)
  | .map entries, i :: path =>
      (entries[i]?).bind fun entry =>
        (descend entry.2 path).map fun found => (entry.1.text :: found.1, found.2)
  | .null, _ :: _ | .scalar _, _ :: _ | .sequence _, _ :: _ => none

/-- A place, the keys on the way and the node there. -/
abbrev Address := List Nat × List String × Node

/-- The same place seen from the map that has the node as its `i`-th value. -/
def Address.below (i : Nat) (key : String) (address : Address) : Address :=
  (i :: address.1, key :: address.2.1, address.2.2)

mutual

/-- The nodes below valid keys only. -/
def addresses : Node → List Address
  | .map entries => ([], [], .map entries) :: entryAddresses entries 0
  | .null => [([], [], .null)]
  | .scalar text => [([], [], .scalar text)]
  | .sequence items => [([], [], .sequence items)]

def entryAddresses : List (Node × Node) → Nat → List Address
  | [], _ => []
  | (key, value) :: rest, i =>
      (if validName key.text then (addresses value).map (Address.below i key.text) else []) ++
        entryAddresses rest (i + 1)

end

/-- The name that keys are joined to behind a prefix. -/
def joined (pre : String) (keys : List String) : String := keys.foldl dotted pre

section Names

theorem dotted_valid {pre : String} (valid : validName pre = true) (key : String) :
    validName (dotted pre key) = validName key := by
  unfold dotted
  split
  · rfl
  · have dot : validName "." = true := by decide
    rw [validName_append, validName_append, valid, dot, Bool.true_and, Bool.true_and]

end Names

section Listing

variable {W : Type} (log : LogTo W)

/-- What is listed for an address behind a prefix. -/
def listed (pre : String) (address : Address) : String × Node :=
  (joined pre address.2.1, address.2.2)

mutual

/-- Below a valid prefix the addresses are listed in order, below another nothing is. -/
theorem listAllYamlMember_addresses (node : Node) (pre : String)
    (output : List (String × Node) × W) : (listAllYamlMember log node pre output).1 =
      output.1 ++ if validName pre then (addresses node).map (listed pre) else [] := by
  by_cases valid : validName pre = true
  · rw [if_pos valid]
    cases node with
    | map entries =>
        rw [listAllYamlMember, if_pos valid, listEntries_addresses entries valid 0, addresses,
          List.map_cons, List.append_assoc]
        rfl
    | null | scalar | sequence =>
        rw [listAllYamlMember, if_pos valid, addresses]
        rfl
  · rw [if_neg valid, listAllYamlMember.eq_def, if_neg valid, List.append_nil]

theorem listEntries_addresses (entries : List (Node × Node)) {pre : String}
    (valid : validName pre = true) (i : Nat) (output : List (String × Node) × W) :
    (listEntries log entries pre output).1 =
      output.1 ++ (entryAddresses entries i).map (listed pre) := by
  match entries with
  | [] => rw [listEntries, entryAddresses, List.map_nil, List.append_nil]
  | (key, value) :: rest =>
      rw [listEntries, listEntries_addresses rest valid (i + 1),
        listAllYamlMember_addresses value, entryAddresses, dotted_valid valid, List.map_append,
        List.append_assoc]
      by_cases wanted : validName key.text = true
      · simp only [if_pos wanted, List.map_map]
        rfl
      · simp only [if_neg wanted, List.map_nil]

end

end Listing

section Places

theorem descend_nil (node : Node) : descend node [] = some ([], node) := by
  cases node <;> rfl

theorem descend_first (key value : Node) (rest : List (Node × Node)) (path : List Nat) :
    descend (.map ((key, value) :: rest)) (0 :: path) =
      (descend value path).map fun found => (key.text :: found.1, found.2) := rfl

theorem mem_below {i : Nat} {key : String} {list : List Address} {path : List Nat}
    {keys : List String} {found : Node} :
    (path, keys, found) ∈ list.map (Address.below i key) ↔
      ∃ path' keys', path = i :: path' ∧ keys = key :: keys' ∧ (path', keys', found) ∈ list := by
  constructor
  · intro member
    obtain ⟨address, inside, same⟩ := List.mem_map.mp member
    obtain ⟨rfl, rest⟩ := Prod.mk.inj same
    obtain ⟨rfl, rfl⟩ := Prod.mk.inj rest
    exact ⟨_, _, rfl, rfl, inside⟩
  · intro member
    obtain ⟨path', keys', rfl, rfl, inside⟩ := member
    exact List.mem_map.mpr ⟨_, inside, rfl⟩

mutual

/-- The addresses are the places that can be reached below valid keys. -/
theorem mem_addresses (node : Node) (path : List Nat) (keys : List String) (found : Node) :
    (path, keys, found) ∈ addresses node ↔
      descend node path = some (keys, found) ∧ ∀ key ∈ keys, validName key = true := by
  cases node with
  | map entries =>
      rw [addresses, List.mem_cons, mem_entryAddresses entries 0]
      cases path with
      | nil =>
          rw [descend_nil, Option.some.injEq]
          constructor
          · intro member
            rcases member with here | ⟨i, rest, below, _⟩
            · obtain ⟨_, rest⟩ := Prod.mk.inj here
              obtain ⟨rfl, rfl⟩ := Prod.mk.inj rest
              exact ⟨rfl, fun _ inside => by cases inside⟩
            · cases below
          · intro reached
            obtain ⟨rfl, rfl⟩ := Prod.mk.inj reached.1
            exact Or.inl rfl
      | cons i path =>
          constructor
          · intro member
            rcases member with here | ⟨j, rest, below, reached⟩
            · cases (Prod.mk.inj here).1
            · obtain ⟨rfl, rfl⟩ := List.cons.inj below
              rw [Nat.zero_add]
              exact reached
          · intro reached
            exact Or.inr ⟨i, path, by rw [Nat.zero_add], reached⟩
  | null | scalar | sequence =>
      cases path with
      | nil =>
          rw [addresses, List.mem_singleton, descend_nil, Option.some.injEq]
          constructor
          · intro here
            obtain ⟨_, rest⟩ := Prod.mk.inj here
            obtain ⟨rfl, rfl⟩ := Prod.mk.inj rest
            exact ⟨rfl, fun _ inside => by cases inside⟩
          · intro reached
            obtain ⟨rfl, rfl⟩ := Prod.mk.inj reached.1
            rfl
      | cons i path => simp [addresses, descend]

theorem mem_entryAddresses (entries : List (Node × Node)) (start : Nat) (path : List Nat)
    (keys : List String) (found : Node) : (path, keys, found) ∈ entryAddresses entries start ↔
      ∃ i rest, path = (start + i) :: rest ∧
        descend (.map entries) (i :: rest) = some (keys, found) ∧
          ∀ key ∈ keys, validName key = true := by
  match entries with
  | [] => simp [entryAddresses, descend]
  | (key, value) :: others =>
      rw [entryAddresses, List.mem_append, mem_entryAddresses others (start + 1)]
      constructor
      · intro member
        rcases member with first | ⟨i, rest, rfl, reached⟩
        · split at first
          · rename_i wanted
            obtain ⟨path', keys', rfl, rfl, inside⟩ := mem_below.mp first
            obtain ⟨reached, valid⟩ := (mem_addresses value path' keys' found).mp inside
            refine ⟨0, path', rfl, ?_, List.forall_mem_cons.mpr ⟨wanted, valid⟩⟩
            rw [descend_first, reached, Option.map_some]
          · cases first
        · refine ⟨i + 1, rest, ?_, reached⟩
          rw [show start + 1 + i = start + (i + 1) by omega]
      · intro member
        obtain ⟨i, rest, rfl, reached, valid⟩ := member
        cases i with
        | zero =>
            left
            rw [descend_first] at reached
            obtain ⟨⟨keys', own⟩, below, same⟩ := Option.map_eq_some_iff.mp reached
            obtain ⟨rfl, rfl⟩ := Prod.mk.inj same
            obtain ⟨wanted, others⟩ := List.forall_mem_cons.mp valid
            rw [if_pos wanted]
            exact mem_below.mpr ⟨rest, keys', rfl, rfl,
              (mem_addresses value rest keys' own).mpr ⟨below, others⟩⟩
        | succ i =>
            refine Or.inr ⟨i, rest, ?_, reached, valid⟩
            rw [show start + (i + 1) = start + 1 + i by omega]

end

mutual

theorem addresses_ordered (node : Node) :
    ((addresses node).map Prod.fst).Pairwise (· < ·) := by
  cases node with
  | map entries =>
      rw [addresses, List.map_cons, List.pairwise_cons]
      refine ⟨fun path member => ?_, entryAddresses_ordered entries 0⟩
      obtain ⟨⟨_, keys, found⟩, inside, rfl⟩ := List.mem_map.mp member
      obtain ⟨i, rest, rfl, _⟩ := (mem_entryAddresses entries 0 _ keys found).mp inside
      exact List.nil_lt_cons _ rest
  | null | scalar | sequence => exact List.pairwise_singleton _ _

theorem entryAddresses_ordered (entries : List (Node × Node)) (start : Nat) :
    ((entryAddresses entries start).map Prod.fst).Pairwise (· < ·) := by
  match entries with
  | [] => exact .nil
  | (key, value) :: others =>
      rw [entryAddresses, List.map_append, List.pairwise_append]
      refine ⟨?_, entryAddresses_ordered others (start + 1), fun first inside later outside => ?_⟩
      · split
        · have below : ((addresses value).map (Address.below start key.text)).map Prod.fst =
              ((addresses value).map Prod.fst).map (start :: ·) := by
            rw [List.map_map, List.map_map]
            rfl
          rw [below, List.pairwise_map]
          exact (addresses_ordered value).imp fun less => List.cons_lt_cons_self.mpr less
        · exact .nil
      · obtain ⟨⟨_, keys, found⟩, member, rfl⟩ := List.mem_map.mp outside
        obtain ⟨i, rest, rfl, _⟩ := (mem_entryAddresses others (start + 1) _ keys found).mp member
        obtain ⟨⟨path, names, own⟩, within, rfl⟩ := List.mem_map.mp inside
        split at within
        · obtain ⟨path', _, rfl, _, _⟩ := mem_below.mp within
          exact List.cons_lt_cons_iff.mpr (Or.inl (by omega))
        · cases within

end

end Places

/-- Listing from the root appends one pair for each place that is reached through maps below
valid keys only, in pre-order, with the keys joined and the node there. -/
theorem listAllYamlMember_exact {W : Type} (log : LogTo W) (root : Node)
    (output : List (String × Node)) (w : W) :
    ∃ places : List Address, (places.map Prod.fst).Pairwise (· < ·) ∧
      (∀ path keys found, (path, keys, found) ∈ places ↔
        descend root path = some (keys, found) ∧ ∀ key ∈ keys, validName key = true) ∧
      (listAllYamlMember log root "" (output, w)).1 =
        output ++ places.map fun place => (joined "" place.2.1, place.2.2) := by
  refine ⟨addresses root, addresses_ordered root, mem_addresses root, ?_⟩
  exact listAllYamlMember_addresses log root "" (output, w)

end ZnetServer.Config
