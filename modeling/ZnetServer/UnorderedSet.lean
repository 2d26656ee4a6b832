import Mathlib.Data.List.Nodup

set_option autoImplicit false

/- Sets with one element a key and no order of their own. -/

universe u v

/-- The elements in the order in which an iteration happens to find them. -/
structure UnorderedSet {α : Type u} {κ : Type v} (key : α → κ) where
  toList : List α
  apart : (toList.map key).Nodup

namespace UnorderedSet

variable {α : Type u} {κ : Type v} {key : α → κ}

def empty : UnorderedSet key := ⟨[], List.nodup_nil⟩

/-- A new element, which no equivalent one precedes. -/
def add (set : UnorderedSet key) (x : α) (fresh : key x ∉ set.toList.map key) :
    UnorderedSet key where
  toList := set.toList ++ [x]
  apart := by
    rw [List.map_append, List.map_cons, List.map_nil]
    exact set.apart.append (List.nodup_singleton _) (by simpa using fresh)

/-- Filling a set with elements of distinct keys keeps them all, in their order. -/
theorem toList_foldl {fill : UnorderedSet key → α → UnorderedSet key}
    (adds : ∀ set x fresh, fill set x = set.add x fresh) (set : UnorderedSet key)
    {elements : List α} (apart : ((set.toList ++ elements).map key).Nodup) :
    (elements.foldl fill set).toList = set.toList ++ elements := by
  induction elements generalizing set with
  | nil => rw [List.foldl_nil, List.append_nil]
  | cons x rest ih =>
      have fresh : key x ∉ set.toList.map key := by
        intro old
        rw [List.map_append, List.map_cons] at apart
        exact (List.nodup_append.mp apart).2.2 (key x) old (key x) List.mem_cons_self rfl
      have shape : (set.add x fresh).toList ++ rest = set.toList ++ x :: rest := by
        rw [add, List.append_assoc, List.singleton_append]
      rw [List.foldl_cons, adds set x fresh, ih (set.add x fresh) (by rwa [shape]), shape]

/-- Nothing is in a filled set but what was there and what was put in. -/
theorem mem_foldl {fill : UnorderedSet key → α → UnorderedSet key}
    (within : ∀ set x, ∀ z ∈ (fill set x).toList, z ∈ set.toList ∨ z = x)
    {set : UnorderedSet key} {elements : List α} {z : α}
    (member : z ∈ (elements.foldl fill set).toList) : z ∈ set.toList ∨ z ∈ elements := by
  induction elements generalizing set with
  | nil => exact .inl member
  | cons x rest ih =>
      rcases ih member with inside | later
      · rcases within set x z inside with old | same
        · exact .inl old
        · exact .inr (same ▸ List.mem_cons_self)
      · exact .inr (List.mem_cons_of_mem x later)

variable [DecidableEq κ]

/-- An equivalent element is kept. -/
def insert (set : UnorderedSet key) (x : α) : UnorderedSet key :=
  if old : key x ∈ set.toList.map key then set else set.add x old

/-- An equivalent element is overwritten in its place. -/
def assign (set : UnorderedSet key) (x : α) : UnorderedSet key :=
  if old : key x ∈ set.toList.map key then
    { toList := set.toList.map fun y => if key y = key x then x else y
      apart := by
        have keys : (set.toList.map fun y => if key y = key x then x else y).map key =
            set.toList.map key := by
          rw [List.map_map]
          apply List.map_congr_left
          intro y _
          simp only [Function.comp_apply]
          split
          · rename_i same
            exact same.symm
          · rfl
        rw [keys]
        exact set.apart }
  else set.add x old

theorem toList_foldl_insert {elements : List α} (apart : (elements.map key).Nodup) :
    (elements.foldl insert (empty : UnorderedSet key)).toList = elements :=
  toList_foldl (fun _ _ fresh => dif_neg fresh) empty apart

theorem toList_foldl_assign {elements : List α} (apart : (elements.map key).Nodup) :
    (elements.foldl assign (empty : UnorderedSet key)).toList = elements :=
  toList_foldl (fun _ _ fresh => dif_neg fresh) empty apart

theorem mem_foldl_insert {elements : List α} {z : α}
    (member : z ∈ (elements.foldl insert (empty : UnorderedSet key)).toList) :
    z ∈ elements := by
  have within : ∀ (set : UnorderedSet key) x, ∀ z ∈ (set.insert x).toList,
      z ∈ set.toList ∨ z = x := by
    intro set x z inside
    unfold insert at inside
    split at inside
    · exact .inl inside
    · simpa [add] using inside
  rcases mem_foldl within member with old | new
  · cases old
  · exact new

theorem mem_foldl_assign {elements : List α} {z : α}
    (member : z ∈ (elements.foldl assign (empty : UnorderedSet key)).toList) :
    z ∈ elements := by
  have within : ∀ (set : UnorderedSet key) x, ∀ z ∈ (set.assign x).toList,
      z ∈ set.toList ∨ z = x := by
    intro set x z inside
    unfold assign at inside
    split at inside
    · obtain ⟨y, old, same⟩ := List.mem_map.mp inside
      split at same
      · exact .inr same.symm
      · exact .inl (same ▸ old)
    · simpa [add] using inside
  rcases mem_foldl within member with old | new
  · cases old
  · exact new

end UnorderedSet
