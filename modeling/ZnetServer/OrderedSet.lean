import Mathlib.Order.Lattice
import Mathlib.Data.List.Pairwise

set_option autoImplicit false

/- Sets that are kept sorted by a key, one element a key. -/

universe u v

/-- The elements in the order of an iteration. -/
structure OrderedSet {α : Type u} {κ : Type v} [LinearOrder κ] (key : α → κ) where
  toList : List α
  sorted : toList.Pairwise (key · < key ·)

namespace OrderedSet

variable {α : Type u} {κ : Type v} [LinearOrder κ] {key : α → κ}

def empty : OrderedSet key := ⟨[], .nil⟩

/-- An equivalent element keeps its place. -/
def insertList (key : α → κ) (x : α) : List α → List α
  | [] => [x]
  | y :: rest =>
    if key x < key y then x :: y :: rest
    else if key y < key x then y :: insertList key x rest
    else y :: rest

theorem mem_insertList {x z : α} {elements : List α} (member : z ∈ insertList key x elements) :
    z = x ∨ z ∈ elements := by
  induction elements with
  | nil => exact Or.inl (List.mem_singleton.mp member)
  | cons y rest ih =>
      unfold insertList at member
      split at member
      · exact (List.mem_cons.mp member)
      · split at member
        · rcases List.mem_cons.mp member with here | later
          · exact Or.inr (here ▸ List.mem_cons_self)
          · rcases ih later with same | old
            · exact Or.inl same
            · exact Or.inr (List.mem_cons_of_mem y old)
        · exact Or.inr member

theorem sorted_insertList (x : α) {elements : List α}
    (sorted : elements.Pairwise (key · < key ·)) :
    (insertList key x elements).Pairwise (key · < key ·) := by
  induction elements with
  | nil => exact List.pairwise_singleton _ x
  | cons y rest ih =>
      have above := List.pairwise_cons.mp sorted
      unfold insertList
      split
      · rename_i first
        refine List.pairwise_cons.mpr ⟨fun z member => ?_, sorted⟩
        rcases List.mem_cons.mp member with here | later
        · rw [here]
          exact first
        · exact lt_trans first (above.1 z later)
      · split
        · rename_i behind
          refine List.pairwise_cons.mpr ⟨fun z member => ?_, ih above.2⟩
          rcases mem_insertList member with here | old
          · rw [here]
            exact behind
          · exact above.1 z old
        · exact sorted

def insert (set : OrderedSet key) (x : α) : OrderedSet key :=
  ⟨insertList key x set.toList, sorted_insertList x set.sorted⟩

def ofList (elements : List α) : OrderedSet key := elements.foldl insert empty

theorem mem_foldl_insert {elements : List α} {set : OrderedSet key} {z : α}
    (member : z ∈ (elements.foldl insert set).toList) : z ∈ set.toList ∨ z ∈ elements := by
  induction elements generalizing set with
  | nil => exact Or.inl member
  | cons x rest ih =>
      rcases ih member with inside | later
      · rcases mem_insertList inside with here | old
        · exact Or.inr (here ▸ List.mem_cons_self)
        · exact Or.inl old
      · exact Or.inr (List.mem_cons_of_mem x later)

theorem mem_ofList {elements : List α} {z : α}
    (member : z ∈ (ofList elements : OrderedSet key).toList) : z ∈ elements := by
  rcases mem_foldl_insert member with inside | later
  · cases inside
  · exact later

@[ext] theorem ext {left right : OrderedSet key} (same : left.toList = right.toList) :
    left = right := by
  cases left
  cases right
  congr

/-- An element above all others goes to the end. -/
theorem insertList_last {x : α} {elements : List α} (below : ∀ y ∈ elements, key y < key x) :
    insertList key x elements = elements ++ [x] := by
  induction elements with
  | nil => rfl
  | cons y rest ih =>
      have first := below y List.mem_cons_self
      rw [insertList, if_neg (not_lt_of_gt first), if_pos first,
        ih (fun z member => below z (List.mem_cons_of_mem y member)), List.cons_append]

theorem toList_foldl_insert (set : OrderedSet key) {elements : List α}
    (sorted : (set.toList ++ elements).Pairwise (key · < key ·)) :
    (elements.foldl insert set).toList = set.toList ++ elements := by
  induction elements generalizing set with
  | nil => rw [List.foldl_nil, List.append_nil]
  | cons x rest ih =>
      have below : ∀ y ∈ set.toList, key y < key x := fun y member =>
        (List.pairwise_append.mp sorted).2.2 y member x List.mem_cons_self
      have whole : (set.insert x).toList = set.toList ++ [x] := insertList_last below
      have shape : (set.insert x).toList ++ rest = set.toList ++ x :: rest := by
        rw [whole, List.append_assoc, List.singleton_append]
      rw [List.foldl_cons, ih (set.insert x) (by rwa [shape]), shape]

/-- A sorted list is the iteration of the set built from it. -/
theorem toList_ofList {elements : List α} (sorted : elements.Pairwise (key · < key ·)) :
    (ofList elements : OrderedSet key).toList = elements :=
  toList_foldl_insert empty sorted

/-- A key determines its element. -/
theorem eq_of_key (set : OrderedSet key) {x y : α} (left : x ∈ set.toList)
    (right : y ∈ set.toList) (same : key x = key y) : x = y := by
  have apart : set.toList.Pairwise (fun a b => key a ≠ key b) :=
    set.sorted.imp (fun below => ne_of_lt below)
  have symmetric : Std.Symm (fun a b : α => key a ≠ key b) := ⟨fun _ _ ne => ne.symm⟩
  by_contra different
  exact apart.forall left right different same

end OrderedSet
