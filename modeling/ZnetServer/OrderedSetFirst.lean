import Mathlib.Data.List.Sort
import ZnetServer.OrderedSet

set_option autoImplicit false

/- A set kept by a key, and the list that it was built from: of each key the first element is
in the set. -/
namespace OrderedSet

universe u v

variable {α : Type u} {κ : Type v} [LinearOrder κ] {key : α → κ}

/-- Sets with the same elements are equal. -/
theorem ext_mem {left right : OrderedSet key}
    (same : ∀ x, x ∈ left.toList ↔ x ∈ right.toList) : left = right := by
  have irreflexive : Std.Irrefl (fun x y : α => key x < key y) := ⟨fun x => lt_irrefl (key x)⟩
  have antisymmetric : Std.Antisymm (fun x y : α => key x < key y) :=
    ⟨fun x y below above => absurd above (lt_asymm below)⟩
  exact ext (left.sorted.eq_of_mem_iff right.sorted same)

theorem key_of_find {elements : List α} {k : κ} {x : α}
    (found : elements.find? (key · = k) = some x) : key x = k := by
  simpa using List.find?_some found

/-- The element with a key. -/
def find (set : OrderedSet key) (k : κ) : Option α := set.toList.find? (key · = k)

theorem find_eq_some {set : OrderedSet key} {k : κ} {x : α} :
    set.find k = some x ↔ x ∈ set.toList ∧ key x = k := by
  constructor
  · intro found
    exact ⟨List.mem_of_find?_eq_some found, key_of_find found⟩
  · rintro ⟨member, rfl⟩
    cases found : set.find (key x) with
    | none =>
        have absent := List.find?_eq_none.mp found x member
        simp at absent
    | some y =>
        have same : key y = key x := key_of_find found
        rw [eq_of_key set (List.mem_of_find?_eq_some found) member same]

theorem ext_find {left right : OrderedSet key} (same : ∀ k, left.find k = right.find k) :
    left = right := by
  apply ext_mem
  intro x
  have element : ∀ set : OrderedSet key, x ∈ set.toList ↔ set.find (key x) = some x :=
    fun set => ⟨fun member => find_eq_some.mpr ⟨member, rfl⟩,
      fun found => (find_eq_some.mp found).1⟩
  rw [element, element, same]

/-- An element is found where none with its key was before. -/
theorem find_insertList {x : α} {elements : List α} (sorted : elements.Pairwise (key · < key ·))
    (k : κ) : (insertList key x elements).find? (key · = k) =
      (elements.find? (key · = k)).or (if key x = k then some x else none) := by
  induction elements with
  | nil => by_cases here : key x = k <;> simp [insertList, here]
  | cons y rest ih =>
      have above := List.pairwise_cons.mp sorted
      unfold insertList
      split
      · rename_i first
        by_cases here : key x = k
        · have behind : (y :: rest).find? (key · = k) = none := by
            rw [List.find?_eq_none]
            intro z member
            have later : key x < key z := by
              rcases List.mem_cons.mp member with rfl | inside
              · exact first
              · exact first.trans (above.1 z inside)
            simpa using fun same : key z = k => absurd (here.trans same.symm) (ne_of_lt later)
          rw [behind, List.find?_cons_of_pos (by simpa using here), if_pos here, Option.none_or]
        · rw [List.find?_cons_of_neg (by simpa using here), if_neg here, Option.or_none]
      · split
        · by_cases here : key y = k
          · rw [List.find?_cons_of_pos (by simpa using here),
              List.find?_cons_of_pos (by simpa using here), Option.some_or]
          · rw [List.find?_cons_of_neg (by simpa using here),
              List.find?_cons_of_neg (by simpa using here), ih above.2]
        · rename_i notBelow notAbove
          have same : key x = key y := le_antisymm (not_lt.mp notAbove) (not_lt.mp notBelow)
          by_cases here : key y = k
          · rw [List.find?_cons_of_pos (by simpa using here), Option.some_or]
          · rw [if_neg (same ▸ here), Option.or_none]

theorem find_foldl_insert (set : OrderedSet key) (elements : List α) (k : κ) :
    (elements.foldl insert set).find k = (set.find k).or (elements.find? (key · = k)) := by
  induction elements generalizing set with
  | nil => exact (Option.or_none).symm
  | cons x rest ih =>
      have inserted : (set.insert x).find k =
          (set.find k).or (if key x = k then some x else none) := find_insertList set.sorted k
      rw [List.foldl_cons, ih, inserted, Option.or_assoc]
      by_cases here : key x = k
      · rw [if_pos here, Option.some_or, List.find?_cons_of_pos (by simpa using here)]
      · rw [if_neg here, Option.none_or, List.find?_cons_of_neg (by simpa using here)]

/-- Of the elements with one key the first is kept. -/
theorem find_ofList (elements : List α) (k : κ) :
    (ofList elements : OrderedSet key).find k = elements.find? (key · = k) :=
  find_foldl_insert empty elements k

theorem ofList_eq_iff (left right : List α) :
    (ofList left : OrderedSet key) = ofList right ↔
      ∀ k, left.find? (key · = k) = right.find? (key · = k) := by
  constructor
  · intro same k
    rw [← find_ofList, same, find_ofList]
  · intro same
    apply ext_find
    intro k
    rw [find_ofList, find_ofList, same]

/-- The order does not matter to elements with different keys. -/
theorem ofList_perm {left right : List α} (perm : left.Perm right)
    (distinct : (left.map key).Nodup) : (ofList left : OrderedSet key) = ofList right := by
  rw [ofList_eq_iff]
  intro k
  have single : ∀ {elements : List α} {x : α}, (elements.map key).Nodup →
      x ∈ elements → key x = k → elements.find? (key · = k) = some x := by
    intro elements x apart member here
    cases found : elements.find? (key · = k) with
    | none => exact absurd here (by simpa using List.find?_eq_none.mp found x member)
    | some y =>
        have same : key y = key x := (key_of_find found).trans here.symm
        rw [List.inj_on_of_nodup_map apart (List.mem_of_find?_eq_some found) member same]
  cases found : right.find? (key · = k) with
  | some x =>
      exact single distinct (perm.mem_iff.mpr (List.mem_of_find?_eq_some found))
        (key_of_find found)
  | none =>
      rw [List.find?_eq_none] at found ⊢
      exact fun x member => found x (perm.mem_iff.mp member)

end OrderedSet
