import Mathlib.Data.List.Basic

set_option autoImplicit false

/- Objects behind shared pointers: a reference is never reused, and an object stays
readable for as long as somebody holds its reference. -/
namespace ObjectStore

universe u

/-- An object is named by the number of objects made before it. -/
structure Store (α : Type u) where
  objects : List α
  deriving DecidableEq

namespace Store

variable {α : Type u}

def empty : Store α := ⟨[]⟩

/-- The reference that the next object gets. -/
def next (store : Store α) : Nat := store.objects.length

def read (store : Store α) (r : Nat) : Option α := store.objects[r]?

def alloc (store : Store α) (object : α) : Store α := ⟨store.objects ++ [object]⟩

def modify (store : Store α) (r : Nat) (f : α → α) : Store α := ⟨store.objects.modify r f⟩

variable (store : Store α) (object : α) (f : α → α)

theorem read_lt {store : Store α} {r : Nat} {object : α} (found : store.read r = some object) :
    r < store.next := by
  by_contra outside
  rw [read, List.getElem?_eq_none (by simpa [next] using outside)] at found
  cases found

theorem read_alloc (r : Nat) :
    (store.alloc object).read r = if r = store.next then some object else store.read r := by
  change (store.objects ++ [object])[r]? =
    if r = store.objects.length then some object else store.objects[r]?
  rw [List.getElem?_append]
  by_cases inside : r < store.objects.length
  · rw [if_pos inside, if_neg (by omega)]
  · rw [if_neg inside, List.getElem?_singleton]
    by_cases last : r = store.objects.length
    · rw [if_pos (by omega), if_pos last]
    · rw [if_neg (by omega), if_neg last, List.getElem?_eq_none (by omega)]

theorem read_modify (r q : Nat) :
    (store.modify r f).read q = if r = q then (store.read r).map f else store.read q := by
  unfold read modify
  rw [List.getElem?_modify]
  by_cases same : r = q
  · subst same
    simp
  · simp [same]

end Store

end ObjectStore
