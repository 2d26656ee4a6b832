import Mathlib.Data.List.Forall2

set_option autoImplicit false

/- Values under names, and handles on them: a handle follows its name until the name is withdrawn,
and from then on keeps the value that it had. -/

structure Directory (κ V : Type*) where
  current : κ → Option V
  /-- The name, and the value once the name was withdrawn. -/
  handles : List (κ × Option V)

namespace Directory

variable {κ V ι : Type*}

/-- What a handle shows. -/
def read (d : Directory κ V) (i : Nat) : Option V :=
  (d.handles[i]?).bind fun h => h.2.or (d.current h.1)

def set [DecidableEq κ] (d : Directory κ V) (k : κ) (v : V) : Directory κ V :=
  { d with current := fun j => if j = k then some v else d.current j }

/-- One more handle. -/
def hand (d : Directory κ V) (k : κ) : Directory κ V :=
  { d with handles := d.handles ++ [(k, none)] }

def withdraw (d : Directory κ V) (gone : κ → Prop) [DecidablePred gone] : Directory κ V where
  current k := if gone k then none else d.current k
  handles := d.handles.map fun h => if gone h.1 then (h.1, h.2.or (d.current h.1)) else h

section Handles

variable {d : Directory κ V} {i : Nat} {k : κ}

theorem hand_handle {h : κ × Option V} (handle : d.handles[i]? = some h) (j : κ) :
    (d.hand j).handles[i]? = some h := by
  obtain ⟨inside, _⟩ := List.getElem?_eq_some_iff.mp handle
  exact (List.getElem?_append_left inside).trans handle

/-- What a handle keeps it keeps for good. -/
theorem withdraw_kept {v : V} (handle : d.handles[i]? = some (k, some v)) (gone : κ → Prop)
    [DecidablePred gone] : (d.withdraw gone).handles[i]? = some (k, some v) := by
  change (d.handles.map _)[i]? = _
  rw [List.getElem?_map, handle, Option.map_some, Option.some_or, ite_self]

theorem withdraw_handle (handle : d.handles[i]? = some (k, none)) (gone : κ → Prop)
    [DecidablePred gone] :
    (d.withdraw gone).handles[i]? = some (k, if gone k then d.current k else none) := by
  change (d.handles.map _)[i]? = _
  rw [List.getElem?_map, handle, Option.map_some, Option.none_or]
  split <;> rfl

end Handles

/-- The object behind a handle: the one registered under its name, or one that no name is
registered for any more. -/
def Held (registered : κ → Option ι) (value : ι → Option V) (h : κ × Option V) (o : ι) : Prop :=
  match h.2 with
  | none => registered h.1 = some o
  | some v => value o = some v ∧ ∀ k, registered k ≠ some o

/-- Objects and a registry that a directory is kept in. -/
structure Backs (d : Directory κ V) (registered : κ → Option ι) (value : ι → Option V)
    (refs : List ι) : Prop where
  current : ∀ k, d.current k = (registered k).bind value
  valued : ∀ k o, registered k = some o → ∃ v, value o = some v
  apart : ∀ k j o, registered k = some o → registered j = some o → k = j
  handles : List.Forall₂ (Held registered value) d.handles refs

namespace Backs

variable {d : Directory κ V} {registered after : κ → Option ι} {value later : ι → Option V}
  {refs : List ι} (backs : d.Backs registered value refs)

include backs

/-- The handle that a pointer is for. -/
theorem handle {i : Nat} {o : ι} (pointer : refs[i]? = some o) :
    ∃ h, d.handles[i]? = some h ∧ Held registered value h o := by
  obtain ⟨within, rfl⟩ := List.getElem?_eq_some_iff.mp pointer
  have inside : i < d.handles.length := backs.handles.length_eq ▸ within
  exact ⟨d.handles[i], List.getElem?_eq_getElem inside, backs.handles.get inside within⟩

/-- No handle leads nowhere. -/
theorem held {i : Nat} {o : ι} (pointer : refs[i]? = some o) : ∃ v, value o = some v := by
  obtain ⟨h, _, held⟩ := backs.handle pointer
  unfold Held at held
  split at held
  · exact backs.valued _ _ held
  · exact ⟨_, held.1⟩

theorem read (i : Nat) : d.read i = (refs[i]?).bind value := by
  cases pointer : refs[i]? with
  | none =>
      have outside : d.handles.length ≤ i :=
        backs.handles.length_eq ▸ List.getElem?_eq_none_iff.mp pointer
      rw [Directory.read, List.getElem?_eq_none outside]
      rfl
  | some o =>
      obtain ⟨h, handle, held⟩ := backs.handle pointer
      rw [Directory.read, handle, Option.bind_some, Option.bind_some]
      unfold Held at held
      split at held
      · rename_i attached
        rw [attached, Option.none_or, backs.current, held, Option.bind_some]
      · rename_i v detached
        rw [detached, Option.some_or, held.1]

theorem hand {k : κ} {o : ι} (bound : registered k = some o) :
    (d.hand k).Backs registered value (refs ++ [o]) where
  current := backs.current
  valued := backs.valued
  apart := backs.apart
  handles := List.rel_append backs.handles (.cons bound .nil)

/-- A value is written to the object of a name, or to one that is new. -/
theorem set [DecidableEq κ] {k : κ} {o : ι} {v : V}
    (own : registered k = some o ∨ registered k = none ∧ value o = none)
    (bound : ∀ j, after j = if j = k then some o else registered j)
    (written : later o = some v)
    (others : ∀ p u, p ≠ o → value p = some u → later p = some u) :
    (d.set k v).Backs after later refs := by
  have different : ∀ j p, j ≠ k → registered j = some p → p ≠ o := by
    rintro j p apart found rfl
    rcases own with here | ⟨_, fresh⟩
    · exact apart (backs.apart j k p found here)
    · obtain ⟨u, shown⟩ := backs.valued j p found
      rw [fresh] at shown
      cases shown
  have elsewhere : ∀ j, j ≠ k → after j = registered j := fun j apart => by
    rw [bound, if_neg apart]
  have here : after k = some o := by rw [bound, if_pos rfl]
  refine ⟨fun j => ?_, fun j p found => ?_, fun i j p left right => ?_,
    backs.handles.imp fun h p held => ?_⟩
  · by_cases apart : j = k
    · subst apart
      rw [here, Option.bind_some, written]
      exact if_pos rfl
    · rw [elsewhere j apart]
      refine (if_neg apart).trans ((backs.current j).trans ?_)
      cases found : registered j with
      | none => rfl
      | some p =>
          obtain ⟨u, shown⟩ := backs.valued j p found
          rw [Option.bind_some, Option.bind_some, shown,
            others p u (different j p apart found) shown]
  · by_cases apart : j = k
    · subst apart
      obtain rfl := Option.some.inj (here.symm.trans found)
      exact ⟨v, written⟩
    · rw [elsewhere j apart] at found
      obtain ⟨u, shown⟩ := backs.valued j p found
      exact ⟨u, others p u (different j p apart found) shown⟩
  · by_cases first : i = k
    · by_cases second : j = k
      · rw [first, second]
      · subst first
        obtain rfl := Option.some.inj (here.symm.trans left)
        rw [elsewhere j second] at right
        exact absurd rfl (different j o second right)
    · rw [elsewhere i first] at left
      by_cases second : j = k
      · subst second
        obtain rfl := Option.some.inj (here.symm.trans right)
        exact absurd rfl (different i o first left)
      · rw [elsewhere j second] at right
        exact backs.apart i j p left right
  · unfold Held at held ⊢
    split at held
    · by_cases same : h.1 = k
      · rw [same] at held ⊢
        rcases own with old | ⟨missing, _⟩
        · rw [here, ← held, old]
        · rw [missing] at held
          cases held
      · rw [elsewhere h.1 same, held]
    · obtain ⟨shown, unbound⟩ := held
      have apart : p ≠ o := by
        rintro rfl
        rcases own with old | ⟨_, fresh⟩
        · exact unbound k old
        · rw [fresh] at shown
          cases shown
      refine ⟨others p _ apart shown, fun j found => ?_⟩
      by_cases same : j = k
      · subst same
        exact apart (Option.some.inj (found.symm.trans here))
      · rw [elsewhere j same] at found
        exact unbound j found

/-- Names are unbound and the objects stay. -/
theorem withdraw {gone : κ → Prop} [DecidablePred gone]
    (bound : ∀ k, after k = if gone k then none else registered k) :
    (d.withdraw gone).Backs after value refs := by
  have before : ∀ {k o}, after k = some o → ¬ gone k ∧ registered k = some o := by
    intro k o found
    rw [bound] at found
    split at found
    · cases found
    · rename_i stays
      exact ⟨stays, found⟩
  refine ⟨fun k => ?_, fun k o found => backs.valued k o (before found).2,
    fun i j o left right => backs.apart i j o (before left).2 (before right).2, ?_⟩
  · rw [bound]
    change (if gone k then none else d.current k) = _
    split
    · rfl
    · exact backs.current k
  · change List.Forall₂ _ (d.handles.map _) refs
    rw [List.forall₂_map_left_iff]
    apply backs.handles.imp
    intro h o held
    by_cases leaves : gone h.1
    · rw [if_pos leaves]
      unfold Held at held ⊢
      split at held
      · rename_i attached
        obtain ⟨v, shown⟩ := backs.valued h.1 o held
        have last : d.current h.1 = some v := by rw [backs.current, held, Option.bind_some, shown]
        simp only [attached, Option.none_or, last]
        refine ⟨shown, fun k found => ?_⟩
        obtain ⟨stays, other⟩ := before found
        rw [backs.apart k h.1 o other held] at stays
        exact stays leaves
      · rename_i v detached
        simp only [detached, Option.some_or]
        exact ⟨held.1, fun k found => held.2 k (before found).2⟩
    · rw [if_neg leaves]
      unfold Held at held ⊢
      split at held
      · rw [bound, if_neg leaves, held]
      · exact ⟨held.1, fun k found => held.2 k (before found).2⟩

end Backs

end Directory
