import Mathlib.Data.List.Nodup
import Mathlib.Data.List.Perm.Basic
import ZnetServer.Config

set_option autoImplicit false

/- What the listeners of a variable see of it over any sequence of calls. -/
namespace ZnetServer

/-- One call of the listener that was the `registration`-th to be added. -/
structure Notice (C : ConfigType) where
  registration : Nat
  newValue : C.T
  oldValue : C.T

structure Listener (C : ConfigType) (W : Type) where
  cb : OnChangeCallback C W
  returns : ∀ newValue oldValue w, (cb newValue oldValue w).2 = none

/-- What listeners act on, with the calls they got so far. -/
abbrev Watched (C : ConfigType) (W : Type) := W × List (Notice C)

variable {C : ConfigType} {W : Type}

/-- The callback that also records its call. -/
def observe (registration : Nat) (cb : OnChangeCallback C W) :
    OnChangeCallback C (Watched C W) :=
  fun newValue oldValue w =>
    let result := cb newValue oldValue w.1
    ((result.1, w.2 ++ [⟨registration, newValue, oldValue⟩]), result.2)

/-- A variable in use. -/
structure Session (C : ConfigType) (W : Type) where
  var : ConfigVar C (Watched C W)
  world : Watched C W
  registrations : Nat

inductive Call (C : ConfigType) (W : Type)
  | setValue (value : C.T)
  | fromString (text : String)
  | addListener (id : Int) (listener : Listener C W)
  | removeListener (id : Int)

/-- The call replaces or removes what is registered under the id. -/
def Call.Takes (id : Int) : Call C W → Prop
  | .addListener other _ | .removeListener other => other = id
  | .setValue _ | .fromString _ => False

namespace Session

def new (name : String) (value : C.T) (description : String) (w : W) : Session C W where
  var := .new name value description
  world := (w, [])
  registrations := 0

def perform (log : LogTo W) (s : Session C W) : Call C W → Session C W
  | .setValue value =>
      let result := s.var.setValue value s.world
      { s with var := result.1, world := result.2.1 }
  | .fromString text =>
      let result := s.var.fromString (fun level line w => (log level line w.1, w.2)) text s.world
      { s with var := result.1, world := result.2.1 }
  | .addListener id listener =>
      { s with var := s.var.addListener id (observe s.registrations listener.cb),
               registrations := s.registrations + 1 }
  | .removeListener id => { s with var := s.var.removeListener id }

def performAll (log : LogTo W) (s : Session C W) (calls : List (Call C W)) : Session C W :=
  calls.foldl (perform log) s

/-- The calls that a registration got. -/
def seenBy (s : Session C W) (registration : Nat) : List (Notice C) :=
  s.world.2.filter (·.registration = registration)

end Session

/-- A chain of changes that leads from one value to another. -/
def Replays (C : ConfigType) (start : C.T) : List (Notice C) → C.T → Prop
  | [], final => final = start
  | notice :: rest, final =>
      notice.oldValue = start ∧ C.eq notice.oldValue notice.newValue = false ∧
        Replays C notice.newValue rest final

theorem Replays.snoc {start middle : C.T} {notices : List (Notice C)} {last : Notice C}
    (chain : Replays C start notices middle) (old : last.oldValue = middle)
    (differs : C.eq last.oldValue last.newValue = false) :
    Replays C start (notices ++ [last]) last.newValue := by
  induction notices generalizing start with
  | nil =>
      obtain rfl : middle = start := chain
      exact ⟨old, differs, rfl⟩
  | cons notice rest ih =>
      obtain ⟨first, changed, later⟩ := chain
      exact ⟨first, changed, ih later⟩

/-- The listeners under each id, with their registrations. -/
abbrev Registry (C : ConfigType) (W : Type) := Std.ExtTreeMap Int (Nat × Listener C W)

namespace Registry

def insertNew (table : Registry C W) (s : Session C W) : Call C W → Registry C W
  | .addListener id listener => table.insert id (s.registrations, listener)
  | .removeListener id => table.erase id
  | .setValue _ | .fromString _ => table

/-- The notices of one change. -/
def notices (table : Registry C W) (newValue oldValue : C.T) : List (Notice C) :=
  table.toList.map fun e => ⟨e.2.1, newValue, oldValue⟩

/-- The table describes the variable's listeners, and each registration is used once. -/
structure Describes (table : Registry C W) (s : Session C W) : Prop where
  cbs : s.var.cbs = table.map fun _ entry => observe entry.1 entry.2.cb
  below : ∀ (id : Int) (entry : Nat × Listener C W), table[id]? = some entry →
    entry.1 < s.registrations
  apart : ∀ (id other : Int) (entry twin : Nat × Listener C W), table[id]? = some entry →
    table[other]? = some twin → entry.1 = twin.1 → id = other

/-- What a call does to the value, and which listeners it calls. -/
inductive Moves (table : Registry C W) (s t : Session C W) : Prop
  | stays (value : t.var.value = s.var.value) (seen : t.world.2 = s.world.2)
  | changes (differs : C.eq s.var.value t.var.value = false)
      (seen : t.world.2 = s.world.2 ++ table.notices t.var.value s.var.value)

theorem notify_observed (newValue oldValue : C.T) (listeners : List (Int × (Nat × Listener C W)))
    (w : Watched C W) :
    ∃ v, ConfigVar.notify newValue oldValue
        (listeners.map fun e => observe e.2.1 e.2.2.cb) w =
      ((v, w.2 ++ listeners.map fun e => ⟨e.2.1, newValue, oldValue⟩), none) := by
  induction listeners generalizing w with
  | nil =>
      refine ⟨w.1, ?_⟩
      rw [List.map_nil, List.map_nil, List.append_nil]
      rfl
  | cons e rest ih =>
      have returns := e.2.2.returns newValue oldValue w.1
      obtain ⟨v, later⟩ := ih (observe e.2.1 e.2.2.cb newValue oldValue w).1
      refine ⟨v, ?_⟩
      have first : observe e.2.1 e.2.2.cb newValue oldValue w =
          ((observe e.2.1 e.2.2.cb newValue oldValue w).1, none) :=
        Prod.ext rfl returns
      rw [List.map_cons, ConfigVar.notify, first]
      simp only [later]
      simp only [observe, List.map_cons, List.append_assoc, List.singleton_append]

section Step

variable {table : Registry C W} {s : Session C W}

/-- Setting a value either finds an equal one or calls every listener once. -/
theorem Describes.setValue (described : table.Describes s) (value : C.T) :
    ∃ v, s.var.setValue value s.world =
      if C.eq s.var.value value then (s.var, s.world, none)
      else ({ s.var with value }, (v, s.world.2 ++ table.notices value s.var.value), none) := by
  have listeners : s.var.cbs.toList.map Prod.snd =
      table.toList.map fun e => observe e.2.1 e.2.2.cb := by
    rw [described.cbs, Std.ExtTreeMap.toList_map, List.map_map]
    rfl
  obtain ⟨v, notified⟩ := notify_observed value s.var.value table.toList s.world
  refine ⟨v, ?_⟩
  rw [ConfigVar.setValue, listeners, notified]
  rfl

theorem Describes.moves (described : table.Describes s) (log : LogTo W) (call : Call C W) :
    table.Moves s (s.perform log call) := by
  cases call with
  | addListener id listener => exact .stays rfl rfl
  | removeListener id => exact .stays rfl rfl
  | setValue value =>
      obtain ⟨v, set⟩ := described.setValue value
      cases same : C.eq s.var.value value with
      | true =>
          apply Moves.stays
          · simp only [Session.perform, set, same, ↓reduceIte]
          · simp only [Session.perform, set, same, ↓reduceIte]
      | false =>
          apply Moves.changes
          · simp only [Session.perform, set, same, Bool.false_eq_true, ↓reduceIte]
          · simp only [Session.perform, set, same, Bool.false_eq_true, ↓reduceIte]
  | fromString text =>
      cases decoded : C.fromStr text with
      | error what =>
          apply Moves.stays
          · simp only [Session.perform, ConfigVar.fromString, decoded]
          · simp only [Session.perform, ConfigVar.fromString, decoded]
      | ok value =>
          obtain ⟨v, set⟩ := described.setValue value
          cases same : C.eq s.var.value value with
          | true =>
              apply Moves.stays
              · simp only [Session.perform, ConfigVar.fromString, decoded, set, same, ↓reduceIte]
              · simp only [Session.perform, ConfigVar.fromString, decoded, set, same, ↓reduceIte]
          | false =>
              apply Moves.changes
              · simp only [Session.perform, ConfigVar.fromString, decoded, set, same,
                  Bool.false_eq_true, ↓reduceIte]
              · simp only [Session.perform, ConfigVar.fromString, decoded, set, same,
                  Bool.false_eq_true, ↓reduceIte]

theorem Describes.perform (described : table.Describes s) (log : LogTo W) (call : Call C W) :
    (table.insertNew s call).Describes (s.perform log call) := by
  cases call with
  | setValue value =>
      have cbs : (s.perform log (.setValue value)).var.cbs = s.var.cbs := by
        simp only [Session.perform, ConfigVar.setValue_var]
        split <;> rfl
      exact ⟨cbs.trans described.cbs, described.below, described.apart⟩
  | fromString text =>
      have cbs : (s.perform log (.fromString text)).var.cbs = s.var.cbs := by
        simp only [Session.perform, ConfigVar.fromString_var]
        unfold ConfigVar.accept
        split
        · rfl
        · split <;> rfl
      exact ⟨cbs.trans described.cbs, described.below, described.apart⟩
  | addListener id listener =>
      have found : ∀ (other : Int) (entry : Nat × Listener C W),
          (table.insertNew s (.addListener id listener))[other]? = some entry →
            other = id ∧ entry.1 = s.registrations ∨ table[other]? = some entry := by
        intro other entry stored
        rw [insertNew, Std.ExtTreeMap.getElem?_insert] at stored
        split at stored
        · rename_i same
          obtain rfl := Option.some.inj stored
          exact Or.inl ⟨(Std.LawfulEqCmp.eq_of_compare same).symm, rfl⟩
        · exact Or.inr stored
      constructor
      · rw [insertNew, map_insert, ← described.cbs]
        rfl
      · intro other entry stored
        change entry.1 < s.registrations + 1
        rcases found other entry stored with ⟨_, fresh⟩ | old
        · omega
        · have earlier := described.below other entry old
          omega
      · intro first second entry twin stored held same
        rcases found first entry stored with ⟨rfl, fresh⟩ | old
        · rcases found second twin held with ⟨rfl, _⟩ | older
          · rfl
          · have earlier := described.below second twin older
            omega
        · rcases found second twin held with ⟨rfl, fresh⟩ | older
          · have earlier := described.below first entry old
            omega
          · exact described.apart first second entry twin old older same
  | removeListener id =>
      have found : ∀ (other : Int) (entry : Nat × Listener C W),
          (table.insertNew s (.removeListener id))[other]? = some entry →
            table[other]? = some entry := by
        intro other entry stored
        rw [insertNew, Std.ExtTreeMap.getElem?_erase] at stored
        split at stored
        · cases stored
        · exact stored
      constructor
      · rw [insertNew, map_erase, ← described.cbs]
        rfl
      · exact fun other entry stored => described.below other entry (found other entry stored)
      · exact fun first second entry twin stored held =>
          described.apart first second entry twin (found _ _ stored) (found _ _ held)

theorem describes_new (name : String) (value : C.T) (description : String) (w : W) :
    (∅ : Registry C W).Describes (.new name value description w) := by
  constructor
  · apply Std.ExtTreeMap.ext_getElem?
    intro id
    simp [Session.new, ConfigVar.new]
  · intro id entry stored
    simp at stored
  · intro id other entry twin stored
    simp at stored

/-- A change calls the listener of a registration once. -/
theorem Describes.notices_of (described : table.Describes s) {id : Int}
    {entry : Nat × Listener C W} (registered : table[id]? = some entry) (newValue oldValue : C.T) :
    (table.notices newValue oldValue).filter (·.registration = entry.1) =
      [⟨entry.1, newValue, oldValue⟩] := by
  have own : table.toList.filter (fun e => e.2.1 = entry.1) = [(id, entry)] := by
    have nodup : table.toList.Nodup := by
      have keys : (table.toList.map Prod.fst).Nodup := by
        rw [Std.ExtTreeMap.map_fst_toList_eq_keys]
        exact Std.ExtTreeMap.nodup_keys
      exact List.Nodup.of_map Prod.fst keys
    apply List.perm_singleton.mp
    apply (List.perm_ext_iff_of_nodup (nodup.filter _) (List.nodup_singleton _)).mpr
    intro e
    rw [List.mem_filter, List.mem_singleton, Std.ExtTreeMap.mem_toList_iff_getElem?_eq_some]
    constructor
    · intro both
      obtain ⟨stored, same⟩ := both
      have place := described.apart e.1 id e.2 entry stored registered (of_decide_eq_true same)
      rw [place, registered] at stored
      exact Prod.ext place (Option.some.inj stored).symm
    · intro here
      subst here
      exact ⟨registered, decide_eq_true rfl⟩
  rw [notices, List.filter_map]
  exact congrArg (List.map _) own

theorem notices_none {registration : Nat}
    (unused : ∀ (id : Int) (entry : Nat × Listener C W), table[id]? = some entry →
      entry.1 ≠ registration) (newValue oldValue : C.T) :
    (table.notices newValue oldValue).filter (·.registration = registration) = [] := by
  rw [List.filter_eq_nil_iff]
  intro notice member
  obtain ⟨e, inside, rfl⟩ := List.mem_map.mp member
  have stored := Std.ExtTreeMap.mem_toList_iff_getElem?_eq_some.mp inside
  simpa using unused e.1 e.2 stored

end Step

end Registry

namespace Session

variable (log : LogTo W)

theorem seenBy_append {s t : Session C W} {notices : List (Notice C)} (registration : Nat)
    (seen : t.world.2 = s.world.2 ++ notices) :
    t.seenBy registration =
      s.seenBy registration ++ notices.filter (·.registration = registration) := by
  rw [seenBy, seen, List.filter_append, seenBy]

/-- While a registration stands, its notices lead to the value. -/
theorem performAll_replays {table : Registry C W} {s : Session C W}
    (described : table.Describes s) {id : Int} {entry : Nat × Listener C W}
    (registered : table[id]? = some entry) {start : C.T}
    (chain : Replays C start (s.seenBy entry.1) s.var.value) (calls : List (Call C W))
    (kept : ∀ call ∈ calls, ¬ call.Takes id) :
    Replays C start ((s.performAll log calls).seenBy entry.1) (s.performAll log calls).var.value ∧
      ∃ after : Registry C W, after.Describes (s.performAll log calls) ∧
        after[id]? = some entry := by
  induction calls generalizing table s with
  | nil => exact ⟨chain, table, described, registered⟩
  | cons call rest ih =>
      have untaken := kept call List.mem_cons_self
      have later := fun other member => kept other (List.mem_cons_of_mem call member)
      have remains : (table.insertNew s call)[id]? = some entry := by
        cases call with
        | setValue value => exact registered
        | fromString text => exact registered
        | addListener other listener =>
            have apart : ¬ compare other id = .eq := fun same =>
              untaken (Std.LawfulEqCmp.eq_of_compare same)
            rw [Registry.insertNew, Std.ExtTreeMap.getElem?_insert, if_neg apart, registered]
        | removeListener other =>
            have apart : ¬ compare other id = .eq := fun same =>
              untaken (Std.LawfulEqCmp.eq_of_compare same)
            rw [Registry.insertNew, Std.ExtTreeMap.getElem?_erase, if_neg apart, registered]
      have extended : Replays C start ((s.perform log call).seenBy entry.1)
          (s.perform log call).var.value := by
        cases described.moves log call with
        | stays value seen =>
            rw [seenBy, seen, value]
            exact chain
        | changes differs seen =>
            rw [seenBy_append entry.1 seen, described.notices_of registered]
            let notice : Notice C := ⟨entry.1, (s.perform log call).var.value, s.var.value⟩
            exact Replays.snoc chain (show notice.oldValue = s.var.value from rfl) differs
      exact ih (described.perform log call) remains extended later

/-- A registration that no id has any more gets no further call. -/
theorem performAll_silent {table : Registry C W} {s : Session C W}
    (described : table.Describes s) {registration : Nat} (past : registration < s.registrations)
    (unused : ∀ (id : Int) (entry : Nat × Listener C W), table[id]? = some entry →
      entry.1 ≠ registration) (calls : List (Call C W)) :
    (s.performAll log calls).seenBy registration = s.seenBy registration := by
  induction calls generalizing table s with
  | nil => rfl
  | cons call rest ih =>
      have still : ∀ (id : Int) (entry : Nat × Listener C W),
          (table.insertNew s call)[id]? = some entry → entry.1 ≠ registration := by
        intro id entry stored
        cases call with
        | setValue value => exact unused id entry stored
        | fromString text => exact unused id entry stored
        | addListener other listener =>
            rw [Registry.insertNew, Std.ExtTreeMap.getElem?_insert] at stored
            split at stored
            · obtain rfl := Option.some.inj stored
              change s.registrations ≠ registration
              omega
            · exact unused id entry stored
        | removeListener other =>
            rw [Registry.insertNew, Std.ExtTreeMap.getElem?_erase] at stored
            split at stored
            · cases stored
            · exact unused id entry stored
      have grows : registration < (s.perform log call).registrations := by
        cases call with
        | addListener id listener => exact Nat.lt_succ_of_lt past
        | removeListener id => exact past
        | setValue value => exact past
        | fromString text => exact past
      have same : (s.perform log call).seenBy registration = s.seenBy registration := by
        cases described.moves log call with
        | stays value seen => rw [seenBy, seen, seenBy]
        | changes differs seen =>
            rw [seenBy_append registration seen, Registry.notices_none unused, List.append_nil]
      exact (ih (described.perform log call) grows still).trans same

/-- Taking the id of a registration silences it. -/
theorem performAll_taken {table : Registry C W} {s : Session C W}
    (described : table.Describes s) {id : Int} {entry : Nat × Listener C W}
    (registered : table[id]? = some entry) {last : Call C W} (takes : last.Takes id)
    (rest : List (Call C W)) :
    (s.performAll log (last :: rest)).seenBy entry.1 = s.seenBy entry.1 := by
  have past := described.below id entry registered
  have next := described.perform log last
  -- Whoever had the registration would have to be under the id, which is another's now.
  cases last with
  | setValue value => exact takes.elim
  | fromString text => exact takes.elim
  | addListener other listener =>
      obtain rfl : other = id := takes
      have silent := performAll_silent log next (Nat.lt_succ_of_lt past)
        (fun place found stored same => ?_) rest
      · exact silent
      · rw [Registry.insertNew, Std.ExtTreeMap.getElem?_insert] at stored
        split at stored
        · obtain rfl := Option.some.inj stored
          exact Nat.ne_of_gt past same
        · rename_i apart
          have here := described.apart place other found entry stored registered same
          exact apart (here ▸ Std.ReflCmp.compare_self)
  | removeListener other =>
      obtain rfl : other = id := takes
      have silent := performAll_silent log next past (fun place found stored same => ?_) rest
      · exact silent
      · rw [Registry.insertNew, Std.ExtTreeMap.getElem?_erase] at stored
        split at stored
        · cases stored
        · rename_i apart
          have here := described.apart place other found entry stored registered same
          exact apart (here ▸ Std.ReflCmp.compare_self)

/-- After any calls some table describes the listeners, and no notice is from a registration
to come. -/
theorem performAll_describes {table : Registry C W} {s : Session C W}
    (described : table.Describes s)
    (recorded : ∀ notice ∈ s.world.2, notice.registration < s.registrations)
    (calls : List (Call C W)) :
    (∃ after : Registry C W, after.Describes (s.performAll log calls)) ∧
      ∀ notice ∈ (s.performAll log calls).world.2,
        notice.registration < (s.performAll log calls).registrations := by
  induction calls generalizing table s with
  | nil => exact ⟨⟨table, described⟩, recorded⟩
  | cons call rest ih =>
      apply ih (described.perform log call)
      have grows : s.registrations ≤ (s.perform log call).registrations := by
        cases call with
        | addListener id listener => exact Nat.le_succ _
        | removeListener id => exact Nat.le_refl _
        | setValue value => exact Nat.le_refl _
        | fromString text => exact Nat.le_refl _
      intro notice inside
      cases described.moves log call with
      | stays value seen =>
          rw [seen] at inside
          exact Nat.lt_of_lt_of_le (recorded notice inside) grows
      | changes differs seen =>
          rw [seen] at inside
          rcases List.mem_append.mp inside with old | fresh
          · exact Nat.lt_of_lt_of_le (recorded notice old) grows
          · obtain ⟨e, member, rfl⟩ := List.mem_map.mp fresh
            have stored := Std.ExtTreeMap.mem_toList_iff_getElem?_eq_some.mp member
            exact Nat.lt_of_lt_of_le (described.below e.1 e.2 stored) grows

/-- From its registration on, and until its id is taken again or removed, a listener gets
the changes that lead from the value it found to the value there is; then it gets none. -/
theorem listener_replays (name : String) (value : C.T) (description : String) (w : W)
    (front : List (Call C W)) (id : Int) (listener : Listener C W) (middle : List (Call C W))
    (kept : ∀ call ∈ middle, ¬ call.Takes id) :
    let before := (new name value description w).performAll log front
    let after := (before.perform log (.addListener id listener)).performAll log middle
    Replays C before.var.value (after.seenBy before.registrations) after.var.value ∧
      ∀ (last : Call C W) (rest : List (Call C W)), last.Takes id →
        (after.performAll log (last :: rest)).seenBy before.registrations =
          after.seenBy before.registrations := by
  intro before after
  obtain ⟨⟨table, described⟩, recorded⟩ := performAll_describes log
    (Registry.describes_new name value description w) (fun notice inside => by cases inside) front
  have added := described.perform log (.addListener id listener)
  have registered : (table.insertNew before (.addListener id listener))[id]? =
      some (before.registrations, listener) := by
    rw [Registry.insertNew, Std.ExtTreeMap.getElem?_insert_self]
  have unseen : (before.perform log (.addListener id listener)).seenBy before.registrations =
      [] := by
    apply List.filter_eq_nil_iff.mpr
    intro notice inside same
    have earlier := recorded notice inside
    rw [of_decide_eq_true same] at earlier
    exact Nat.lt_irrefl _ earlier
  have chain : Replays C before.var.value
      ((before.perform log (.addListener id listener)).seenBy before.registrations)
      (before.perform log (.addListener id listener)).var.value := by
    rw [unseen]
    rfl
  obtain ⟨replays, final, tracked, standing⟩ :=
    performAll_replays log added registered chain middle kept
  exact ⟨replays, fun last rest takes => performAll_taken log tracked standing takes rest⟩

/-- Pairs that are compared by their first component. -/
def coarseType : ConfigType where
  T := Nat × Nat
  eq x y := x.1 == y.1
  fromStr _ := .error "bad lexical cast"
  toStr _ := .ok ""

def idle : Listener coarseType Unit := ⟨fun _ _ w => (w, none), fun _ _ _ => rfl⟩

/-- A value that fails to decode, one that is found equal and two that are set, beside
another listener. -/
def coarseCalls : List (Call coarseType Unit) :=
  [.fromString "x", .setValue (1, 9), .addListener 8 idle, .setValue (2, 0), .removeListener 8,
    .setValue (3, 1)]

theorem listener_replays_coarse :
    let before := (new "pair" (0, 0) "" ()).performAll (C := coarseType) (fun _ _ w => w)
      [.addListener 7 idle, .setValue (1, 5)]
    let after := (before.perform (fun _ _ w => w) (.addListener 7 idle)).performAll
      (fun _ _ w => w) coarseCalls
    (after.seenBy 1).map (fun n => (n.newValue, n.oldValue)) =
        [((2, 0), (1, 5)), ((3, 1), (2, 0))] ∧
      Replays coarseType (1, 5) (after.seenBy 1) (3, 1) ∧
      (after.performAll (fun _ _ w => w) [.removeListener 7, .setValue (4, 4)]).seenBy 1 =
        after.seenBy 1 := by
  have kept : ∀ call ∈ coarseCalls, ¬ call.Takes 7 := by
    simp [coarseCalls, Call.Takes]
  have replays := listener_replays (C := coarseType) (fun _ _ w => w) "pair" (0, 0) "" ()
    [.addListener 7 idle, .setValue (1, 5)] 7 idle coarseCalls kept
  exact ⟨by rfl, replays.1, replays.2 (.removeListener 7) [.setValue (4, 4)] rfl⟩

end Session

end ZnetServer
