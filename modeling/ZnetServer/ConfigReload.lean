import Mathlib.Data.List.Induction
import ZnetServer.ConfigLoad

set_option autoImplicit false

/- Loading a document a second time. -/
namespace ZnetServer

open Yaml

/-- A world with the listeners that were called in it, by variable and id. -/
abbrev Heard (W : Type) := W × List (String × Int)

/-- The variable with listeners that record their calls. -/
def ConfigVar.heard {C : ConfigType} {W : Type} (var : ConfigVar C W) : ConfigVar C (Heard W) where
  name := var.name
  description := var.description
  value := var.value
  cbs := var.cbs.map fun id cb newValue oldValue w =>
    let result := cb newValue oldValue w.1
    ((result.1, w.2 ++ [(var.name, id)]), result.2)

namespace Config

variable {ι : Type} {types : ι → ConfigType} {W : Type}

def heard (config : Config types W) : Config types (Heard W) where
  datas := config.datas.map fun _ var => ⟨var.1, var.2.heard⟩
  named := by
    intro name var found
    rw [Std.ExtTreeMap.getElem?_map] at found
    obtain ⟨own, stored, rfl⟩ := Option.map_eq_some_iff.mp found
    exact config.named name own stored

@[simp] theorem lookupBase_heard (config : Config types W) (name : String) :
    config.heard.lookupBase name = (config.lookupBase name).map fun var => ⟨var.1, var.2.heard⟩ :=
  Std.ExtTreeMap.getElem?_map

/-- Log statements call no listener. -/
def heardLog (log : LogTo W) : LogTo (Heard W) := fun level text w => (log level text w.1, w.2)

/-- Loading the document calls no listener and changes no value at any moment. -/
def Silent (yaml : YamlCpp) (log : LogTo W) (state : Config types (Heard W) × Heard W)
    (node : Node) : Prop :=
  let listed := listAllYamlMember (heardLog log) node "" ([], state.2)
  ∀ front, front <+: listed.1 →
    let moment := front.foldl (loadMember yaml (heardLog log)) (state.1, listed.2)
    (∀ name, moment.1.lookupBase name = state.1.lookupBase name) ∧ moment.2.2 = state.2.2

/-- What the nodes under one name decode to is equal by the type's `operator==`. -/
def Agreeing (yaml : YamlCpp) (config : Config types W) (node : Node) : Prop :=
  ∀ name var, config.lookupBase name = some var →
    ∀ first ∈ textsNamed yaml node name, ∀ second ∈ textsNamed yaml node name,
      ∀ x y, (types var.1).fromStr first = .ok x → (types var.1).fromStr second = .ok y →
        (types var.1).eq x y = true

end Config

section Accept

variable {C : ConfigType} {W : Type} {texts : List String}

/-- No text sets the variable. -/
def ConfigVar.Steady (var : ConfigVar C W) (texts : List String) : Prop :=
  ∀ text ∈ texts, ∀ x, C.fromStr text = .ok x → C.eq var.value x = true

theorem ConfigVar.Steady.accept {var : ConfigVar C W} {text : String}
    (steady : var.Steady [text]) : var.accept text = var := by
  unfold ConfigVar.accept
  cases decoded : C.fromStr text with
  | error what => rfl
  | ok x =>
      have equal := steady text List.mem_cons_self x decoded
      simp only [equal, ↓reduceIte]

theorem ConfigVar.Steady.foldl {var : ConfigVar C W} (steady : var.Steady texts) :
    texts.foldl ConfigVar.accept var = var := by
  induction texts with
  | nil => rfl
  | cons text rest ih =>
      have first : var.accept text = var := ConfigVar.Steady.accept fun other member =>
        steady other (List.mem_singleton.mp member ▸ List.mem_cons_self)
      rw [List.foldl_cons, first]
      exact ih fun other member => steady other (List.mem_cons_of_mem text member)

/-- Texts that agree leave a value that is equal to each of theirs: it is the old one, or
that of the last text that was not equal to the value before it. -/
theorem ConfigVar.steady_foldl (var : ConfigVar C W)
    (agree : ∀ first ∈ texts, ∀ second ∈ texts, ∀ x y, C.fromStr first = .ok x →
      C.fromStr second = .ok y → C.eq x y = true) :
    (texts.foldl ConfigVar.accept var).Steady texts := by
  induction texts using List.reverseRecOn with
  | nil => exact fun text member => by cases member
  | append_singleton front last ih =>
      have before := ih fun first inside second member =>
        agree first (List.mem_append_left _ inside) second (List.mem_append_left _ member)
      have end_ : last ∈ front ++ [last] := List.mem_append_right _ List.mem_cons_self
      rw [List.foldl_append, List.foldl_cons, List.foldl_nil]
      intro text member x decoded
      unfold ConfigVar.accept
      cases own : C.fromStr last with
      | error what =>
          rcases List.mem_append.mp member with inside | here
          · exact before text inside x decoded
          · rw [List.mem_singleton.mp here, own] at decoded
            cases decoded
      | ok y =>
          simp only
          split
          · rename_i equal
            rcases List.mem_append.mp member with inside | here
            · exact before text inside x decoded
            · rw [List.mem_singleton.mp here, own] at decoded
              exact Except.ok.inj decoded ▸ equal
          · exact agree last end_ text member y x own decoded

/-- A text that does not set the variable calls no listener. -/
theorem ConfigVar.Steady.unheard {var : ConfigVar C (Heard W)} {text : String}
    (steady : var.Steady [text]) (log : LogTo W) (w : Heard W) :
    (var.fromString (Config.heardLog log) text w).2.1.2 = w.2 := by
  unfold ConfigVar.fromString
  cases decoded : C.fromStr text with
  | error what => rfl
  | ok x =>
      have equal := steady text List.mem_cons_self x decoded
      simp only [ConfigVar.setValue, equal, ↓reduceIte]

end Accept

namespace Config

variable {ι : Type} {types : ι → ConfigType} {W : Type} (yaml : YamlCpp) (log : LogTo W)

mutual

theorem listAllYamlMember_unheard (node : Node) (pre : String)
    (output : List (String × Node) × Heard W) :
    (listAllYamlMember (heardLog log) node pre output).2.2 = output.2.2 := by
  unfold listAllYamlMember
  split
  · cases node with
    | map entries => exact listEntries_unheard entries pre _
    | null | scalar | sequence => rfl
  · rfl

theorem listEntries_unheard (entries : List (Node × Node)) (pre : String)
    (output : List (String × Node) × Heard W) :
    (listEntries (heardLog log) entries pre output).2.2 = output.2.2 := by
  match entries with
  | [] => rfl
  | (key, value) :: rest =>
      rw [listEntries, listEntries_unheard rest, listAllYamlMember_unheard value]

end

/-- The texts of the members listed under a valid name are those that the document has. -/
theorem texts_listed {name : String} (valid : validName name = true) (node : Node) (w : Heard W) :
    (under name (listAllYamlMember (heardLog log) node "" ([], w)).1).map (memberText yaml ·.2) =
      textsNamed yaml node name := by
  rw [listAllYamlMember_under (heardLog log) valid]
  rfl

/-- The variables of a registry are steady under the texts of the document. -/
def Settled (config : Config types (Heard W)) (node : Node) : Prop :=
  ∀ name var, config.lookupBase name = some var → var.2.Steady (textsNamed yaml node name)

theorem loadFromYaml_settled (config : Config types W) {node : Node}
    (agreeing : Agreeing yaml config node) (w : W) :
    Settled yaml (loadFromYaml yaml (heardLog log) config.heard node (w, [])).1 node := by
  intro name var found
  rw [loadFromYaml_lookup, lookupBase_heard, Option.map_map] at found
  obtain ⟨own, stored, rfl⟩ := Option.map_eq_some_iff.mp found
  exact ConfigVar.steady_foldl own.2.heard (agreeing name own stored)

variable {yaml} {state : Config types (Heard W) × Heard W} {node : Node}

theorem Settled.lookup (settled : Settled yaml state.1 node) {w : Heard W}
    {front : List (String × Node)}
    (within : front <+: (listAllYamlMember (heardLog log) node "" ([], state.2)).1)
    (name : String) :
    (front.foldl (loadMember yaml (heardLog log)) (state.1, w)).1.lookupBase name =
      state.1.lookupBase name := by
  rw [loadMembers_lookup]
  cases found : state.1.lookupBase name with
  | none => rfl
  | some var =>
      have valid := (state.1.named name var found).2
      have texts : ∀ text ∈ (under name front).map (memberText yaml ·.2),
          text ∈ textsNamed yaml node name := by
        rw [← texts_listed yaml log valid node state.2]
        exact ((within.sublist.filter _).map _).subset
      have steady : var.2.Steady ((under name front).map (memberText yaml ·.2)) :=
        fun text member => settled name var found text (texts text member)
      rw [Option.map_some, steady.foldl]

/-- One member of a settled registry calls no listener. -/
theorem loadMember_unheard (member : String × Node)
    (steady : ∀ var, state.1.lookupBase member.1 = some var →
      var.2.Steady [memberText yaml member.2]) :
    (loadMember yaml (heardLog log) state member).2.2 = state.2.2 := by
  unfold loadMember
  split
  · rfl
  · rename_i var found
    exact (steady var found).unheard log state.2

theorem Settled.silent (settled : Settled yaml state.1 node) : Silent yaml log state node := by
  intro front within
  refine ⟨settled.lookup log within, ?_⟩
  induction front using List.reverseRecOn with
  | nil => exact listAllYamlMember_unheard log node "" ([], state.2)
  | append_singleton front member ih =>
      have before : front <+: (listAllYamlMember (heardLog log) node "" ([], state.2)).1 :=
        (List.prefix_append front [member]).trans within
      have unheard := ih before
      rw [List.foldl_append, List.foldl_cons, List.foldl_nil, loadMember_unheard log member,
        unheard]
      intro var found
      rw [settled.lookup log before] at found
      have listed : memberText yaml member.2 ∈ textsNamed yaml node member.1 := by
        rw [← texts_listed yaml log (state.1.named member.1 var found).2 node state.2]
        apply List.mem_map_of_mem
        rw [under, List.mem_filter]
        exact ⟨within.subset (List.mem_append_right _ List.mem_cons_self), decide_eq_true rfl⟩
      intro text own
      rw [List.mem_singleton.mp own]
      exact settled member.1 var found _ listed

/-- A silent load finds a settled registry. -/
theorem Silent.settled (silent : Silent yaml log state node)
    (reflexive : ∀ i x, (types i).eq x x = true) : Settled yaml state.1 node := by
  intro name var found text member x decoded
  have valid := (state.1.named name var found).2
  rw [← texts_listed yaml log valid node state.2] at member
  obtain ⟨own, listed, rfl⟩ := List.mem_map.mp member
  rw [under, List.mem_filter] at listed
  obtain rfl := of_decide_eq_true listed.2
  obtain ⟨front, back, split⟩ := List.append_of_mem listed.1
  have before := (silent front (split ▸ List.prefix_append front _)).1 own.1
  have reached : front ++ [own] <+: (listAllYamlMember (heardLog log) node "" ([], state.2)).1 :=
    ⟨back, by rw [split, List.append_assoc, List.singleton_append]⟩
  have after := (silent (front ++ [own]) reached).1 own.1
  rw [List.foldl_append, List.foldl_cons, List.foldl_nil, loadMember_lookup, if_pos rfl, before,
    found, Option.map_some] at after
  -- The member leaves the variable as it is, so it decodes to its value or to an equal one.
  have same : var.2.accept (memberText yaml own.2) = var.2 := by
    have pair := Option.some.inj after
    exact eq_of_heq (Sigma.mk.inj pair).2
  unfold ConfigVar.accept at same
  rw [decoded] at same
  by_cases equal : (types var.1).eq var.2.value x = true
  · exact equal
  · simp only [equal] at same
    have value := congrArg ConfigVar.value same
    exact value ▸ reflexive var.1 x

/-- After one load a second one is silent if all that the nodes of a variable's name decode
to is equal, and only then where `operator==` is an equivalence. -/
theorem reload_silent (yaml : YamlCpp) (config : Config types W) (node : Node) (w : W) :
    (Agreeing yaml config node →
      Silent yaml log (loadFromYaml yaml (heardLog log) config.heard node (w, [])) node) ∧
    ((∀ i, Equivalence fun x y => (types i).eq x y = true) →
      Silent yaml log (loadFromYaml yaml (heardLog log) config.heard node (w, [])) node →
        Agreeing yaml config node) := by
  refine ⟨fun agreeing => ?_, fun equivalence silent => ?_⟩
  · exact Settled.silent log (loadFromYaml_settled yaml log config agreeing w)
  · have settled := silent.settled log fun i x => (equivalence i).refl x
    intro name var found first inside second member x y decoded read
    have registered := loadFromYaml_lookup yaml (heardLog log) name config.heard node (w, [])
    rw [lookupBase_heard, found, Option.map_some, Option.map_some] at registered
    have equal := settled name _ registered
    exact (equivalence var.1).trans ((equivalence var.1).symm (equal first inside x decoded))
      (equal second member y read)

/-- Numbers by the texts that `boost::lexical_cast` prints: `nan` is not equal to itself. -/
def floatType : ConfigType where
  T := String
  eq x y := x != "nan" && x == y
  fromStr := .ok
  toStr := .ok

/-- A variable with one listener. -/
def listened (C : ConfigType) (name : String) (value : C.T) (valid : validName name = true) :
    Config (fun _ : Unit => C) Unit :=
  Config.empty.put name
    ⟨(), (ConfigVar.new name value "").addListener 0 fun _ _ w => (w, none)⟩ ⟨rfl, valid⟩

def ignoreLog : LogTo Unit := fun _ _ w => w

/-- One name as a key with a dot and as a path. -/
def twiceNamed : Node :=
  .map [(.scalar "log.level", .scalar "warn"),
    (.scalar "log", .map [(.scalar "level", .scalar "debug")])]

/-- The same with one value. -/
def twiceAgreed : Node :=
  .map [(.scalar "log.level", .scalar "warn"),
    (.scalar "log", .map [(.scalar "level", .scalar "warn")])]

theorem reload_silent_agreed :
    Silent default ignoreLog (loadFromYaml default (heardLog ignoreLog)
      (listened textType "log.level" "info" (by decide)).heard twiceAgreed ((), [])) twiceAgreed ∧
    Agreeing default (listened textType "log.level" "info" (by decide)) twiceAgreed := by
  have reload := reload_silent ignoreLog default
    (listened textType "log.level" "info" (by decide)) twiceAgreed ()
  have agreeing :
      Agreeing default (listened textType "log.level" "info" (by decide)) twiceAgreed := by
    intro name var found first inside second member x y decoded read
    by_cases same : "log.level" = name
    · subst same
      have texts : textsNamed default twiceAgreed "log.level" = ["warn", "warn"] := by decide
      rw [texts] at inside member
      simp only [List.mem_cons, List.not_mem_nil, or_false, or_self] at inside member
      subst inside member
      exact beq_iff_eq.mpr (Except.ok.inj (decoded.symm.trans read))
    · simp [listened, lookupBase, empty, put, same] at found
  have equivalence : ∀ _ : Unit, Equivalence fun x y => textType.eq x y = true := fun _ =>
    ⟨fun x => beq_iff_eq.mpr rfl, fun equal => beq_iff_eq.mpr (beq_iff_eq.mp equal).symm,
      fun first second => beq_iff_eq.mpr ((beq_iff_eq.mp first).trans (beq_iff_eq.mp second))⟩
  exact ⟨reload.1 agreeing, reload.2 equivalence (reload.1 agreeing)⟩

/-- The two ways in which a second load is heard: a name with two different values, and a
value that is not equal to itself. -/
theorem reload_heard :
    ¬ Silent default ignoreLog (loadFromYaml default (heardLog ignoreLog)
      (listened textType "log.level" "info" (by decide)).heard twiceNamed ((), [])) twiceNamed ∧
    ¬ Silent default ignoreLog (loadFromYaml default (heardLog ignoreLog)
      (listened floatType "ratio" "1" (by decide)).heard
        (.map [(.scalar "ratio", .scalar "nan")]) ((), []))
      (.map [(.scalar "ratio", .scalar "nan")]) := by
  constructor
  · intro silent
    have unheard := (silent _ (List.prefix_refl _)).2
    exact absurd (congrArg List.length unheard) (by decide)
  · intro silent
    have unheard := (silent _ (List.prefix_refl _)).2
    exact absurd (congrArg List.length unheard) (by decide)

end Config

end ZnetServer
