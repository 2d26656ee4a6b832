import Mathlib.Data.Multiset.Defs
import ZnetServer.Config
import ZnetServer.FlowYaml
import ZnetServer.OrderedSet
import ZnetServer.UnorderedSet

set_option autoImplicit false

/- `server/config.h`: the `LexicalCast`s of the standard containers. An object of an unordered
container has an order of iteration that its value, which `==` compares, does not show. -/
namespace ZnetServer

open Yaml

/-- A type with its two `LexicalCast`s. -/
structure Codec where
  T : Type
  Val : Type
  value : T → Val
  same : DecidableEq Val
  fromStr : String → Except Fault T
  toStr : T → Except Fault String

attribute [instance] Codec.same

namespace Codec

/-- What `ConfigVar` is instantiated with. -/
def type (C : Codec) : ConfigType where
  T := C.T
  eq x y := decide (C.value x = C.value y)
  fromStr := C.fromStr
  toStr := C.toStr

/-- `FromStr()(ToStr()(x))` -/
def recast (C : Codec) (x : C.T) : Except Fault C.T := do
  C.fromStr (← C.toStr x)

/-- `FromStr(emit(YAML::Load(ToStr(x))))` -/
def reread (yaml : YamlCpp) (C : Codec) (x : C.T) : Except Fault C.T := do
  let text ← C.toStr x
  let node ← yaml.load text
  C.fromStr (yaml.emit node)

def Good (yaml : YamlCpp) (C : Codec) : Prop :=
  ∀ x, ∃ y, C.reread yaml x = .ok y ∧ C.value y = C.value x

def RoundTrips (C : Codec) : Prop := ∀ x, ∃ y, C.recast x = .ok y ∧ C.value y = C.value x

end Codec

/-- A container that is filled element by element. -/
structure Sequence (C : Codec) where
  T : Type
  Val : Type
  value : T → Val
  same : DecidableEq Val
  /-- The elements that a loop over the container meets. -/
  elements : T → List C.T
  /-- `push_back` or `insert` for each element. -/
  collect : List C.T → T
  collects : ∀ (v : T) (read : List C.T), read.map C.value = (elements v).map C.value →
    value (collect read) = value v

namespace Sequence

variable (yaml : YamlCpp) {C : Codec}

/-- `CAST_TO_STRING` -/
def castToString (v : List C.T) : Except Fault String := do
  let nodes ← v.mapM fun i => do yaml.load (← C.toStr i)
  .ok (yaml.dump (.ofItems nodes))

/-- The loop of the decoders over `node[i]`. -/
def castFromString (text : String) : Except Fault (List C.T) := do
  let node ← yaml.load text
  (List.range node.size).mapM fun i => do
    C.fromStr (Node.emitted yaml (← Node.at_ yaml i (some node)))

def codec (S : Sequence C) : Codec where
  T := S.T
  Val := S.Val
  value := S.value
  same := S.same
  fromStr text := do .ok (S.collect (← castFromString yaml text))
  toStr v := castToString yaml (S.elements v)

variable (C)

def vector : Sequence C where
  T := List C.T
  Val := List C.Val
  value := List.map C.value
  same := inferInstance
  elements v := v
  collect read := read
  collects _ _ agree := agree

def list : Sequence C where
  T := List C.T
  Val := List C.Val
  value := List.map C.value
  same := inferInstance
  elements l := l
  collect read := read
  collects _ _ agree := agree

/-- `operator<` orders the values of the elements. -/
def set [LinearOrder C.Val] : Sequence C where
  T := OrderedSet C.value
  Val := List C.Val
  value se := se.toList.map C.value
  same := inferInstance
  elements se := se.toList
  collect read := .ofList read
  collects := by
    intro v read agree
    have sorted : read.Pairwise (C.value · < C.value ·) := by
      rw [← List.pairwise_map (f := C.value) (R := (· < ·)), agree, List.pairwise_map]
      exact v.sorted
    rw [OrderedSet.toList_ofList sorted, agree]

def unorderedSet : Sequence C where
  T := UnorderedSet C.value
  Val := Multiset C.Val
  value se := (se.toList.map C.value : List C.Val)
  same := inferInstance
  elements se := se.toList
  collect read := read.foldl .insert .empty
  collects := by
    intro v read agree
    have apart : (read.map C.value).Nodup := by
      rw [agree]
      exact v.apart
    rw [UnorderedSet.toList_foldl_insert apart, agree]

end Sequence

section Assignments

variable {α β : Type}

/-- `m[it.first] = it.second` for the entries in turn. -/
def assignAll (m : Std.ExtTreeMap String α) (entries : List (String × α)) :
    Std.ExtTreeMap String α :=
  entries.foldl (fun m it => m.insert it.1 it.2) m

theorem map_assignAll (f : α → β) (m : Std.ExtTreeMap String α) (entries : List (String × α)) :
    (assignAll m entries).map (fun _ => f) =
      assignAll (m.map fun _ => f) (entries.map (Prod.map id f)) := by
  induction entries generalizing m with
  | nil => rfl
  | cons entry rest ih =>
      have step := ih (m.insert entry.1 entry.2)
      rw [map_insert] at step
      exact step

theorem assignAll_eq (m : Std.ExtTreeMap String α) (entries : List (String × α)) :
    assignAll m entries = m.insertMany entries := by
  induction entries generalizing m with
  | nil => exact Std.ExtTreeMap.insertMany_nil.symm
  | cons entry rest ih => exact (ih _).trans Std.ExtTreeMap.insertMany_cons.symm

/-- The entries of a map, assigned to an empty one, give it back. -/
theorem assignAll_toList (m : Std.ExtTreeMap String α) : assignAll ∅ m.toList = m := by
  rw [assignAll_eq]
  apply Std.ExtTreeMap.ext_getElem?
  intro k
  cases found : m[k]? with
  | some v =>
      have member := Std.ExtTreeMap.mem_toList_iff_getElem?_eq_some.mpr found
      exact Std.ExtTreeMap.getElem?_insertMany_list_of_mem Std.ReflCmp.compare_self
        Std.ExtTreeMap.distinct_keys_toList member
  | none =>
      have missing : (m.toList.map Prod.fst).contains k = false := by
        rw [Std.ExtTreeMap.map_fst_toList_eq_keys]
        simpa using found
      rw [Std.ExtTreeMap.getElem?_insertMany_list_of_contains_eq_false missing]
      exact Std.ExtTreeMap.getElem?_empty

end Assignments

/-- A container that is filled by assignments to its keys. -/
structure Mapping (C : Codec) where
  T : Type
  Val : Type
  value : T → Val
  same : DecidableEq Val
  /-- The entries that a loop over the container meets. -/
  entries : T → List (String × C.T)
  distinct : ∀ v, ((entries v).map Prod.fst).Nodup
  /-- `m[key] = value` for each entry. -/
  collect : List (String × C.T) → T
  collects : ∀ (v : T) (read : List (String × C.T)),
    read.map (Prod.map id C.value) = (entries v).map (Prod.map id C.value) →
      value (collect read) = value v

namespace Mapping

variable (yaml : YamlCpp) {C : Codec}

def castToString (m : List (String × C.T)) : Except Fault String := do
  let fields ← m.mapM fun i => do .ok (i.1, ← yaml.load (← C.toStr i.2))
  .ok (yaml.emit (.ofFields fields))

/-- The loop of the decoders from `node.begin()` to `node.end()`. -/
def castNode : Node → Except Fault (List (String × C.T))
  | .map entries => entries.mapM fun it => do .ok (it.1.text, ← C.fromStr (yaml.emit it.2))
  -- An item of a sequence is no pair: `it->first` is a node that cannot be read.
  | .sequence (_ :: _) => .error "invalid node"
  | .sequence [] | .scalar _ | .null => .ok []

def castFromString (text : String) : Except Fault (List (String × C.T)) := do
  castNode yaml (← yaml.load text)

def codec (M : Mapping C) : Codec where
  T := M.T
  Val := M.Val
  value := M.value
  same := M.same
  fromStr text := do .ok (M.collect (← castFromString yaml text))
  toStr m := castToString yaml (M.entries m)

variable (C)

def map : Mapping C where
  T := Std.ExtTreeMap String C.T
  Val := Std.ExtTreeMap String C.Val
  value m := m.map fun _ => C.value
  same := inferInstance
  entries m := m.toList
  distinct m := by
    rw [Std.ExtTreeMap.map_fst_toList_eq_keys]
    exact Std.ExtTreeMap.nodup_keys
  collect read := assignAll ∅ read
  collects := by
    intro m read agree
    rw [map_assignAll, agree, ← map_assignAll, assignAll_toList]

def unorderedMap : Mapping C where
  T := UnorderedSet (Prod.fst : String × C.T → String)
  Val := Multiset (String × C.Val)
  value m := (m.toList.map (Prod.map id C.value) : List (String × C.Val))
  same := inferInstance
  entries m := m.toList
  distinct m := m.apart
  collect read := read.foldl .assign .empty
  collects := by
    intro v read agree
    have keys : read.map Prod.fst = v.toList.map Prod.fst := by
      have firsts := congrArg (List.map Prod.fst) agree
      simpa only [List.map_map, Prod.map_fst', Function.id_comp] using firsts
    have apart : (read.map Prod.fst).Nodup := by
      rw [keys]
      exact v.apart
    rw [UnorderedSet.toList_foldl_assign apart, agree]

end Mapping

/-- The six containers of one element type. -/
inductive Container (yaml : YamlCpp) (C : Codec) : Codec → Prop
  | vector : Container yaml C ((Sequence.vector C).codec yaml)
  | list : Container yaml C ((Sequence.list C).codec yaml)
  | set [LinearOrder C.Val] : Container yaml C ((Sequence.set C).codec yaml)
  | unorderedSet : Container yaml C ((Sequence.unorderedSet C).codec yaml)
  | map : Container yaml C ((Mapping.map C).codec yaml)
  | unorderedMap : Container yaml C ((Mapping.unorderedMap C).codec yaml)

/-- `boost::lexical_cast` between `int` and `std::string`. -/
structure Boost where
  toText : Int32 → String
  toInt : String → Except Fault Int32

def Codec.int (boost : Boost) : Codec where
  T := Int32
  Val := Int32
  value n := n
  same := inferInstance
  fromStr := boost.toInt
  toStr n := .ok (boost.toText n)

/-- The types that are nested from `int` by the containers. -/
inductive Nested (yaml : YamlCpp) (boost : Boost) : Codec → Prop
  | int : Nested yaml boost (.int boost)
  | container {C D : Codec} (inner : Nested yaml boost C) (outer : Container yaml C D) :
      Nested yaml boost D

/-- The cast to `int` undoes the one to text, and the text stands for itself in a document. -/
structure Boost.Decimal (boost : Boost) (yaml : YamlCpp) : Prop where
  toInt_toText : ∀ n, boost.toInt (boost.toText n) = .ok n
  load_toText : ∀ n, yaml.load (boost.toText n) = .ok (.scalar (boost.toText n))
  emit_scalar : ∀ n, yaml.emit (.scalar (boost.toText n)) = boost.toText n

section RoundTrips

variable {yaml : YamlCpp} {C : Codec}

/-- A good codec has a node for every object, and reads an object of the same value from it. -/
theorem Codec.Good.functions (good : C.Good yaml) :
    ∃ (encode : C.T → Node) (again : C.T → C.T), ∀ x,
      (do yaml.load (← C.toStr x)) = .ok (encode x) ∧
      C.fromStr (yaml.emit (encode x)) = .ok (again x) ∧ C.value (again x) = C.value x := by
  have each : ∀ x, ∃ (node : Node) (y : C.T), (do yaml.load (← C.toStr x)) = .ok node ∧
      C.fromStr (yaml.emit node) = .ok y ∧ C.value y = C.value x := by
    intro x
    obtain ⟨y, reread, value⟩ := good x
    obtain ⟨text, written, reread⟩ := bind_ok_iff.mp reread
    obtain ⟨node, loaded, read⟩ := bind_ok_iff.mp reread
    exact ⟨node, y, bind_ok_iff.mpr ⟨text, written, loaded⟩, read, value⟩
  choose encode again reads using each
  exact ⟨encode, again, reads⟩

/-- A codec whose texts load as nodes that are read with the same value. -/
theorem Codec.restores {D : Codec} (undoes : yaml.Undoes) (node : D.T → Node)
    (written : ∀ v, ∃ text, D.toStr v = .ok text ∧ yaml.load text = .ok (node v))
    (read : ∀ v text, yaml.load text = .ok (node v) →
      ∃ y, D.fromStr text = .ok y ∧ D.value y = D.value v) :
    D.RoundTrips ∧ D.Good yaml := by
  constructor
  · intro v
    obtain ⟨text, encoded, loaded⟩ := written v
    obtain ⟨y, decoded, value⟩ := read v text loaded
    exact ⟨y, bind_ok_iff.mpr ⟨text, encoded, decoded⟩, value⟩
  · intro v
    obtain ⟨text, encoded, loaded⟩ := written v
    obtain ⟨y, decoded, value⟩ := read v (yaml.emit (node v)) (undoes.load_emit (node v))
    exact ⟨y, bind_ok_iff.mpr ⟨text, encoded, bind_ok_iff.mpr ⟨node v, loaded, decoded⟩⟩, value⟩

theorem Sequence.codec_restores (undoes : yaml.Undoes) (good : C.Good yaml) (S : Sequence C) :
    (S.codec yaml).RoundTrips ∧ (S.codec yaml).Good yaml := by
  obtain ⟨encode, again, reads⟩ := good.functions
  apply Codec.restores undoes fun v => .ofItems ((S.elements v).map encode)
  · intro v
    have nodes : (S.elements v).mapM (fun i => do yaml.load (← C.toStr i)) =
        .ok ((S.elements v).map encode) :=
      mapM_ok fun i _ => (reads i).1
    exact ⟨_, bind_ok_iff.mpr ⟨_, nodes, rfl⟩, undoes.load_dump _⟩
  · intro v text loaded
    have elements : castFromString yaml text = .ok ((S.elements v).map again) :=
      bind_ok_iff.mpr ⟨_, loaded, Node.mapM_at yaml
        (f := fun node => C.fromStr (Node.emitted yaml node)) fun i _ => (reads i).2.1⟩
    refine ⟨_, bind_ok_iff.mpr ⟨_, elements, rfl⟩, S.collects v _ ?_⟩
    rw [List.map_map]
    exact List.map_congr_left fun i _ => (reads i).2.2

/-- The loop of a decoder over a node that was filled key by key. -/
theorem Mapping.castNode_ofFields {α : Type} {encode : α → Node} {again : α → C.T}
    (reads : ∀ x, C.fromStr (yaml.emit (encode x)) = .ok (again x))
    (entries : List (String × α)) :
    castNode yaml (.ofFields (entries.map (Prod.map id encode))) =
      .ok (entries.map (Prod.map id again)) := by
  cases entries with
  | nil => rfl
  | cons entry rest =>
      have loop : (((entry :: rest).map (Prod.map id encode)).map fun field =>
            (Node.scalar field.1, field.2)).mapM
          (fun it => do .ok (it.1.text, ← C.fromStr (yaml.emit it.2))) =
          .ok ((entry :: rest).map (Prod.map id again)) := by
        rw [List.map_map, List.mapM_map]
        apply mapM_ok
        intro i _
        exact bind_ok_iff.mpr ⟨_, reads i.2, rfl⟩
      exact loop

theorem Mapping.codec_restores (undoes : yaml.Undoes) (good : C.Good yaml) (M : Mapping C) :
    (M.codec yaml).RoundTrips ∧ (M.codec yaml).Good yaml := by
  obtain ⟨encode, again, reads⟩ := good.functions
  apply Codec.restores undoes fun v => .ofFields ((M.entries v).map (Prod.map id encode))
  · intro v
    have fields : (M.entries v).mapM (fun i => do .ok (i.1, ← yaml.load (← C.toStr i.2))) =
        .ok ((M.entries v).map (Prod.map id encode)) := by
      apply mapM_ok
      intro i _
      obtain ⟨text, encoded, read⟩ := bind_ok_iff.mp (reads i.2).1
      exact bind_ok_iff.mpr ⟨text, encoded, bind_ok_iff.mpr ⟨_, read, rfl⟩⟩
    exact ⟨_, bind_ok_iff.mpr ⟨_, fields, rfl⟩, undoes.load_emit _⟩
  · intro v text loaded
    have entries : castFromString yaml text = .ok ((M.entries v).map (Prod.map id again)) :=
      bind_ok_iff.mpr ⟨_, loaded, castNode_ofFields (fun x => (reads x).2.1) (M.entries v)⟩
    refine ⟨_, bind_ok_iff.mpr ⟨_, entries, rfl⟩, M.collects v _ ?_⟩
    rw [List.map_map]
    apply List.map_congr_left
    intro i _
    exact Prod.ext rfl (reads i.2).2.2

theorem Container.restores (undoes : yaml.Undoes) (good : C.Good yaml) {D : Codec}
    (container : Container yaml C D) : D.RoundTrips ∧ D.Good yaml := by
  cases container with
  | vector => exact (Sequence.vector C).codec_restores undoes good
  | list => exact (Sequence.list C).codec_restores undoes good
  | set => exact (Sequence.set C).codec_restores undoes good
  | unorderedSet => exact (Sequence.unorderedSet C).codec_restores undoes good
  | map => exact (Mapping.map C).codec_restores undoes good
  | unorderedMap => exact (Mapping.unorderedMap C).codec_restores undoes good

theorem Codec.int_restores {boost : Boost} (decimal : boost.Decimal yaml) :
    (Codec.int boost).RoundTrips ∧ (Codec.int boost).Good yaml := by
  constructor
  · intro n
    exact ⟨n, decimal.toInt_toText n, rfl⟩
  · intro n
    have read : boost.toInt (yaml.emit (.scalar (boost.toText n))) = .ok n :=
      (congrArg boost.toInt (decimal.emit_scalar n)).trans (decimal.toInt_toText n)
    exact ⟨n, bind_ok_iff.mpr ⟨_, rfl, bind_ok_iff.mpr ⟨_, decimal.load_toText n, read⟩⟩, rfl⟩

/-- By induction on the nesting. -/
theorem Nested.restores (undoes : yaml.Undoes) {boost : Boost} (decimal : boost.Decimal yaml)
    (nested : Nested yaml boost C) : C.RoundTrips ∧ C.Good yaml := by
  induction nested with
  | int => exact Codec.int_restores decimal
  | container _ outer ih => exact outer.restores undoes ih.2

variable {W : Type}

/-- What a variable writes, it reads as its own value, and every other variable of its
type takes that value. -/
theorem Codec.RoundTrips.fromString (restores : C.RoundTrips) (log : LogTo W)
    (var : ConfigVar C.type W) (w : W) :
    ∃ text, var.toString log w = (text, w) ∧ var.fromString log text w = (var, w, true) ∧
      ∀ other : ConfigVar C.type W,
        C.value (other.fromString log text w).1.value = C.value var.value := by
  obtain ⟨y, recast, value⟩ := restores var.value
  obtain ⟨text, written, read⟩ := bind_ok_iff.mp recast
  have encodes : C.type.toStr var.value = .ok text := written
  have decodes : C.type.fromStr text = .ok y := read
  refine ⟨text, by simp only [ConfigVar.toString, encodes], ?_, fun other => ?_⟩
  · have equal : C.type.eq var.value y = true := decide_eq_true value.symm
    simp only [ConfigVar.fromString, decodes, ConfigVar.setValue, equal, ↓reduceIte]
  · rw [ConfigVar.fromString_var]
    simp only [ConfigVar.accept, decodes]
    split
    · rename_i equal
      exact (of_decide_eq_true equal).trans value
    · exact value

/-- The containers of a good codec are good and round-trip, so a variable of a type that is
nested from `int` in any depth keeps its value through `toString` and `fromString`. -/
theorem fromString_toString_nested (undoes : yaml.Undoes) {boost : Boost}
    (decimal : boost.Decimal yaml) :
    (∀ C D : Codec, C.Good yaml → Container yaml C D → D.RoundTrips ∧ D.Good yaml) ∧
    ∀ C : Codec, Nested yaml boost C → ∀ (log : LogTo W) (var : ConfigVar C.type W) (w : W),
      ∃ text, var.toString log w = (text, w) ∧ var.fromString log text w = (var, w, true) ∧
        ∀ other : ConfigVar C.type W,
          C.value (other.fromString log text w).1.value = C.value var.value :=
  ⟨fun _ _ good container => container.restores undoes good,
    fun _ nested => (nested.restores undoes decimal).1.fromString⟩

end RoundTrips

/-- Decimal texts of the 32-bit integers. -/
def decimalCast : Boost where
  toText n := String.ofList (decimal n.toInt)
  toInt text := match readDecimal text.toList with
    | some n =>
      if Int32.minValue.toInt ≤ n ∧ n ≤ Int32.maxValue.toInt then .ok (.ofInt n)
      else .error "bad lexical cast"
    | none => .error "bad lexical cast"

theorem decimalCast_decimal : decimalCast.Decimal plainYaml := by
  have reads : ∀ n : Int32, readDecimal (decimalCast.toText n).toList = some n.toInt := by
    intro n
    simp only [decimalCast, String.toList_ofList, readDecimal_decimal]
  constructor
  · intro n
    have inside : Int32.minValue.toInt ≤ n.toInt ∧ n.toInt ≤ Int32.maxValue.toInt :=
      ⟨n.minValue_le_toInt, n.toInt_le⟩
    change (match readDecimal (decimalCast.toText n).toList with
      | some n =>
        if Int32.minValue.toInt ≤ n ∧ n ≤ Int32.maxValue.toInt then Except.ok (Int32.ofInt n)
        else .error "bad lexical cast"
      | none => .error "bad lexical cast") = .ok n
    simp only [reads n, if_pos inside, Int32.ofInt_toInt]
  · intro n
    simp only [plainYaml, reads n, Option.isSome_some, ↓reduceIte]
  · intro n
    simp only [plainYaml, printPlain, reads n, Option.isSome_some, ↓reduceIte]

/-- `std::map<std::string, std::vector<int>>` -/
def rangesCodec : Codec :=
  (Mapping.map ((Sequence.vector (.int decimalCast)).codec plainYaml)).codec plainYaml

/-- Two entries, one of them empty and under the empty key. -/
def rangesVar : ConfigVar rangesCodec.type Unit :=
  let ranges : Std.ExtTreeMap String (List Int32) := assignAll ∅ [("a: b", [3, -1]), ("", [])]
  .new "ranges" ranges ""

theorem fromString_toString_nested_ranges :
    ∃ text, rangesVar.toString (fun _ _ w => w) () = (text, ()) ∧
      rangesVar.fromString (fun _ _ w => w) text () = (rangesVar, (), true) := by
  have nested : Nested plainYaml decimalCast rangesCodec :=
    .container (.container .int .vector) .map
  obtain ⟨text, written, read, _⟩ :=
    (fromString_toString_nested plainYaml_undoes decimalCast_decimal).2 rangesCodec nested
      (fun _ _ w => w) rangesVar ()
  exact ⟨text, written, read⟩

end ZnetServer
