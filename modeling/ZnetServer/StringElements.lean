import ZnetServer.LexicalCast

set_option autoImplicit false

/- What becomes of the strings in a container when it is written and read again: each is a
document to the encoder, and what the decoder keeps is that document's print. -/
namespace ZnetServer

open Yaml

/-- `boost::lexical_cast` from `std::string` to itself. -/
abbrev Codec.string (lexicalCast : String → Except Fault String) : Codec where
  T := String
  Val := String
  value s := s
  same := inferInstance
  fromStr := lexicalCast
  toStr := lexicalCast

/-- `LexicalCast<string, C>(LexicalCast<C, string>(v)) = v` -/
def Codec.Survives (C : Codec) (v : C.T) : Prop := ∃ y, C.recast v = .ok y ∧ C.value y = C.value v

/-- The text is just what the library prints for the document that it reads in it. -/
def Yaml.YamlCpp.Prints (yaml : YamlCpp) (s : String) : Prop :=
  ∃ node, yaml.load s = .ok node ∧ yaml.emit node = s

/-- The text that is printed for a document. -/
def Yaml.YamlCpp.reprint (yaml : YamlCpp) (s : String) : String :=
  match yaml.load s with
  | .ok node => yaml.emit node
  | .error _ => s

inductive Sequence.Standard {C : Codec} : Sequence C → Prop
  | vector : Standard (Sequence.vector C)
  | list : Standard (Sequence.list C)
  | set [LinearOrder C.Val] : Standard (Sequence.set C)
  | unorderedSet : Standard (Sequence.unorderedSet C)

inductive Mapping.Standard {C : Codec} : Mapping C → Prop
  | map : Standard (Mapping.map C)
  | unorderedMap : Standard (Mapping.unorderedMap C)

section Contents

variable {C : Codec}

/-- A container with the value of one that was filled has none but the values put in. -/
theorem Sequence.Standard.mem_of_collect {S : Sequence C} (standard : S.Standard)
    {read : List C.T} {v : S.T} (same : S.value (S.collect read) = S.value v) {x : C.T}
    (member : x ∈ S.elements v) : C.value x ∈ read.map C.value := by
  cases standard with
  | vector =>
      have values : read.map C.value = List.map C.value v := same
      rw [values]
      exact List.mem_map_of_mem member
  | list =>
      have values : read.map C.value = List.map C.value v := same
      rw [values]
      exact List.mem_map_of_mem member
  | set =>
      have values : (OrderedSet.ofList read : OrderedSet C.value).toList.map C.value =
          (OrderedSet.toList v).map C.value := same
      have inside : C.value x ∈ (OrderedSet.toList v).map C.value := List.mem_map_of_mem member
      rw [← values] at inside
      obtain ⟨y, built, equal⟩ := List.mem_map.mp inside
      exact equal ▸ List.mem_map_of_mem (OrderedSet.mem_ofList built)
  | unorderedSet =>
      have values : ((read.foldl .insert .empty : UnorderedSet C.value).toList.map
          C.value : Multiset C.Val) = ((UnorderedSet.toList v).map C.value : List C.Val) := same
      have inside : C.value x ∈ (UnorderedSet.toList v).map C.value :=
        List.mem_map_of_mem member
      rw [← Multiset.mem_coe, ← values, Multiset.mem_coe] at inside
      obtain ⟨y, built, equal⟩ := List.mem_map.mp inside
      exact equal ▸ List.mem_map_of_mem (UnorderedSet.mem_foldl_insert built)

/-- A key has what was there or what one of the entries assigned. -/
theorem mem_of_assignAll {α : Type} {m : Std.ExtTreeMap String α}
    {entries : List (String × α)} {k : String} {x : α}
    (found : (assignAll m entries)[k]? = some x) : m[k]? = some x ∨ (k, x) ∈ entries := by
  induction entries generalizing m with
  | nil => exact .inl found
  | cons entry rest ih =>
      rcases ih found with old | later
      · rw [Std.ExtTreeMap.getElem?_insert] at old
        split at old
        · next key =>
            have here : (k, x) = entry :=
              Prod.ext (Std.LawfulEqCmp.eq_of_compare key).symm (Option.some.inj old).symm
            exact .inr (here ▸ List.mem_cons_self)
        · exact .inl old
      · exact .inr (List.mem_cons_of_mem entry later)

theorem mem_of_map_assignAll {α β : Type} {f : α → β} {read : List (String × α)}
    {m : Std.ExtTreeMap String α}
    (same : (assignAll ∅ read).map (fun _ => f) = m.map fun _ => f) {entry : String × α}
    (member : entry ∈ m.toList) : (entry.1, f entry.2) ∈ read.map (Prod.map id f) := by
  have there : (m.map fun _ => f)[entry.1]? = some (f entry.2) := by
    rw [Std.ExtTreeMap.getElem?_map, Std.ExtTreeMap.mem_toList_iff_getElem?_eq_some.mp member,
      Option.map_some]
  rw [← same, Std.ExtTreeMap.getElem?_map] at there
  obtain ⟨y, built, equal⟩ := Option.map_eq_some_iff.mp there
  rcases mem_of_assignAll built with old | put
  · rw [Std.ExtTreeMap.getElem?_empty] at old
    cases old
  · exact List.mem_map.mpr ⟨(entry.1, y), put, Prod.ext rfl equal⟩

theorem Mapping.Standard.mem_of_collect {M : Mapping C} (standard : M.Standard)
    {read : List (String × C.T)} {m : M.T} (same : M.value (M.collect read) = M.value m)
    {entry : String × C.T} (member : entry ∈ M.entries m) :
    (entry.1, C.value entry.2) ∈ read.map (Prod.map id C.value) := by
  cases standard with
  | map =>
      exact mem_of_map_assignAll same member
  | unorderedMap =>
      have values : ((read.foldl .assign .empty :
            UnorderedSet (Prod.fst : String × C.T → String)).toList.map
          (Prod.map id C.value) : Multiset (String × C.Val)) =
          ((UnorderedSet.toList m).map (Prod.map id C.value) : List (String × C.Val)) := same
      have inside : (entry.1, C.value entry.2) ∈
          (UnorderedSet.toList m).map (Prod.map id C.value) :=
        List.mem_map.mpr ⟨entry, member, rfl⟩
      rw [← Multiset.mem_coe, ← values, Multiset.mem_coe] at inside
      obtain ⟨y, built, equal⟩ := List.mem_map.mp inside
      exact List.mem_map.mpr ⟨y, UnorderedSet.mem_foldl_assign built, equal⟩

end Contents

section Strings

variable {yaml : YamlCpp} {lexicalCast : String → Except Fault String}

theorem reprint_of_load {s : String} {node : Node} (loaded : yaml.load s = .ok node) :
    yaml.emit node = yaml.reprint s := by
  rw [YamlCpp.reprint, loaded]

theorem reprint_of_prints {s : String} (prints : yaml.Prints s) : yaml.reprint s = s := by
  obtain ⟨node, loaded, printed⟩ := prints
  rw [← reprint_of_load loaded, printed]

theorem loads_of_prints {s : String} (prints : yaml.Prints s) :
    ∃ node, yaml.load s = .ok node := by
  obtain ⟨node, loaded, _⟩ := prints
  exact ⟨node, loaded⟩

/-- What is printed for a document is printed for itself. -/
theorem prints_reprint (undoes : yaml.Undoes) {s : String}
    (loads : ∃ node, yaml.load s = .ok node) : yaml.Prints (yaml.reprint s) := by
  obtain ⟨node, loaded⟩ := loads
  rw [← reprint_of_load loaded]
  exact ⟨node, undoes.load_emit node, rfl⟩

/-- The encoder of an element is the library's parser. -/
theorem load_string (identity : ∀ s, lexicalCast s = .ok s) (s : String) :
    (do yaml.load (← (Codec.string lexicalCast).toStr s)) = yaml.load s := by
  show (lexicalCast s >>= yaml.load) = _
  rw [identity]
  rfl

theorem castToString_strings (identity : ∀ s, lexicalCast s = .ok s) {v : List String}
    {text : String} :
    Sequence.castToString yaml (C := .string lexicalCast) v = .ok text ↔
      ∃ nodes, v.mapM yaml.load = .ok nodes ∧ yaml.dump (.ofItems nodes) = text := by
  have loop : (fun s => do yaml.load (← (Codec.string lexicalCast).toStr s)) = yaml.load :=
    funext (load_string identity)
  unfold Sequence.castToString
  rw [loop, bind_ok_iff]
  simp only [Except.ok.injEq]

theorem castFromString_strings (identity : ∀ s, lexicalCast s = .ok s) {text : String}
    {nodes : List Node} (loaded : yaml.load text = .ok (.ofItems nodes)) :
    Sequence.castFromString yaml (C := .string lexicalCast) text =
      .ok (nodes.map yaml.emit) := by
  have loop : ((List.range (Node.ofItems (nodes.map id)).size).mapM fun i => do
      lexicalCast (Node.emitted yaml (← Node.at_ yaml i (some (.ofItems (nodes.map id)))))) =
      .ok (nodes.map yaml.emit) :=
    Node.mapM_at yaml (f := fun node => lexicalCast (Node.emitted yaml node))
      fun node _ => identity (yaml.emit node)
  rw [List.map_id] at loop
  exact bind_ok_iff.mpr ⟨_, loaded, loop⟩

/-- A list of strings is written if each is a document, and comes back with their prints. -/
theorem Sequence.recast_iff (undoes : yaml.Undoes) (identity : ∀ s, lexicalCast s = .ok s)
    (S : Sequence (.string lexicalCast)) (v y : S.T) :
    (S.codec yaml).recast v = .ok y ↔
      (∀ s ∈ S.elements v, ∃ node, yaml.load s = .ok node) ∧
        S.collect ((S.elements v).map yaml.reprint) = y := by
  have decoded : ∀ nodes, (S.codec yaml).fromStr (yaml.dump (.ofItems nodes)) =
      .ok (S.collect (nodes.map yaml.emit)) := fun nodes =>
    bind_ok_iff.mpr ⟨_, castFromString_strings identity (undoes.load_dump _), rfl⟩
  rw [← mapM_ok_iff]
  apply bind_ok_iff.trans
  constructor
  · intro ⟨text, written, read⟩
    obtain ⟨nodes, loaded, dumped⟩ := (castToString_strings identity).mp written
    rw [← dumped, decoded] at read
    have prints := map_mapM (fun _ _ => reprint_of_load) loaded
    rw [← prints]
    exact ⟨⟨nodes, loaded⟩, Except.ok.inj read⟩
  · intro ⟨⟨nodes, loaded⟩, same⟩
    refine ⟨_, (castToString_strings identity).mpr ⟨nodes, loaded, rfl⟩, ?_⟩
    rw [decoded, map_mapM (fun _ _ => reprint_of_load) loaded, same]

/-- The encoder of an entry. -/
theorem load_entry (identity : ∀ s, lexicalCast s = .ok s) (i : String × String)
    (field : String × Node) :
    (do Except.ok (i.1, ← yaml.load (← (Codec.string lexicalCast).toStr i.2))) = .ok field ↔
      ∃ node, yaml.load i.2 = .ok node ∧ (i.1, node) = field := by
  show (lexicalCast i.2 >>= fun text => yaml.load text >>= fun node => Except.ok (i.1, node)) =
    .ok field ↔ _
  rw [identity]
  show (yaml.load i.2 >>= fun node => Except.ok (i.1, node)) = .ok field ↔ _
  rw [bind_ok_iff]
  simp only [Except.ok.injEq]

/-- A map keeps its keys, and its strings come back as their prints. -/
theorem Mapping.recast_iff (undoes : yaml.Undoes) (identity : ∀ s, lexicalCast s = .ok s)
    (M : Mapping (.string lexicalCast)) (m y : M.T) :
    (M.codec yaml).recast m = .ok y ↔
      (∀ entry ∈ M.entries m, ∃ node, yaml.load entry.2 = .ok node) ∧
        M.collect ((M.entries m).map (Prod.map id yaml.reprint)) = y := by
  have decoded : ∀ fields, (M.codec yaml).fromStr (yaml.emit (.ofFields fields)) =
      .ok (M.collect (fields.map (Prod.map id yaml.emit))) := by
    intro fields
    have loop : castNode yaml (C := .string lexicalCast)
        (.ofFields (fields.map (Prod.map id id))) = .ok (fields.map (Prod.map id yaml.emit)) :=
      castNode_ofFields (fun node => identity (yaml.emit node)) fields
    rw [Prod.map_id, List.map_id] at loop
    exact bind_ok_iff.mpr ⟨_, bind_ok_iff.mpr ⟨_, undoes.load_emit _, loop⟩, rfl⟩
  have prints : ∀ (i : String × String) (field : String × Node),
      (do Except.ok (i.1, ← yaml.load (← (Codec.string lexicalCast).toStr i.2))) = .ok field →
        Prod.map id yaml.emit field = Prod.map id yaml.reprint i := by
    intro i field read
    obtain ⟨node, loaded, same⟩ := (load_entry identity i field).mp read
    rw [← same]
    exact Prod.ext rfl (reprint_of_load loaded)
  have loads : (∀ entry ∈ M.entries m, ∃ node, yaml.load entry.2 = .ok node) ↔
      ∃ fields, (M.entries m).mapM (fun i => do
        Except.ok (i.1, ← yaml.load (← (Codec.string lexicalCast).toStr i.2))) = .ok fields := by
    rw [mapM_ok_iff]
    apply forall₂_congr
    intro entry _
    constructor
    · intro ⟨node, loaded⟩
      exact ⟨_, (load_entry identity entry _).mpr ⟨node, loaded, rfl⟩⟩
    · intro ⟨field, read⟩
      obtain ⟨node, loaded, _⟩ := (load_entry identity entry field).mp read
      exact ⟨node, loaded⟩
  rw [loads]
  apply bind_ok_iff.trans
  constructor
  · intro ⟨text, written, read⟩
    obtain ⟨fields, loaded, emitted⟩ := bind_ok_iff.mp written
    rw [← Except.ok.inj emitted, decoded, map_mapM prints loaded] at read
    exact ⟨⟨fields, loaded⟩, Except.ok.inj read⟩
  · intro ⟨⟨fields, loaded⟩, same⟩
    refine ⟨_, bind_ok_iff.mpr ⟨fields, loaded, rfl⟩, ?_⟩
    rw [decoded, map_mapM prints loaded, same]

theorem Sequence.survives_iff (undoes : yaml.Undoes) (identity : ∀ s, lexicalCast s = .ok s)
    {S : Sequence (.string lexicalCast)} (standard : S.Standard) (v : S.T) :
    (S.codec yaml).Survives v ↔ ∀ s ∈ S.elements v, yaml.Prints s := by
  constructor
  · intro ⟨y, recast, same⟩ s member
    obtain ⟨loads, built⟩ := (S.recast_iff undoes identity v y).mp recast
    rw [← built] at same
    have kept : s ∈ ((S.elements v).map yaml.reprint).map id :=
      standard.mem_of_collect same member
    rw [List.map_id] at kept
    obtain ⟨t, inside, print⟩ := List.mem_map.mp kept
    exact print ▸ prints_reprint undoes (loads t inside)
  · intro prints
    have loads : ∀ s ∈ S.elements v, ∃ node, yaml.load s = .ok node :=
      fun s member => loads_of_prints (prints s member)
    refine ⟨_, (S.recast_iff undoes identity v _).mpr ⟨loads, rfl⟩, S.collects v _ ?_⟩
    rw [List.map_map]
    apply List.map_congr_left
    intro s member
    exact reprint_of_prints (prints s member)

theorem Mapping.survives_iff (undoes : yaml.Undoes) (identity : ∀ s, lexicalCast s = .ok s)
    {M : Mapping (.string lexicalCast)} (standard : M.Standard) (m : M.T) :
    (M.codec yaml).Survives m ↔ ∀ entry ∈ M.entries m, yaml.Prints entry.2 := by
  constructor
  · intro ⟨y, recast, same⟩ entry member
    obtain ⟨loads, built⟩ := (M.recast_iff undoes identity m y).mp recast
    rw [← built] at same
    have kept : (entry.1, entry.2) ∈
        ((M.entries m).map (Prod.map id yaml.reprint)).map (Prod.map id id) :=
      standard.mem_of_collect same member
    rw [Prod.map_id, List.map_id] at kept
    obtain ⟨other, inside, print⟩ := List.mem_map.mp kept
    have value : yaml.reprint other.2 = entry.2 := congrArg Prod.snd print
    exact value ▸ prints_reprint undoes (loads other inside)
  · intro prints
    have loads : ∀ entry ∈ M.entries m, ∃ node, yaml.load entry.2 = .ok node :=
      fun entry member => loads_of_prints (prints entry member)
    refine ⟨_, (M.recast_iff undoes identity m _).mpr ⟨loads, rfl⟩, M.collects m _ ?_⟩
    rw [List.map_map]
    apply List.map_congr_left
    intro entry member
    exact Prod.ext rfl (reprint_of_prints (prints entry member))

/-- The strings of a container survive exactly when each is the print of its own document. The
empty string, which is Null, is not. -/
theorem strings_survive_iff (undoes : yaml.Undoes) (identity : ∀ s, lexicalCast s = .ok s)
    (empty : yaml.load "" = .ok .null) (null : yaml.emit .null = "~") :
    (∀ S : Sequence (.string lexicalCast), S.Standard → ∀ v : S.T,
      (S.codec yaml).Survives v ↔ ∀ s ∈ S.elements v, yaml.Prints s) ∧
    (∀ M : Mapping (.string lexicalCast), M.Standard → ∀ m : M.T,
      (M.codec yaml).Survives m ↔ ∀ entry ∈ M.entries m, yaml.Prints entry.2) ∧
    ¬ yaml.Prints "" := by
  refine ⟨fun S standard => S.survives_iff undoes identity standard,
    fun M standard => M.survives_iff undoes identity standard, ?_⟩
  intro ⟨node, loaded, printed⟩
  rw [empty] at loaded
  rw [← Except.ok.inj loaded, null] at printed
  simp at printed

end Strings

/-- Integers stand for themselves, and the empty text is Null. -/
def emptyYaml : YamlCpp :=
  { plainYaml with
    load := fun text => if text = "" then .ok .null else plainYaml.load text }

theorem emptyYaml_undoes : emptyYaml.Undoes := by
  have loads : ∀ node, emptyYaml.load (printPlain node) = .ok node := by
    intro node
    have read := load_printPlain node
    by_cases blank : printPlain node = ""
    · rw [blank] at read
      cases read
    · simp only [emptyYaml, if_neg blank, read]
  exact ⟨loads, loads⟩

def identityCast : String → Except Fault String := .ok

theorem identityCast_ok (s : String) : identityCast s = .ok s := rfl

/-- `{"80", "-1"}` -/
theorem strings_survive_numbers :
    ((Sequence.vector (.string identityCast)).codec emptyYaml).Survives ["80", "-1"] ∧
    ¬ emptyYaml.Prints "" := by
  have survive := strings_survive_iff emptyYaml_undoes identityCast_ok rfl rfl
  refine ⟨(survive.1 _ .vector _).mpr fun s member => ?_, survive.2.2⟩
  have either : s = "80" ∨ s = "-1" := by simpa [Sequence.vector] using member
  rcases either with first | second
  · exact first ▸ ⟨.scalar "80", rfl, rfl⟩
  · exact second ▸ ⟨.scalar "-1", rfl, rfl⟩

/-- A list of the empty string comes back as a list of a tilde. -/
theorem empty_string_lost :
    ((Sequence.vector (.string identityCast)).codec emptyYaml).recast [""] = .ok ["~"] ∧
    ¬ ((Sequence.vector (.string identityCast)).codec emptyYaml).Survives [""] := by
  have recast : ((Sequence.vector (.string identityCast)).codec emptyYaml).recast [""] =
      .ok ["~"] := rfl
  refine ⟨recast, fun ⟨y, again, same⟩ => ?_⟩
  rw [recast] at again
  rw [← Except.ok.inj again] at same
  have texts : ["~"] = [""] := same
  simp at texts

end ZnetServer
