import Mathlib.Logic.Equiv.Basic
import ZnetServer.Yaml

set_option autoImplicit false

/- A library that meets what is assumed of yaml-cpp: flow style, every scalar quoted. -/
namespace ZnetServer.Yaml

def escape (c : Char) : List Char :=
  if c = '"' then ['\\', '"']
  else if c = '\\' then ['\\', '\\']
  else if c = '\n' then ['\\', 'n']
  else [c]

/-- The character behind a backslash. -/
def unescape (c : Char) : Char := if c = 'n' then '\n' else c

mutual

def flow : Node → List Char
  | .null => ['~']
  | .scalar text => '"' :: text.toList.flatMap escape ++ ['"']
  | .sequence items => '[' :: flowItems items ++ [']']
  | .map entries => '{' :: flowEntries entries ++ ['}']

def flowItems : List Node → List Char
  | [] => []
  | item :: rest => flow item ++ ',' :: flowItems rest

def flowEntries : List (Node × Node) → List Char
  | [] => []
  | (key, value) :: rest => flow key ++ ':' :: ' ' :: flow value ++ ',' :: flowEntries rest

end

inductive Mode where
  | outside
  | quoted (text : List Char)
  | escaped (text : List Char)

/-- The nodes read in the innermost collection and in those around it, latest first. -/
structure Reader where
  mode : Mode
  top : List Node
  below : List (List Node)

namespace Reader

def close (r : Reader) (build : List Node → Node) : Reader :=
  match r.below with
  | [] => r
  | frame :: rest => ⟨.outside, build r.top.reverse :: frame, rest⟩

/-- Keys and values in turn. -/
def pairs : List Node → List (Node × Node)
  | key :: value :: rest => (key, value) :: pairs rest
  | _ => []

def step (r : Reader) (c : Char) : Reader :=
  match r.mode with
  | .quoted text =>
    if c = '"' then ⟨.outside, .scalar (String.ofList text.reverse) :: r.top, r.below⟩
    else if c = '\\' then { r with mode := .escaped text }
    else { r with mode := .quoted (c :: text) }
  | .escaped text => { r with mode := .quoted (unescape c :: text) }
  | .outside =>
    if c = '"' then { r with mode := .quoted [] }
    else if c = '~' then { r with top := .null :: r.top }
    else if c = '[' ∨ c = '{' then ⟨.outside, [], r.top :: r.below⟩
    else if c = ']' then r.close .sequence
    else if c = '}' then r.close fun nodes => .map (pairs nodes)
    else r

theorem step_escape (text : List Char) (top : List Node) (below : List (List Node)) (c : Char) :
    (escape c).foldl step ⟨.quoted text, top, below⟩ = ⟨.quoted (c :: text), top, below⟩ := by
  by_cases quote : c = '"'
  · subst quote
    rfl
  · by_cases backslash : c = '\\'
    · subst backslash
      rfl
    · by_cases newline : c = '\n'
      · subst newline
        rfl
      · rw [escape, if_neg quote, if_neg backslash, if_neg newline]
        simp only [List.foldl_cons, List.foldl_nil, step, if_neg quote, if_neg backslash]

theorem read_escaped (chars text : List Char) (top : List Node) (below : List (List Node)) :
    (chars.flatMap escape).foldl step ⟨.quoted text, top, below⟩ =
      ⟨.quoted (chars.reverse ++ text), top, below⟩ := by
  induction chars generalizing text with
  | nil => rfl
  | cons c rest ih =>
      rw [List.flatMap_cons, List.foldl_append, step_escape, ih, List.reverse_cons,
        List.append_assoc, List.singleton_append]

theorem pairs_flatMap (entries : List (Node × Node)) :
    pairs (entries.flatMap fun entry => [entry.1, entry.2]) = entries := by
  induction entries with
  | nil => rfl
  | cons entry rest ih =>
      rw [List.flatMap_cons]
      exact congrArg (entry :: ·) ih

mutual

theorem read_flow (node : Node) (top : List Node) (below : List (List Node)) :
    (flow node).foldl step ⟨.outside, top, below⟩ = ⟨.outside, node :: top, below⟩ := by
  match node with
  | .null => rfl
  | .scalar text =>
      have inside := read_escaped text.toList [] top below
      simp only [flow, List.cons_append, List.foldl_cons, List.foldl_append, List.foldl_nil]
      change step ((text.toList.flatMap escape).foldl step ⟨.quoted [], top, below⟩) '"' = _
      rw [inside, List.append_nil]
      simp only [step, if_pos, List.reverse_reverse, String.ofList_toList]
  | .sequence items =>
      have inside := read_items items [] (top :: below)
      simp only [flow, List.cons_append, List.foldl_cons, List.foldl_append, List.foldl_nil]
      change step ((flowItems items).foldl step ⟨.outside, [], top :: below⟩) ']' = _
      rw [inside, List.append_nil]
      change (⟨.outside, .sequence items.reverse.reverse :: top, below⟩ : Reader) = _
      rw [List.reverse_reverse]
  | .map entries =>
      have inside := read_entries entries [] (top :: below)
      simp only [flow, List.cons_append, List.foldl_cons, List.foldl_append, List.foldl_nil]
      change step ((flowEntries entries).foldl step ⟨.outside, [], top :: below⟩) '}' = _
      rw [inside, List.append_nil]
      change (⟨.outside, .map (pairs (List.reverse (List.reverse _))) :: top, below⟩ : Reader) = _
      rw [List.reverse_reverse, pairs_flatMap]

theorem read_items (items : List Node) (top : List Node) (below : List (List Node)) :
    (flowItems items).foldl step ⟨.outside, top, below⟩ =
      ⟨.outside, items.reverse ++ top, below⟩ := by
  match items with
  | [] => rfl
  | item :: rest =>
      rw [flowItems, List.foldl_append, read_flow item, List.foldl_cons]
      change (flowItems rest).foldl step ⟨.outside, item :: top, below⟩ = _
      rw [read_items rest, List.reverse_cons, List.append_assoc, List.singleton_append]

theorem read_entries (entries : List (Node × Node)) (top : List Node)
    (below : List (List Node)) :
    (flowEntries entries).foldl step ⟨.outside, top, below⟩ =
      ⟨.outside, (entries.flatMap fun entry => [entry.1, entry.2]).reverse ++ top, below⟩ := by
  match entries with
  | [] => rfl
  | (key, value) :: rest =>
      rw [flowEntries, List.append_assoc, List.foldl_append, read_flow key, List.cons_append,
        List.cons_append, List.foldl_cons, List.foldl_cons, List.foldl_append]
      change List.foldl step ((flow value).foldl step ⟨.outside, key :: top, below⟩) _ = _
      rw [read_flow value, List.foldl_cons]
      change (flowEntries rest).foldl step ⟨.outside, value :: key :: top, below⟩ = _
      rw [read_entries rest, List.flatMap_cons, List.reverse_append, List.append_assoc]
      rfl

end

end Reader

/-- A text that is one node. -/
def loadFlow (text : String) : Except Fault Node :=
  match text.toList.foldl Reader.step ⟨.outside, [], []⟩ with
  | ⟨.outside, [node], []⟩ => .ok node
  | _ => .error "bad file"

def flowYaml : YamlCpp where
  load := loadFlow
  dump node := String.ofList (flow node)
  emit node := String.ofList (flow node)
  nullText := some "null"
  keyIndex := String.toNat?

theorem load_flow (node : Node) : loadFlow (String.ofList (flow node)) = .ok node := by
  rw [loadFlow, String.toList_ofList, Reader.read_flow]

theorem flowYaml_faithful : flowYaml.Faithful :=
  ⟨fun node _ => load_flow node, fun node _ => load_flow node⟩

def decimal : Int → List Char
  | .ofNat n => Nat.toDigits 10 n
  | .negSucc n => '-' :: Nat.toDigits 10 (n + 1)

def readDigits (chars : List Char) : Option Nat :=
  if chars ≠ [] ∧ chars.all Char.isDigit then some (Nat.ofDigitChars 10 chars 0) else none

def readDecimal : List Char → Option Int
  | '-' :: digits => (readDigits digits).map fun n => -(n : Int)
  | digits => (readDigits digits).map fun n => (n : Int)

theorem readDigits_toDigits (n : Nat) : readDigits (Nat.toDigits 10 n) = some n := by
  have digits : (Nat.toDigits 10 n).all Char.isDigit = true :=
    List.all_eq_true.mpr fun c member =>
      Nat.isDigit_of_mem_toDigits (by decide) (by decide) member
  rw [readDigits, if_pos ⟨Nat.toDigits_ne_nil, digits⟩, Nat.ofDigitChars_ten_toDigits]

theorem readDecimal_digits {chars : List Char} (digits : chars.all Char.isDigit = true) :
    readDecimal chars = (readDigits chars).map fun n => (n : Int) := by
  unfold readDecimal
  split
  · simp at digits
  · rfl

theorem readDecimal_decimal (n : Int) : readDecimal (decimal n) = some n := by
  cases n with
  | ofNat n =>
      have digits : (Nat.toDigits 10 n).all Char.isDigit = true :=
        List.all_eq_true.mpr fun c member =>
          Nat.isDigit_of_mem_toDigits (by decide) (by decide) member
      rw [decimal, readDecimal_digits digits, readDigits_toDigits]
      rfl
  | negSucc n =>
      rw [decimal, readDecimal, readDigits_toDigits]
      rfl

/-- Flow style but for integers, which stand unquoted. -/
def printPlain : Node → String
  | .scalar text =>
    if (readDecimal text.toList).isSome then text else String.ofList (flow (.scalar text))
  | node => String.ofList (flow node)

def plainYaml : YamlCpp :=
  { flowYaml with
    load := fun text =>
      if (readDecimal text.toList).isSome then .ok (.scalar text) else loadFlow text
    dump := printPlain
    emit := printPlain }

/-- No node is printed as a number. -/
theorem readDecimal_flow (node : Node) : readDecimal (String.ofList (flow node)).toList = none := by
  rw [String.toList_ofList]
  cases node with
  | null => rfl
  | scalar text => rfl
  | sequence items => rfl
  | map entries => rfl

theorem load_printPlain (node : Node) : plainYaml.load (printPlain node) = .ok node := by
  have quoted : ∀ node, plainYaml.load (String.ofList (flow node)) = .ok node := by
    intro node
    simp only [plainYaml, readDecimal_flow, Option.isSome_none, Bool.false_eq_true, ↓reduceIte,
      load_flow]
  cases node with
  | scalar text =>
      rw [printPlain]
      split
      · rename_i number
        simp only [plainYaml, number, ↓reduceIte]
      · exact quoted (.scalar text)
  | null => exact quoted .null
  | sequence items => exact quoted (.sequence items)
  | map entries => exact quoted (.map entries)

theorem plainYaml_undoes : plainYaml.Undoes := ⟨load_printPlain, load_printPlain⟩

/-- The library with other texts for the same documents. -/
def YamlCpp.renamed (yaml : YamlCpp) (rename : Equiv.Perm String) : YamlCpp :=
  { yaml with
    load := fun text => yaml.load (rename.symm text)
    dump := fun node => rename (yaml.dump node)
    emit := fun node => rename (yaml.emit node) }

theorem YamlCpp.Faithful.renamed {yaml : YamlCpp} (faithful : yaml.Faithful)
    (rename : Equiv.Perm String) : (yaml.renamed rename).Faithful := by
  constructor
  · intro node built
    have loads := faithful.load_dump node built
    simpa only [YamlCpp.renamed, Equiv.symm_apply_apply] using loads
  · intro node built
    have loads := faithful.load_emit node built
    simpa only [YamlCpp.renamed, Equiv.symm_apply_apply] using loads

/-- Flow style but for the documents that are given with their texts. -/
def flowExcept (texts : List (Node × String)) : YamlCpp :=
  flowYaml.renamed (texts.foldr
    (fun entry rest => (Equiv.swap (String.ofList (flow entry.1)) entry.2).trans rest)
    (Equiv.refl String))

theorem flowExcept_faithful (texts : List (Node × String)) : (flowExcept texts).Faithful :=
  flowYaml_faithful.renamed _

end ZnetServer.Yaml
