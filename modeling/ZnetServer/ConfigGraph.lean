import Mathlib.Data.Fintype.EquivFin
import Mathlib.Logic.Relation
import ZnetServer.ConfigAddress

set_option autoImplicit false

/- `ListAllYamlMember` on nodes that are shared: an alias is the node of its anchor, so a map
may lie below itself. -/
namespace ZnetServer.Config

/-- A node whose parts are nodes of a document. -/
inductive Cell (ι : Type) where
  | null
  | scalar (text : String)
  | sequence (items : List ι)
  | map (entries : List (ι × ι))

/-- The nodes of a document; every part of a node is one of them. -/
structure Graph where
  size : Nat
  cell : Fin size → Cell (Fin size)

namespace Graph

variable {W : Type}

/-- `Node::Scalar()` -/
def text (graph : Graph) (x : Fin graph.size) : String :=
  match graph.cell x with
  | .scalar text => text
  | .null | .sequence _ | .map _ => ""

/-- What has been listed, with the state of the log. -/
abbrev Listed (graph : Graph) (W : Type) := List (String × Fin graph.size) × W

/-- `ListAllYamlMember` with calls nested at most `depth` deep; `none` is a call that has not
returned then. -/
def listAllYamlMember (log : LogTo W) (graph : Graph) :
    Nat → Fin graph.size → String → graph.Listed W → Option (graph.Listed W)
  | 0, _, _, _ => none
  | depth + 1, x, pre, output =>
    if validName pre then
      match graph.cell x with
      | .map entries => entries.foldlM
          (fun output entry =>
            listAllYamlMember log graph depth entry.2 (dotted pre (graph.text entry.1)) output)
          (output.1 ++ [(pre, x)], output.2)
      | .null | .scalar _ | .sequence _ => some (output.1 ++ [(pre, x)], output.2)
    else
      some (output.1,
        log .error ("Config::ListAllMember prefix is invalid, prefix=" ++ pre) output.2)

/-- The loop goes down from the one node to the other. -/
def Edge (graph : Graph) (x y : Fin graph.size) : Prop :=
  ∃ entries key, graph.cell x = .map entries ∧ (key, y) ∈ entries ∧
    validName (graph.text key) = true

/-- The call makes finitely many calls: it returns within some depth. -/
def Returns (log : LogTo W) (graph : Graph) (x : Fin graph.size) (pre : String)
    (output : graph.Listed W) : Prop :=
  ∃ depth result, graph.listAllYamlMember log depth x pre output = some result

end Graph

section Loops

variable {α β : Type}

/-- A loop that succeeds also does with a body that succeeds more often. -/
theorem foldlM_mono {f g : β → α → Option β} (more : ∀ b a c, f b a = some c → g b a = some c)
    (list : List α) {start final : β} (done : list.foldlM f start = some final) :
    list.foldlM g start = some final := by
  induction list generalizing start with
  | nil => exact done
  | cons a rest ih =>
      rw [List.foldlM_cons] at done ⊢
      obtain ⟨middle, first, later⟩ := Option.bind_eq_some_iff.mp done
      exact Option.bind_eq_some_iff.mpr ⟨middle, more _ _ _ first, ih later⟩

/-- A loop that succeeds has succeeded for each item. -/
theorem foldlM_each {f : β → α → Option β} {list : List α} {start final : β}
    (done : list.foldlM f start = some final) {a : α} (member : a ∈ list) :
    ∃ b c, f b a = some c := by
  induction list generalizing start with
  | nil => cases member
  | cons first rest ih =>
      rw [List.foldlM_cons] at done
      obtain ⟨middle, head, later⟩ := Option.bind_eq_some_iff.mp done
      rcases List.mem_cons.mp member with rfl | inside
      · exact ⟨start, middle, head⟩
      · exact ih later inside

end Loops

namespace Graph

variable {W : Type} {log : LogTo W} {graph : Graph} {x y : Fin graph.size} {pre : String}
  {output : graph.Listed W}

theorem listAllYamlMember_succ {depth : Nat} {result : graph.Listed W}
    (returns : graph.listAllYamlMember log depth x pre output = some result) :
    graph.listAllYamlMember log (depth + 1) x pre output = some result := by
  induction depth generalizing x pre output result with
  | zero => cases returns
  | succ depth ih =>
      rw [listAllYamlMember] at returns ⊢
      by_cases valid : validName pre = true
      · rw [if_pos valid] at returns ⊢
        cases cell : graph.cell x with
        | map entries =>
            simp only [cell] at returns ⊢
            exact foldlM_mono (fun _ _ _ inner => ih inner) entries returns
        | null | scalar | sequence =>
            simp only [cell] at returns ⊢
            exact returns
      · rw [if_neg valid] at returns ⊢
        exact returns

theorem listAllYamlMember_le {depth deeper : Nat} (le : depth ≤ deeper)
    {result : graph.Listed W}
    (returns : graph.listAllYamlMember log depth x pre output = some result) :
    graph.listAllYamlMember log deeper x pre output = some result := by
  induction le with
  | refl => exact returns
  | step _ ih => exact listAllYamlMember_succ ih

/-- Below an invalid name nothing is called. -/
theorem returns_invalid (invalid : validName pre = false) :
    graph.Returns log x pre output := by
  have refused : ¬ validName pre = true := by
    rw [invalid]
    exact Bool.false_ne_true
  exact ⟨1, _, if_neg refused⟩

/-- A loop whose calls return returns. -/
theorem returns_loop {entries : List (Fin graph.size × Fin graph.size)}
    (each : ∀ entry ∈ entries, ∀ output,
      graph.Returns log entry.2 (dotted pre (graph.text entry.1)) output)
    (output : graph.Listed W) : ∃ depth result, entries.foldlM (fun output entry =>
      listAllYamlMember log graph depth entry.2 (dotted pre (graph.text entry.1)) output) output =
        some result := by
  induction entries generalizing output with
  | nil => exact ⟨0, output, rfl⟩
  | cons entry rest ih =>
      obtain ⟨first, middle, head⟩ := each entry List.mem_cons_self output
      obtain ⟨second, result, later⟩ :=
        ih (fun other member => each other (List.mem_cons_of_mem entry member)) middle
      refine ⟨max first second, result, ?_⟩
      rw [List.foldlM_cons]
      apply Option.bind_eq_some_iff.mpr
      refine ⟨middle, listAllYamlMember_le (Nat.le_max_left first second) head, ?_⟩
      exact foldlM_mono (fun _ _ _ => listAllYamlMember_le (Nat.le_max_right first second)) rest
        later

/-- A node returns if the nodes below it do. -/
theorem returns_node (below : ∀ y, graph.Edge x y → ∀ pre output, graph.Returns log y pre output)
    (pre : String) (output : graph.Listed W) : graph.Returns log x pre output := by
  cases valid : validName pre with
  | false => exact returns_invalid valid
  | true =>
      cases cell : graph.cell x with
      | map entries =>
          have each : ∀ entry ∈ entries, ∀ output,
              graph.Returns log entry.2 (dotted pre (graph.text entry.1)) output := by
            intro entry member output
            cases wanted : validName (graph.text entry.1) with
            | false =>
                apply returns_invalid
                rw [dotted_valid valid, wanted]
            | true => exact below entry.2 ⟨entries, entry.1, cell, member, wanted⟩ _ output
          obtain ⟨depth, result, returns⟩ :=
            returns_loop each (output.1 ++ [(pre, x)], output.2)
          refine ⟨depth + 1, result, ?_⟩
          rw [listAllYamlMember, if_pos valid]
          simp only [cell]
          exact returns
      | null | scalar | sequence =>
          refine ⟨1, (output.1 ++ [(pre, x)], output.2), ?_⟩
          rw [listAllYamlMember, if_pos valid]
          simp only [cell]

/-- A call with a valid prefix within the depth. -/
def ReturnsWithin (log : LogTo W) (graph : Graph) (depth : Nat) (x : Fin graph.size) : Prop :=
  ∃ pre output result, validName pre = true ∧
    graph.listAllYamlMember log depth x pre output = some result

theorem ReturnsWithin.edge {depth : Nat} (returns : graph.ReturnsWithin log depth x)
    (edge : graph.Edge x y) : ∃ less, less < depth ∧ graph.ReturnsWithin log less y := by
  obtain ⟨pre, output, result, valid, returns⟩ := returns
  obtain ⟨entries, key, cell, member, wanted⟩ := edge
  cases depth with
  | zero => cases returns
  | succ depth =>
      rw [listAllYamlMember, if_pos valid] at returns
      simp only [cell] at returns
      obtain ⟨before, after, called⟩ := foldlM_each returns member
      refine ⟨depth, Nat.lt_succ_self depth, _, before, after, ?_, called⟩
      rw [dotted_valid valid, wanted]

theorem ReturnsWithin.path {depth : Nat} (returns : graph.ReturnsWithin log depth x)
    (path : Relation.TransGen graph.Edge x y) :
    ∃ less, less < depth ∧ graph.ReturnsWithin log less y := by
  induction path with
  | single edge => exact returns.edge edge
  | tail _ edge ih =>
      obtain ⟨middle, first, within⟩ := ih
      obtain ⟨less, second, last⟩ := within.edge edge
      exact ⟨less, second.trans first, last⟩

/-- A node below itself is never done with. -/
theorem cycle_not_within (cycle : Relation.TransGen graph.Edge x x) (depth : Nat) :
    ¬ graph.ReturnsWithin log depth x := by
  induction depth using Nat.strong_induction_on with
  | _ depth ih =>
      intro returns
      obtain ⟨less, smaller, within⟩ := returns.path cycle
      exact ih less smaller within

/-- Going down from the root ends when no node met lies below itself. -/
theorem reached_wellFounded {root : Fin graph.size} (acyclic : ∀ x,
    Relation.ReflTransGen graph.Edge root x → ¬ Relation.TransGen graph.Edge x x) :
    WellFounded fun y x => Relation.ReflTransGen graph.Edge root x ∧ graph.Edge x y := by
  let Down (y x : Fin graph.size) :=
    Relation.ReflTransGen graph.Edge root x ∧ Relation.TransGen graph.Edge x y
  have transitive : IsTrans (Fin graph.size) Down :=
    ⟨fun _ _ _ first second => ⟨second.1, second.2.trans first.2⟩⟩
  have irreflexive : Std.Irrefl Down := ⟨fun x both => acyclic x both.1 both.2⟩
  have founded : WellFounded Down := Finite.wellFounded_of_trans_of_irrefl Down
  exact Subrelation.wf (fun both => ⟨both.1, .single both.2⟩) founded

/-- The calls from a node end if and only if no node that they come to lies below itself. -/
theorem returns_iff_acyclic (log : LogTo W) (graph : Graph) (root : Fin graph.size)
    (output : graph.Listed W) : graph.Returns log root "" output ↔
      ∀ x, Relation.ReflTransGen graph.Edge root x → ¬ Relation.TransGen graph.Edge x x := by
  constructor
  · intro returns x reached cycle
    obtain ⟨depth, result, returns⟩ := returns
    have start : graph.ReturnsWithin log depth root := ⟨"", output, result, rfl, returns⟩
    rcases Relation.reflTransGen_iff_eq_or_transGen.mp reached with rfl | path
    · exact cycle_not_within cycle depth start
    · obtain ⟨less, _, within⟩ := start.path path
      exact cycle_not_within cycle less within
  · intro acyclic
    have all : ∀ x, Relation.ReflTransGen graph.Edge root x → ∀ pre output,
        graph.Returns log x pre output := by
      intro x
      induction x using (reached_wellFounded acyclic).induction with
      | _ x ih =>
          intro reached
          exact returns_node fun y edge => ih y ⟨reached, edge⟩ (reached.tail edge)
    exact all root .refl "" output

/-- `a: &x {b: *x}` -/
def selfContaining : Graph where
  size := 4
  cell
    | 0 => .map [(1, 2)]
    | 1 => .scalar "a"
    | 2 => .map [(3, 2)]
    | 3 => .scalar "b"

theorem selfContaining_runs_on :
    ¬ selfContaining.Returns (fun _ _ w => w) (0 : Fin 4) "" ([], ()) := by
  intro returns
  obtain ⟨depth, result, returns⟩ := returns
  have start : selfContaining.ReturnsWithin (fun _ _ w => w) depth (0 : Fin 4) :=
    ⟨"", ([], ()), result, rfl, returns⟩
  have enters : selfContaining.Edge (0 : Fin 4) (2 : Fin 4) :=
    ⟨_, (1 : Fin 4), rfl, List.mem_cons_self, by decide⟩
  have loops : selfContaining.Edge (2 : Fin 4) (2 : Fin 4) :=
    ⟨_, (3 : Fin 4), rfl, List.mem_cons_self, by decide⟩
  obtain ⟨less, _, within⟩ := start.edge enters
  exact cycle_not_within (.single loops) less within

section Unfolding

open Yaml

/-- The tree that a node stands for; `none` if it is deeper. -/
def unfold (graph : Graph) : Nat → Fin graph.size → Option Node
  | 0, _ => none
  | depth + 1, x =>
    match graph.cell x with
    | .null => some .null
    | .scalar text => some (.scalar text)
    | .sequence items => (items.mapM (graph.unfold depth)).map .sequence
    | .map entries => (entries.mapM fun entry =>
        (graph.unfold depth entry.1).bind fun key =>
          (graph.unfold depth entry.2).map fun value => (key, value)).map .map

/-- The same name and the tree of the node. -/
def Shows (graph : Graph) (own : String × Fin graph.size) (tree : String × Node) : Prop :=
  own.1 = tree.1 ∧ ∃ depth, graph.unfold depth own.2 = some tree.2

theorem unfold_text {depth : Nat} {node : Node} (unfolds : graph.unfold depth x = some node) :
    graph.text x = node.text := by
  cases depth with
  | zero => cases unfolds
  | succ depth =>
      rw [unfold] at unfolds
      unfold text
      cases cell : graph.cell x with
      | null | scalar =>
          simp only [cell] at unfolds ⊢
          exact Option.some.inj unfolds ▸ rfl
      | sequence | map =>
          simp only [cell] at unfolds ⊢
          obtain ⟨_, _, rfl⟩ := Option.map_eq_some_iff.mp unfolds
          rfl

/-- The calls on the node return and list what they list on the tree. -/
def Follows (log : LogTo W) (graph : Graph) (depth : Nat) (x : Fin graph.size) (node : Node) :
    Prop :=
  ∀ pre (output : graph.Listed W) (listed : List (String × Node) × W),
    List.Forall₂ graph.Shows output.1 listed.1 → output.2 = listed.2 →
    ∃ result, graph.listAllYamlMember log depth x pre output = some result ∧
      List.Forall₂ graph.Shows result.1 (Config.listAllYamlMember log node pre listed).1 ∧
      result.2 = (Config.listAllYamlMember log node pre listed).2

theorem listEntries_follows {depth : Nat}
    (follows : ∀ x node, graph.unfold depth x = some node → graph.Follows log depth x node)
    {entries : List (Fin graph.size × Fin graph.size)} {trees : List (Node × Node)}
    (unfolds : entries.mapM (fun entry => (graph.unfold depth entry.1).bind fun key =>
      (graph.unfold depth entry.2).map fun value => (key, value)) = some trees)
    {listed : List (String × Node) × W} (same : List.Forall₂ graph.Shows output.1 listed.1)
    (world : output.2 = listed.2) :
    ∃ result, entries.foldlM (fun output entry => listAllYamlMember log graph depth entry.2
        (dotted pre (graph.text entry.1)) output) output = some result ∧
      List.Forall₂ graph.Shows result.1 (listEntries log trees pre listed).1 ∧
      result.2 = (listEntries log trees pre listed).2 := by
  induction entries generalizing trees output listed with
  | nil =>
      obtain rfl := Option.some.inj unfolds
      exact ⟨output, rfl, same, world⟩
  | cons entry rest ih =>
      rw [List.mapM_cons] at unfolds
      obtain ⟨tree, first, later⟩ := Option.bind_eq_some_iff.mp unfolds
      obtain ⟨others, below, whole⟩ := Option.bind_eq_some_iff.mp later
      obtain rfl := Option.some.inj whole
      obtain ⟨key, named, valued⟩ := Option.bind_eq_some_iff.mp first
      obtain ⟨value, node, rfl⟩ := Option.map_eq_some_iff.mp valued
      obtain ⟨middle, called, listed', world'⟩ :=
        follows entry.2 value node (dotted pre (graph.text entry.1)) output listed same world
      rw [unfold_text named] at called listed' world'
      obtain ⟨result, looped, all, final⟩ := ih below listed' world'
      refine ⟨result, ?_, ?_, ?_⟩
      · rw [List.foldlM_cons, unfold_text named]
        exact Option.bind_eq_some_iff.mpr ⟨middle, called, looped⟩
      · rw [listEntries]
        exact all
      · rw [listEntries]
        exact final

/-- On a node that stands for a tree the calls return, and they list what they list on the
tree. -/
theorem listAllYamlMember_unfold {depth : Nat} {x : Fin graph.size} {node : Node}
    (unfolds : graph.unfold depth x = some node) : graph.Follows log depth x node := by
  induction depth generalizing x node with
  | zero => cases unfolds
  | succ depth ih =>
      intro pre output listed same world
      have shown : List.Forall₂ graph.Shows (output.1 ++ [(pre, x)]) (listed.1 ++ [(pre, node)]) :=
        List.rel_append same (.cons ⟨rfl, depth + 1, unfolds⟩ .nil)
      rw [listAllYamlMember, Config.listAllYamlMember.eq_def]
      by_cases valid : validName pre = true
      · rw [if_pos valid, if_pos valid]
        rw [unfold] at unfolds
        cases cell : graph.cell x with
        | map entries =>
            simp only [cell] at unfolds ⊢
            obtain ⟨trees, below, rfl⟩ := Option.map_eq_some_iff.mp unfolds
            exact listEntries_follows (fun x node => ih) below shown world
        | null | scalar =>
            simp only [cell] at unfolds ⊢
            obtain rfl := Option.some.inj unfolds
            exact ⟨_, rfl, shown, world⟩
        | sequence items =>
            simp only [cell] at unfolds ⊢
            obtain ⟨trees, below, rfl⟩ := Option.map_eq_some_iff.mp unfolds
            exact ⟨_, rfl, shown, world⟩
      · rw [if_neg valid, if_neg valid]
        exact ⟨_, rfl, same, by rw [world]⟩

end Unfolding

end Graph

end ZnetServer.Config
