import Prefetch.FetchPlan
import Prefetch.Proofs.PlacedRows
import Prefetch.Proofs.PlanChains

/-!
# The nodes of a plan

The nodes of a plan are listed in preorder, each with the names of the nodes above it. The list
holds exactly the nodes that a chain of names reaches, and its entries without their names are the
rows of the plan.
-/

namespace Prefetch

/-- A node with the names of the nodes above it, from the root down. -/
structure ReachedNode where
  above : List String
  node : FetchNode
  deriving Repr

namespace ReachedNode

def names (reached : ReachedNode) : List String := reached.above ++ [reached.node.relation]

def behind (name : String) (reached : ReachedNode) : ReachedNode :=
  { reached with above := name :: reached.above }

def row (depth : Nat) (reached : ReachedNode) : FetchRow where
  depth := depth + reached.above.length
  relation := reached.node.relation
  entity := reached.node.entity
  recursive := reached.node.recursive

def isLeaf (reached : ReachedNode) : Bool := reached.node.children.isEmpty

@[simp] theorem names_behind (name : String) (reached : ReachedNode) :
    (reached.behind name).names = name :: reached.names := rfl

@[simp] theorem isLeaf_behind (name : String) (reached : ReachedNode) :
    (reached.behind name).isLeaf = reached.isLeaf := rfl

theorem row_behind (depth : Nat) (name : String) (reached : ReachedNode) :
    (reached.behind name).row depth = reached.row (depth + 1) := by
  simp only [row, behind, List.length_cons]
  congr 1
  omega

end ReachedNode

mutual

def FetchNode.reached : FetchNode → List ReachedNode
  | ⟨relation, entity, recursive, children⟩ =>
    ⟨[], ⟨relation, entity, recursive, children⟩⟩ ::
      (FetchForest.reached children).map (.behind relation)

def FetchForest.reached : List FetchNode → List ReachedNode
  | [] => []
  | node :: rest => node.reached ++ FetchForest.reached rest

end

def FetchPlan.reached (plan : FetchPlan) : List ReachedNode := FetchForest.reached plan.nodes

namespace FetchForest

@[simp] theorem reached_nil : FetchForest.reached [] = [] := rfl

theorem reached_cons (node : FetchNode) (rest : List FetchNode) :
    FetchForest.reached (node :: rest) =
      ⟨[], node⟩ :: ((FetchForest.reached node.children).map (.behind node.relation) ++
        FetchForest.reached rest) := by
  cases node
  rw [reached, FetchNode.reached, List.cons_append]

theorem map_row_reached (depth : Nat) (forest : List FetchNode) :
    (FetchForest.reached forest).map (ReachedNode.row depth) = FetchForest.rows depth forest := by
  induction forest using FetchForest.inductionOn generalizing depth with
  | nil => rfl
  | cons relation entity recursive children rest hchildren hrest =>
    rw [reached_cons, rows_cons, List.map_cons, List.map_append, List.map_map, hrest,
      ← hchildren (depth + 1)]
    congr 2
    apply List.map_congr_left
    intro reached _
    exact reached.row_behind depth relation

theorem not_reaches_nil {names : List String} {node : FetchNode} :
    ¬ FetchForest.Reaches [] names node := by
  intro h
  cases h with
  | root hmem => cases hmem
  | child hmem => cases hmem

theorem reaches_cons_forest_iff {first : FetchNode} {rest : List FetchNode} {names : List String}
    {node : FetchNode} :
    FetchForest.Reaches (first :: rest) names node ↔
      (names = [first.relation] ∧ node = first) ∨
      (∃ tail, names = first.relation :: tail ∧
        FetchForest.Reaches first.children tail node) ∨
      FetchForest.Reaches rest names node := by
  constructor
  · intro h
    cases h with
    | root hmem =>
      rcases List.mem_cons.mp hmem with rfl | hmem
      · exact .inl ⟨rfl, rfl⟩
      · exact .inr (.inr (.root hmem))
    | child hmem tail =>
      rcases List.mem_cons.mp hmem with rfl | hmem
      · exact .inr (.inl ⟨_, rfl, tail⟩)
      · exact .inr (.inr (.child hmem tail))
  · rintro (⟨rfl, rfl⟩ | ⟨tail, rfl, htail⟩ | h)
    · exact .root List.mem_cons_self
    · exact .child List.mem_cons_self htail
    · cases h with
      | root hmem => exact .root (List.mem_cons_of_mem _ hmem)
      | child hmem tail => exact .child (List.mem_cons_of_mem _ hmem) tail

theorem mem_reached_iff {forest : List FetchNode} {found : ReachedNode} :
    found ∈ FetchForest.reached forest ↔ FetchForest.Reaches forest found.names found.node := by
  induction forest using FetchForest.inductionOn generalizing found with
  | nil =>
    rw [reached_nil]
    exact iff_of_false List.not_mem_nil not_reaches_nil
  | cons relation entity recursive children rest hchildren hrest =>
    obtain ⟨above, node⟩ := found
    rw [reached_cons, List.mem_cons, List.mem_append, List.mem_map, reaches_cons_forest_iff, hrest]
    refine or_congr ?root (or_congr_left ?below)
    case root =>
      constructor
      · intro hfound
        cases hfound
        exact ⟨rfl, rfl⟩
      · rintro ⟨hnames, rfl⟩
        have habove : above = [] := by simpa [ReachedNode.names] using hnames
        rw [habove]
    case below =>
      constructor
      · rintro ⟨inner, hinner, hfound⟩
        cases hfound
        exact ⟨inner.names, rfl, hchildren.mp hinner⟩
      · rintro ⟨tail, hnames, htail⟩
        cases above with
        | nil =>
          cases hnames
          exact absurd rfl htail.ne_nil
        | cons name above =>
          obtain ⟨rfl, rfl⟩ := List.cons.inj hnames
          exact ⟨⟨above, node⟩, hchildren.mpr htail, rfl⟩

end FetchForest

end Prefetch
