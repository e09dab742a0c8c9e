import Prefetch.FetchPlan
import Mathlib.Data.List.TakeWhile

/-!
# Rows and their places

The rows of a plan list its nodes in preorder, each with its depth. Together with every row goes
the path of the node above it. The rows determine the nodes: what stands below a node are the rows
behind its own that stand deeper.
-/

namespace Prefetch

mutual

def FetchNode.placedRows (path : String) (depth : Nat) : FetchNode → List (String × FetchRow)
  | ⟨relation, entity, recursive, children⟩ =>
    (path, ⟨depth, relation, entity, recursive⟩) ::
      FetchForest.placedRows (DottedPath.extend path relation) (depth + 1) children

def FetchForest.placedRows (path : String) (depth : Nat) : List FetchNode → List (String × FetchRow)
  | [] => []
  | node :: rest => node.placedRows path depth ++ FetchForest.placedRows path depth rest

end

/-- The rows of a plan, each with the path of the node above it. The path above a root is empty. -/
def FetchPlan.placedRows (plan : FetchPlan) : List (String × FetchRow) :=
  FetchForest.placedRows "" 0 plan.nodes

@[simp] theorem FetchForest.placedRows_nil (path : String) (depth : Nat) :
    FetchForest.placedRows path depth [] = [] := rfl

theorem FetchForest.placedRows_cons (path : String) (depth : Nat) (node : FetchNode)
    (rest : List FetchNode) :
    FetchForest.placedRows path depth (node :: rest) =
      (path, ⟨depth, node.relation, node.entity, node.recursive⟩) ::
        (FetchForest.placedRows (DottedPath.extend path node.relation) (depth + 1) node.children ++
          FetchForest.placedRows path depth rest) := by
  cases node
  rw [FetchForest.placedRows, FetchNode.placedRows, List.cons_append]

theorem FetchForest.rows_cons (depth : Nat) (node : FetchNode) (rest : List FetchNode) :
    FetchForest.rows depth (node :: rest) =
      ⟨depth, node.relation, node.entity, node.recursive⟩ ::
        (FetchForest.rows (depth + 1) node.children ++ FetchForest.rows depth rest) := by
  cases node
  rw [FetchForest.rows, FetchNode.rows, List.cons_append]

theorem FetchForest.map_snd_placedRows (path : String) (depth : Nat) (forest : List FetchNode) :
    (FetchForest.placedRows path depth forest).map Prod.snd = FetchForest.rows depth forest := by
  induction forest using FetchForest.inductionOn generalizing path depth with
  | nil => rfl
  | cons relation entity recursive children rest hchildren hrest =>
    rw [FetchForest.placedRows_cons, FetchForest.rows_cons, List.map_cons, List.map_append,
      hchildren, hrest]

theorem FetchPlan.map_snd_placedRows (plan : FetchPlan) :
    plan.placedRows.map Prod.snd = plan.rows :=
  FetchForest.map_snd_placedRows "" 0 plan.nodes

theorem FetchForest.le_depth_of_mem_rows {depth : Nat} {forest : List FetchNode} {row : FetchRow}
    (h : row ∈ FetchForest.rows depth forest) : depth ≤ row.depth := by
  induction forest using FetchForest.inductionOn generalizing depth with
  | nil => cases h
  | cons relation entity recursive children rest hchildren hrest =>
    rw [FetchForest.rows_cons, List.mem_cons, List.mem_append] at h
    rcases h with rfl | h | h
    · exact Nat.le_refl _
    · exact Nat.le_of_succ_le (hchildren h)
    · exact hrest h

/-- The rows that stand deeper than a node, up to the first that does not, are those below it. -/
theorem FetchForest.takeWhile_rows (depth : Nat) (children rest : List FetchNode) :
    (FetchForest.rows (depth + 1) children ++ FetchForest.rows depth rest).takeWhile
        (fun row => decide (depth < row.depth)) = FetchForest.rows (depth + 1) children := by
  have hbelow : ∀ row ∈ FetchForest.rows (depth + 1) children,
      decide (depth < row.depth) = true := by
    intro row hrow
    exact decide_eq_true (FetchForest.le_depth_of_mem_rows hrow)
  rw [List.takeWhile_append_of_pos hbelow]
  cases rest with
  | nil => exact List.append_nil _
  | cons node rest =>
    rw [FetchForest.rows_cons, List.takeWhile_cons_of_neg (by simp), List.append_nil]

theorem FetchForest.rows_injective {depth : Nat} {forest other : List FetchNode}
    (h : FetchForest.rows depth forest = FetchForest.rows depth other) : forest = other := by
  induction forest using FetchForest.inductionOn generalizing depth other with
  | nil =>
    cases other with
    | nil => rfl
    | cons node rest =>
      rw [FetchForest.rows_cons] at h
      cases h
  | cons relation entity recursive children rest hchildren hrest =>
    cases other with
    | nil =>
      rw [FetchForest.rows_cons] at h
      cases h
    | cons node rest' =>
      obtain ⟨relation', entity', recursive', children'⟩ := node
      rw [FetchForest.rows_cons, FetchForest.rows_cons] at h
      obtain ⟨hrow, htail⟩ := List.cons.inj h
      cases hrow
      have hbelow : FetchForest.rows (depth + 1) children =
          FetchForest.rows (depth + 1) children' := by
        have htake := congrArg (List.takeWhile fun row => decide (depth < row.depth)) htail
        simpa only [FetchForest.takeWhile_rows] using htake
      rw [hbelow] at htail
      rw [hchildren hbelow, hrest (List.append_cancel_left htail)]

end Prefetch
