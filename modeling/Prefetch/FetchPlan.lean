import Prefetch.DottedPath

/-!
# Fetch plans

A plan is a forest of relations to fetch from a root entity on. Every node knows the entity on
which its relation ends, and whether it was reached by an unbounded part of the expression.
-/

namespace Prefetch

structure FetchNode where
  relation : String
  entity : String
  recursive : Bool
  children : List FetchNode
  deriving Repr

abbrev FetchForest := List FetchNode

/-- The relations to fetch from a root entity on, and the expression that asked for them. -/
structure FetchPlan where
  rootEntity : String
  expression : String
  nodes : List FetchNode
  deriving Repr

@[elab_as_elim]
theorem FetchForest.inductionOn {motive : List FetchNode → Prop} (forest : List FetchNode)
    (nil : motive [])
    (cons : ∀ relation entity recursive children rest, motive children → motive rest →
      motive (⟨relation, entity, recursive, children⟩ :: rest)) : motive forest :=
  match forest with
  | [] => nil
  | ⟨relation, entity, recursive, children⟩ :: rest =>
    cons relation entity recursive children rest (FetchForest.inductionOn children nil cons)
      (FetchForest.inductionOn rest nil cons)

structure FetchRow where
  depth : Nat
  relation : String
  entity : String
  recursive : Bool
  deriving DecidableEq, Repr

mutual

def FetchNode.rows (depth : Nat) : FetchNode → List FetchRow
  | ⟨relation, entity, recursive, children⟩ =>
    ⟨depth, relation, entity, recursive⟩ :: FetchForest.rows (depth + 1) children

def FetchForest.rows (depth : Nat) : List FetchNode → List FetchRow
  | [] => []
  | node :: rest => node.rows depth ++ FetchForest.rows depth rest

end

def FetchPlan.rows (plan : FetchPlan) : List FetchRow := FetchForest.rows 0 plan.nodes

mutual

def FetchNode.leafPaths (path : String) : FetchNode → List String
  | ⟨relation, _, _, children⟩ =>
    let here := DottedPath.extend path relation
    if children.isEmpty then [here] else FetchForest.leafPaths here children

def FetchForest.leafPaths (path : String) : List FetchNode → List String
  | [] => []
  | node :: rest => node.leafPaths path ++ FetchForest.leafPaths path rest

end

/-- The dotted paths from the root entity to the leaves of the plan. -/
def FetchPlan.paths (plan : FetchPlan) : List String := FetchForest.leafPaths "" plan.nodes

end Prefetch
