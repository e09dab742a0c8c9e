import Prefetch.RelationForest

/-!
# Outlines: nested dictionaries in order of first arrival

The outline of a forest keeps one entry for every name among siblings. The entry stands where the
name first occurs and holds the outline of the last node of that name.
-/

namespace Prefetch

/-- A nested dictionary with ordered entries. -/
inductive Outline where
  | empty
  | entry (key : String) (value rest : Outline)
  deriving DecidableEq, Repr

namespace Outline

/-- Writes an entry: a present key keeps its place, a new key goes to the end. -/
def set (key : String) (value : Outline) : Outline → Outline
  | empty => entry key value empty
  | entry k v rest => if k = key then entry k value rest else entry k v (set key value rest)

def get? (key : String) : Outline → Option Outline
  | empty => none
  | entry k v rest => if k = key then some v else get? key rest

def preorder (depth : Nat) : Outline → List (Nat × String)
  | empty => []
  | entry key value rest => (depth, key) :: value.preorder (depth + 1) ++ rest.preorder depth

@[simp] theorem get?_set (key k : String) (value written : Outline) :
    get? k (set key value written) = if k = key then some value else get? k written := by
  induction written with
  | empty => simp [set, get?, eq_comm]
  | entry key₁ value₁ rest _ ih =>
    by_cases h : key₁ = key
    · subst h
      by_cases hk : key₁ = k
      · simp [set, get?, hk]
      · simp [set, get?, hk, Ne.symm hk]
    · by_cases hk : key₁ = k
      · simp [set, get?, hk, hk ▸ h]
      · simp [set, get?, h, hk, ih]

end Outline

mutual

def Node.outline : Node → Outline
  | ⟨_, children⟩ => Forest.outlineFrom .empty children

def Forest.outlineFrom (written : Outline) : List Node → Outline
  | [] => written
  | node :: rest => Forest.outlineFrom (Outline.set node.name node.outline written) rest

end

def Forest.outline (forest : List Node) : Outline := Forest.outlineFrom .empty forest

end Prefetch
