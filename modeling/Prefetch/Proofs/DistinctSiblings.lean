import Prefetch.Expression
import Prefetch.Proofs.KeyedLists

/-!
# Distinct siblings

A forest in which no two siblings share a name, at any depth. The first root of a name is then the
only one, so the order of siblings does not matter to a look-up by name.
-/

namespace Prefetch

mutual

def Node.distinctNames : Node → Bool
  | ⟨_, children⟩ => Forest.distinctNames children

def Forest.distinctNames : List Node → Bool
  | [] => true
  | node :: rest =>
    !rest.any (·.name == node.name) && node.distinctNames && Forest.distinctNames rest

end

/-- No two siblings of an expression share a name, at any depth. -/
def Expression.distinctNames (e : Expression) : Bool := Forest.distinctNames e.nodes

theorem Forest.distinctNames_cons_iff {name : String} {children rest : List Node} :
    Forest.distinctNames (⟨name, children⟩ :: rest) = true ↔
      name ∉ rest.map (·.name) ∧ Forest.distinctNames children = true ∧
        Forest.distinctNames rest = true := by
  simp [distinctNames, Node.distinctNames, and_assoc]

theorem Forest.distinctNames_iff {forest : List Node} :
    Forest.distinctNames forest = true ↔
      (forest.map (·.name)).Nodup ∧ ∀ node ∈ forest, Forest.distinctNames node.children = true := by
  induction forest with
  | nil => simp [distinctNames]
  | cons node rest ih =>
    obtain ⟨name, children⟩ := node
    rw [distinctNames_cons_iff, ih, List.map_cons, List.nodup_cons, List.forall_mem_cons]
    constructor
    · intro h
      obtain ⟨hname, hchildren, hrest, hbelow⟩ := h
      exact ⟨⟨hname, hrest⟩, hchildren, hbelow⟩
    · intro h
      obtain ⟨⟨hname, hrest⟩, hchildren, hbelow⟩ := h
      exact ⟨hname, hchildren, hrest, hbelow⟩

theorem Expression.root?_eq_some_iff {e : Expression} (h : Forest.distinctNames e.nodes = true)
    {name : String} {node : Node} :
    e.root? name = some node ↔ node ∈ e.nodes ∧ node.name = name :=
  find?_key_eq_some_iff (Forest.distinctNames_iff.mp h).1

end Prefetch
