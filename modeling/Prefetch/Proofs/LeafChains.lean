import Prefetch.Proofs.DistinctSiblings

/-!
# The leaves of a forest of distinct siblings

The leaves of a forest are listed from left to right, each by the names on the way to it. If no two
siblings share a name, then two leaves always differ at some name that both of them have. The list
determines the forest: the leaves below the first root are those whose names start with its name,
and the others belong to the trees after it.
-/

namespace Prefetch

mutual

def Node.leafChains : Node → List (List String)
  | ⟨name, children⟩ =>
    if children.isEmpty then [[name]] else (Forest.leafChains children).map (name :: ·)

/-- The names on the way to each leaf of a forest, from left to right. -/
def Forest.leafChains : List Node → List (List String)
  | [] => []
  | node :: rest => node.leafChains ++ Forest.leafChains rest

end

/-- Neither list of names goes on where the other ends. -/
def Diverge (names other : List String) : Prop := ¬ names <+: other ∧ ¬ other <+: names

theorem Diverge.symm {names other : List String} (h : Diverge names other) :
    Diverge other names := ⟨h.2, h.1⟩

theorem Diverge.cons {names other : List String} (h : Diverge names other) (name : String) :
    Diverge (name :: names) (name :: other) := by
  simpa only [Diverge, List.prefix_cons_inj] using h

theorem Diverge.of_ne {name name' : String} (h : name ≠ name') (names other : List String) :
    Diverge (name :: names) (name' :: other) := by
  simp [Diverge, List.cons_prefix_cons, h, h.symm]

namespace Forest

theorem leafChains_cons (name : String) (children rest : List Node) :
    Forest.leafChains (⟨name, children⟩ :: rest) =
      Node.leafChains ⟨name, children⟩ ++ Forest.leafChains rest := rfl

theorem exists_cons_of_mem_tree {node : Node} {names : List String} (h : names ∈ node.leafChains) :
    ∃ tail, names = node.name :: tail := by
  obtain ⟨name, children⟩ := node
  rw [Node.leafChains] at h
  split at h
  case isTrue => exact ⟨[], List.mem_singleton.mp h⟩
  case isFalse =>
    obtain ⟨tail, -, rfl⟩ := List.mem_map.mp h
    exact ⟨tail, rfl⟩

theorem exists_cons_of_mem {forest : List Node} {names : List String}
    (h : names ∈ Forest.leafChains forest) :
    ∃ name ∈ forest.map (·.name), ∃ tail, names = name :: tail := by
  induction forest with
  | nil => cases h
  | cons node rest ih =>
    rw [leafChains, List.mem_append] at h
    rw [List.map_cons]
    rcases h with hnode | hrest
    · exact ⟨node.name, List.mem_cons_self, exists_cons_of_mem_tree hnode⟩
    · obtain ⟨name, hname, htail⟩ := ih hrest
      exact ⟨name, List.mem_cons_of_mem _ hname, htail⟩

theorem leafChains_eq_nil_iff {forest : List Node} :
    Forest.leafChains forest = [] ↔ forest = [] := by
  induction forest using Forest.inductionOn with
  | nil => simp [leafChains]
  | cons name children rest hchildren _ =>
    rw [leafChains_cons, List.append_eq_nil_iff, Node.leafChains]
    by_cases hnil : children = []
    · simp [hnil]
    · simp [hnil, hchildren]

theorem exists_first_chain (name : String) (children rest : List Node) :
    ∃ tail later, Forest.leafChains (⟨name, children⟩ :: rest) = (name :: tail) :: later := by
  rw [leafChains_cons, Node.leafChains]
  cases children with
  | nil => exact ⟨[], _, rfl⟩
  | cons child others =>
    rw [List.isEmpty_cons, if_neg Bool.false_ne_true]
    cases hbelow : Forest.leafChains (child :: others) with
    | nil => cases leafChains_eq_nil_iff.mp hbelow
    | cons first later => exact ⟨first, _, rfl⟩

/-- Two leaves of a forest of distinct siblings part at some name. -/
theorem pairwise_leafChains {forest : List Node} (h : Forest.distinctNames forest = true) :
    (Forest.leafChains forest).Pairwise Diverge := by
  induction forest using Forest.inductionOn with
  | nil => exact .nil
  | cons name children rest hchildren hrest =>
    obtain ⟨hname, hbelow, htail⟩ := distinctNames_cons_iff.mp h
    rw [leafChains_cons, List.pairwise_append]
    refine ⟨?_, hrest htail, ?_⟩
    · rw [Node.leafChains]
      split
      case isTrue => exact List.pairwise_singleton _ _
      case isFalse =>
        exact List.pairwise_map.mpr ((hchildren hbelow).imp fun hdiverge => hdiverge.cons name)
    · intro names hnames other hother
      obtain ⟨first, rfl⟩ := exists_cons_of_mem_tree hnames
      obtain ⟨name', hname', second, rfl⟩ := exists_cons_of_mem hother
      apply Diverge.of_ne
      intro hsame
      rw [← hsame] at hname'
      exact hname hname'

/-- The leaves below the first root are those whose names start with its name. -/
theorem takeWhile_leafChains {name : String} {children rest : List Node}
    (hname : name ∉ rest.map (·.name)) :
    (Forest.leafChains (⟨name, children⟩ :: rest)).takeWhile (·.head? == some name) =
      Node.leafChains ⟨name, children⟩ := by
  have hbelow : ∀ names ∈ Node.leafChains ⟨name, children⟩, (names.head? == some name) = true := by
    intro names hnames
    obtain ⟨tail, rfl⟩ := exists_cons_of_mem_tree hnames
    simp
  rw [leafChains_cons, List.takeWhile_append_of_pos hbelow]
  cases hrest : Forest.leafChains rest with
  | nil => exact List.append_nil _
  | cons names others =>
    have hmem : names ∈ Forest.leafChains rest := by
      rw [hrest]
      exact List.mem_cons_self
    obtain ⟨name', hname', tail, rfl⟩ := exists_cons_of_mem hmem
    -- the next leaf belongs to a sibling, which has another name
    have hne : name' ≠ name := by
      intro hsame
      rw [hsame] at hname'
      exact hname hname'
    rw [List.takeWhile_cons_of_neg (by simpa using hne), List.append_nil]

theorem leafChains_children (name : String) (children : List Node) :
    Forest.leafChains children =
      ((Node.leafChains ⟨name, children⟩).map List.tail).filter (!·.isEmpty) := by
  rw [Node.leafChains]
  cases children with
  | nil => rfl
  | cons child rest =>
    have hne : ∀ names ∈ Forest.leafChains (child :: rest), (!names.isEmpty) = true := by
      intro names hnames
      obtain ⟨first, -, tail, rfl⟩ := exists_cons_of_mem hnames
      rfl
    rw [List.isEmpty_cons, if_neg Bool.false_ne_true, List.map_map]
    simp only [Function.comp_def, List.tail_cons, List.map_id']
    exact (List.filter_eq_self.mpr hne).symm

/-- The names on the way to the leaves determine a forest of distinct siblings. -/
theorem leafChains_injective {forest other : List Node}
    (h : Forest.distinctNames forest = true) (h' : Forest.distinctNames other = true)
    (hchains : Forest.leafChains forest = Forest.leafChains other) : forest = other := by
  induction forest using Forest.inductionOn generalizing other with
  | nil => exact (leafChains_eq_nil_iff.mp hchains.symm).symm
  | cons name children rest hchildren hrest =>
    cases other with
    | nil => exact leafChains_eq_nil_iff.mp hchains
    | cons node rest' =>
      obtain ⟨name', children'⟩ := node
      obtain ⟨hname, hbelow, htail⟩ := distinctNames_cons_iff.mp h
      obtain ⟨hname', hbelow', htail'⟩ := distinctNames_cons_iff.mp h'
      obtain ⟨tail, later, hfirst⟩ := exists_first_chain name children rest
      obtain ⟨tail', later', hfirst'⟩ := exists_first_chain name' children' rest'
      obtain rfl : name = name' := by
        rw [hfirst, hfirst'] at hchains
        exact (List.cons.inj (List.cons.inj hchains).1).1
      have htree : Node.leafChains ⟨name, children⟩ = Node.leafChains ⟨name, children'⟩ := by
        rw [← takeWhile_leafChains hname, ← takeWhile_leafChains hname', hchains]
      have heq : children = children' := by
        apply hchildren hbelow hbelow'
        rw [leafChains_children name children, htree, ← leafChains_children]
      rw [leafChains_cons, leafChains_cons, htree] at hchains
      rw [heq, hrest htail htail' (List.append_cancel_left hchains)]

end Forest

end Prefetch
