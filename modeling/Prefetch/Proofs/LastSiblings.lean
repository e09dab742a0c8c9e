import Prefetch.ForestOutline
import Prefetch.Proofs.DistinctSiblings

/-!
# What an outline keeps

An outline can be read back as a forest: its keys become names again, and what they hold becomes
their children. In an outline no key occurs twice beside another, whatever forest it was made of. So
a forest is read back as it was if and only if no two siblings share a name, at any depth, also
below a node that a later one replaces. Looking up a list of keys always leads to the last of the
siblings that share a name.
-/

namespace Prefetch

namespace Outline

def forest : Outline → List Node
  | empty => []
  | entry key value rest => ⟨key, value.forest⟩ :: rest.forest

/-- The value that a list of keys leads to, each looked up in the value of the one before it. -/
def at? (outline : Outline) : List String → Option Outline
  | [] => some outline
  | key :: keys => (outline.get? key).bind fun value => value.at? keys

theorem mem_names_set {key name : String} {value written : Outline} :
    name ∈ (set key value written).forest.map (·.name) ↔
      name = key ∨ name ∈ written.forest.map (·.name) := by
  induction written with
  | empty => simp [set, forest]
  | entry k old rest _ ih =>
    rw [set]
    split
    case isTrue hk => simp [forest, hk]
    case isFalse => rw [forest, forest, List.map_cons, List.map_cons, List.mem_cons, ih,
        List.mem_cons, or_left_comm]

theorem forest_set_of_notMem {key : String} {value written : Outline}
    (h : key ∉ written.forest.map (·.name)) :
    (set key value written).forest = written.forest ++ [⟨key, value.forest⟩] := by
  induction written with
  | empty => rfl
  | entry k old rest _ ih =>
    rw [forest, List.map_cons, List.mem_cons, not_or] at h
    rw [set, if_neg (Ne.symm h.1), forest, ih h.2, forest, List.cons_append]

theorem distinctNames_set {key : String} {value written : Outline}
    (hvalue : Forest.distinctNames value.forest = true)
    (hwritten : Forest.distinctNames written.forest = true) :
    Forest.distinctNames (set key value written).forest = true := by
  induction written with
  | empty => exact Forest.distinctNames_cons_iff.mpr ⟨List.not_mem_nil, hvalue, hwritten⟩
  | entry k old rest _ ih =>
    obtain ⟨hk, hold, hrest⟩ := Forest.distinctNames_cons_iff.mp hwritten
    rw [set]
    split
    case isTrue => exact Forest.distinctNames_cons_iff.mpr ⟨hk, hvalue, hrest⟩
    case isFalse hne =>
      refine Forest.distinctNames_cons_iff.mpr ⟨?_, hold, ih hrest⟩
      rw [mem_names_set, not_or]
      exact ⟨hne, hk⟩

end Outline

namespace Forest

theorem outlineFrom_cons (written : Outline) (name : String) (children rest : List Node) :
    outlineFrom written (⟨name, children⟩ :: rest) =
      outlineFrom (Outline.set name (outline children) written) rest := rfl

theorem distinctNames_outlineFrom {written : Outline} {forest : List Node}
    (hwritten : distinctNames written.forest = true) :
    distinctNames (outlineFrom written forest).forest = true := by
  induction forest using Forest.inductionOn generalizing written with
  | nil => exact hwritten
  | cons name children rest hchildren hrest =>
    rw [outlineFrom_cons]
    exact hrest (Outline.distinctNames_set (hchildren rfl) hwritten)

/-- A forest of distinct siblings is written behind what was written before, as it is. -/
theorem forest_outlineFrom {written : Outline} {forest : List Node}
    (h : distinctNames forest = true)
    (hnew : ∀ name ∈ forest.map (·.name), name ∉ written.forest.map (·.name)) :
    (outlineFrom written forest).forest = written.forest ++ forest := by
  induction forest using Forest.inductionOn generalizing written with
  | nil => exact (List.append_nil _).symm
  | cons name children rest hchildren hrest =>
    obtain ⟨hname, hbelow, hdistinct⟩ := distinctNames_cons_iff.mp h
    have hset : (Outline.set name (outline children) written).forest =
        written.forest ++ [⟨name, children⟩] := by
      rw [Outline.forest_set_of_notMem (hnew name List.mem_cons_self), outline,
        hchildren hbelow (by simp [Outline.forest])]
      rfl
    rw [outlineFrom_cons, hrest hdistinct, hset, List.append_assoc, List.singleton_append]
    intro other hother
    rw [Outline.mem_names_set, not_or]
    refine ⟨?_, hnew other (List.mem_cons_of_mem _ hother)⟩
    intro hsame
    exact hname (hsame ▸ hother)

/-- The trees below the last root of the first name, then below the last of the next name among
them, and so on. -/
def belowLast? (forest : List Node) : List String → Option (List Node)
  | [] => some forest
  | name :: names =>
    (forest.findRev? (·.name == name)).bind fun node => belowLast? node.children names

/-- The last tree of a name is found, and else what was written before. -/
theorem get?_outlineFrom (written : Outline) (forest : List Node) (key : String) :
    (outlineFrom written forest).get? key =
      ((forest.findRev? (·.name == key)).map fun node => outline node.children).or
        (written.get? key) := by
  induction forest generalizing written with
  | nil => rfl
  | cons node rest ih =>
    obtain ⟨name, children⟩ := node
    rw [outlineFrom_cons, ih, Outline.get?_set, List.findRev?]
    cases rest.findRev? (·.name == key) with
    | some last => rfl
    | none =>
      by_cases hname : name = key
      · simp [hname]
      · simp [hname, Ne.symm hname]

theorem at?_outline (forest : List Node) (keys : List String) :
    (outline forest).at? keys = (belowLast? forest keys).map outline := by
  induction keys generalizing forest with
  | nil => rfl
  | cons key keys ih =>
    rw [Outline.at?, belowLast?, outline, get?_outlineFrom]
    cases forest.findRev? (·.name == key) with
    | none => rfl
    | some node => exact ih node.children

end Forest

/-- An expression is read back from its outline if and only if no two siblings share a name, at any
depth. Looking up a list of keys in the outline leads to the outline of what is below the node that
is found by taking the last sibling of each name, and to nothing if there is no such node. -/
theorem Expression.outline_keeps_last_siblings (e : Expression) :
    ((Forest.outline e.nodes).forest = e.nodes ↔ e.distinctNames = true) ∧
    ∀ keys, (Forest.outline e.nodes).at? keys =
      (Forest.belowLast? e.nodes keys).map Forest.outline := by
  constructor
  · constructor
    · intro h
      rw [Expression.distinctNames, ← h]
      exact Forest.distinctNames_outlineFrom rfl
    · intro h
      exact Forest.forest_outlineFrom h (by simp [Outline.forest])
  · exact Forest.at?_outline e.nodes

/-- The last `a` stands where the first one stood, and what was below the first one is lost. -/
example :
    (Forest.outline [⟨"a", [⟨"b", []⟩]⟩, ⟨"c", []⟩, ⟨"a", [⟨"d", []⟩]⟩]).forest =
      [⟨"a", [⟨"d", []⟩]⟩, ⟨"c", []⟩] := by
  decide

end Prefetch
