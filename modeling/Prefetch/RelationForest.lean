/-!
# Forests of named nodes

A relation expression denotes a forest: a list of trees whose nodes carry relation names. The
order of siblings is kept and sibling names may repeat. Functions on forests are written for a
tree and for a list of trees side by side, and `Forest.inductionOn` is the matching way to reason
about them: the children of the first tree and the trees after it.
-/

namespace Prefetch

structure Node where
  name : String
  children : List Node
  deriving Inhabited, Repr

abbrev Forest := List Node

def Node.isLeaf (node : Node) : Bool := node.children.isEmpty

@[elab_as_elim]
theorem Forest.inductionOn {motive : List Node → Prop} (forest : List Node) (nil : motive [])
    (cons : ∀ name children rest, motive children → motive rest →
      motive (⟨name, children⟩ :: rest)) : motive forest :=
  match forest with
  | [] => nil
  | ⟨name, children⟩ :: rest =>
    cons name children rest (Forest.inductionOn children nil cons)
      (Forest.inductionOn rest nil cons)

mutual

def Node.size : Node → Nat
  | ⟨_, children⟩ => Forest.size children + 1

def Forest.size : List Node → Nat
  | [] => 0
  | node :: rest => node.size + Forest.size rest

end

@[simp] theorem Forest.size_nil : Forest.size [] = 0 := by simp [Forest.size]

@[simp] theorem Forest.size_cons (node : Node) (rest : List Node) :
    Forest.size (node :: rest) = Forest.size node.children + 1 + Forest.size rest := by
  cases node
  simp [Forest.size, Node.size]

theorem Forest.size_children_lt {node : Node} {forest : List Node} (h : node ∈ forest) :
    Forest.size node.children < Forest.size forest := by
  induction forest with
  | nil => cases h
  | cons head rest ih =>
    rw [Forest.size_cons]
    rcases List.mem_cons.mp h with rfl | h
    · omega
    · have := ih h
      omega

mutual

def Node.preorder (depth : Nat) : Node → List (Nat × String)
  | ⟨name, children⟩ => (depth, name) :: Forest.preorder (depth + 1) children

def Forest.preorder (depth : Nat) : List Node → List (Nat × String)
  | [] => []
  | node :: rest => node.preorder depth ++ Forest.preorder depth rest

end

mutual

def Node.decEq : (a b : Node) → Decidable (a = b)
  | ⟨name, children⟩, ⟨name₁, children₁⟩ =>
    if hn : name = name₁ then
      match Forest.decEq children children₁ with
      | .isTrue hc => .isTrue (by rw [hn, hc])
      | .isFalse hc => .isFalse fun h => hc (Node.mk.inj h).2
    else .isFalse fun h => hn (Node.mk.inj h).1

def Forest.decEq : (a b : List Node) → Decidable (a = b)
  | [], [] => .isTrue rfl
  | [], _ :: _ => .isFalse nofun
  | _ :: _, [] => .isFalse nofun
  | node :: rest, node₁ :: rest₁ =>
    match Node.decEq node node₁, Forest.decEq rest rest₁ with
    | .isTrue hn, .isTrue hr => .isTrue (by rw [hn, hr])
    | .isFalse hn, _ => .isFalse fun h => hn (List.cons.inj h).1
    | _, .isFalse hr => .isFalse fun h => hr (List.cons.inj h).2

end

instance : DecidableEq Node := Node.decEq

end Prefetch
