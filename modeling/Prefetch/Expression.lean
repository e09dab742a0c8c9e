import Prefetch.RelationForest

/-!
# Relation expressions

An expression says which relations to follow from an entity and, below each of them, which to
follow next. Descending into a relation gives the expression that applies on the other side. Two
names are reserved. An expression whose only root is `*` selects every relation at every level. A
node whose only child is `^` repeats itself: below it the same node applies again.
-/

namespace Prefetch

def everyName : String := "*"

/-- The name of the child that makes a node repeat itself. -/
def againName : String := "^"

def isReserved (name : String) : Bool := name == everyName || name == againName

/-- A node whose only child is the repetition mark. -/
def Node.repeats (node : Node) : Bool :=
  match node.children with
  | [child] => child.name == againName
  | _ => false

structure Expression where
  nodes : List Node
  deriving DecidableEq, Repr

namespace Expression

def empty : Expression := ⟨[]⟩

def isEmpty (e : Expression) : Bool := e.nodes.isEmpty

def size (e : Expression) : Nat := Forest.size e.nodes

def rootNames (e : Expression) : List String := e.nodes.map (·.name)

def root? (e : Expression) (name : String) : Option Node := e.nodes.find? (·.name == name)

theorem mem_of_root? {e : Expression} {name : String} {node : Node}
    (h : e.root? name = some node) : node ∈ e.nodes :=
  List.mem_of_find?_eq_some h

theorem name_of_root? {e : Expression} {name : String} {node : Node}
    (h : e.root? name = some node) : node.name = name := by
  simpa using List.find?_some h

def selectsAll (e : Expression) : Bool :=
  match e.nodes with
  | [node] => node.name == everyName
  | _ => false

def repeats (e : Expression) (name : String) : Bool :=
  match e.root? name with
  | some node => node.repeats
  | none => false

/-- The expression that applies behind a relation, or `none` if the relation is not selected. A
selected leaf gives the empty expression. -/
def step (e : Expression) (name : String) : Option Expression :=
  if e.selectsAll then some e
  else (e.root? name).map fun node => if node.repeats then ⟨[node]⟩ else ⟨node.children⟩

def descend (e : Expression) : List String → Option Expression
  | [] => some e
  | name :: names => (e.step name).bind fun sub => sub.descend names

theorem step_of_selectsAll {e : Expression} (h : e.selectsAll = true) (name : String) :
    e.step name = some e := by
  simp [step, h]

/-- What applies behind a relation: the whole expression if it selects everything, and else the
first root of the given name if that root repeats itself, or the trees below it. -/
theorem step_cases {e sub : Expression} {name : String} (h : e.step name = some sub) :
    (e.selectsAll = true ∧ sub = e) ∨
      (e.selectsAll = false ∧ ∃ node, e.root? name = some node ∧
        ((node.repeats = true ∧ sub = ⟨[node]⟩) ∨
          (node.repeats = false ∧ sub = ⟨node.children⟩))) := by
  cases hall : e.selectsAll with
  | true =>
    rw [step_of_selectsAll hall] at h
    exact .inl ⟨rfl, (Option.some.inj h).symm⟩
  | false =>
    simp only [step, hall, Bool.false_eq_true, if_false, Option.map_eq_some_iff] at h
    obtain ⟨node, hroot, rfl⟩ := h
    refine .inr ⟨rfl, node, hroot, ?_⟩
    cases node.repeats with
    | true => exact .inl ⟨rfl, rfl⟩
    | false => exact .inr ⟨rfl, rfl⟩

/-- Below a relation that does not repeat itself the expression is strictly smaller, unless it
selects everything. -/
theorem size_step_lt {e sub : Expression} {name : String} (hall : e.selectsAll = false)
    (hrec : e.repeats name = false) (h : e.step name = some sub) : sub.size < e.size := by
  obtain ⟨hevery, -⟩ | ⟨-, node, hroot, ⟨hrepeats, -⟩ | ⟨-, rfl⟩⟩ := step_cases h
  · simp [hall] at hevery
  · simp [repeats, hroot, hrepeats] at hrec
  · exact Forest.size_children_lt (mem_of_root? hroot)

theorem size_step_le {e sub : Expression} {name : String} (h : e.step name = some sub) :
    sub.size ≤ e.size := by
  obtain ⟨-, rfl⟩ | ⟨-, node, hroot, hsub⟩ := step_cases h
  · exact Nat.le_refl _
  · have hsize := Forest.size_children_lt (mem_of_root? hroot)
    rcases hsub with ⟨-, rfl⟩ | ⟨-, rfl⟩
    · simpa [size] using Nat.succ_le_of_lt hsize
    · exact Nat.le_of_lt hsize

end Expression

end Prefetch
