import Prefetch.FieldFault
import Prefetch.FetchPlan

/-!
# Reading a plan

A plan can be read back from a value of no fixed shape. The fields of plans and nodes are declared
here; how a value is read is left to a reader, of which only the rules matter that it follows. The
standard reader goes through the value by recursion, depth first. Nodes may be nested without end or
only so far: what stands in the place of a deeper node is then refused without being looked into.
-/

namespace Prefetch

/-- What is expected of a value. Nodes are expected with the number of levels that are admitted, or
with none if there is no limit to them. -/
inductive Expected where
  | text
  | truth
  | nodes (levels : Option Nat)
  | node (levels : Option Nat)
  | plan (levels : Option Nat)
  deriving DecidableEq, Repr

@[reducible] def Expected.Result : Expected → Type
  | text => String
  | truth => Bool
  | nodes _ => List FetchNode
  | node _ => FetchNode
  | plan _ => FetchPlan

/-- A way of reading values as what is expected of them, with faults of the given kinds. -/
structure Reader (κ : Type) where
  missing : κ
  read : (expected : Expected) → Value → Checked κ expected.Result

section Fields

variable {κ : Type} (missing : κ) (readText : Value → Checked κ String)

/-- Reads the fields of a node in their order. The children, which come last, have been read. -/
def FetchNode.ofFields (readTruth : Value → Checked κ Bool) (fields : Record)
    (children : Checked κ (List FetchNode)) : Checked κ FetchNode :=
  ((((fields.required missing "relation" readText).map FetchNode.mk).ap
    (fields.required missing "entity" readText)).ap
    (fields.optional "recursive" false readTruth)).ap children

def FetchPlan.ofFields (readNodes : Value → Checked κ (List FetchNode)) (fields : Record) :
    Checked κ FetchPlan :=
  (((fields.required missing "root_entity" readText).map FetchPlan.mk).ap
    (fields.optional "expression" "" readText)).ap
    (fields.optional "nodes" [] readNodes)

end Fields

namespace FetchNode

mutual

def ofValue (levels : Option Nat) : Value → Checked FaultKind FetchNode
  | .record fields =>
    if levels = some 0 then .fault .tooDeep
    else ofFields .missing Value.readText Value.readTruth fields
      (childrenOf (levels.map Nat.pred) fields)
  | _ => .fault (if levels = some 0 then .tooDeep else .notRecord .node)
termination_by structural value => value

/-- Reads the children of a node, which has none if the field is left out. -/
def childrenOf (levels : Option Nat) : Record → Checked FaultKind (List FetchNode)
  | .empty => .valid []
  | .field key value rest =>
    if key = "children" then (listOf levels value).behind (.field "children")
    else childrenOf levels rest
termination_by structural fields => fields

def listOf (levels : Option Nat) : Value → Checked FaultKind (List FetchNode)
  | .list items => itemsFrom levels 0 items
  | _ => .fault .notList
termination_by structural value => value

def itemsFrom (levels : Option Nat) (index : Nat) :
    List Value → Checked FaultKind (List FetchNode)
  | [] => .valid []
  | value :: rest =>
    (((ofValue levels value).behind (.item index)).map List.cons).ap
      (itemsFrom levels (index + 1) rest)
termination_by structural items => items

end

theorem childrenOf_eq (levels : Option Nat) (fields : Record) :
    childrenOf levels fields = fields.optional "children" [] (listOf levels) := by
  match fields with
  | .empty => rfl
  | .field key value rest =>
    by_cases h : key = "children"
    · simp [childrenOf, Record.optional, Record.get?, h]
    · simp [childrenOf, Record.optional, Record.get?, h, childrenOf_eq levels rest]

theorem itemsFrom_eq (levels : Option Nat) (index : Nat) (values : List Value) :
    itemsFrom levels index values = Checked.items (ofValue levels) index values := by
  induction values generalizing index with
  | nil => rfl
  | cons value values ih => rw [itemsFrom, Checked.items, ih]

end FetchNode

/-- Reads a plan, of whose nodes the given number of levels is admitted. -/
def FetchPlan.ofValue (levels : Option Nat) : Value → Checked FaultKind FetchPlan
  | .record fields => ofFields .missing Value.readText (FetchNode.listOf levels) fields
  | _ => .fault (.notRecord .plan)

def Reader.standard : Reader FaultKind where
  missing := .missing
  read
    | .text => Value.readText
    | .truth => Value.readTruth
    | .nodes levels => FetchNode.listOf levels
    | .node levels => FetchNode.ofValue levels
    | .plan levels => FetchPlan.ofValue levels

end Prefetch
