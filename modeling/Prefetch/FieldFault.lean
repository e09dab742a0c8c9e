import Prefetch.LooseValue

/-!
# Reading the fields of a record

Reading a value of no fixed shape either succeeds or gives the list of all faults found in it.
Reading one field never keeps another from being read, so the faults of all fields are collected,
in the order in which the fields are read. A fault tells where it lies by the steps that lead to
it from the outermost value.
-/

namespace Prefetch

/-- A step from a record to one of its fields, or from a list to one of its items. -/
inductive Step where
  | field (name : String)
  | item (index : Nat)
  deriving DecidableEq, Repr

/-- What is wrong with a value, or with its absence, and the steps that lead there. -/
structure Fault (κ : Type) where
  kind : κ
  location : List Step
  deriving DecidableEq, Repr

/-- A value that was read, or the faults that were found instead. -/
inductive Checked (κ α : Type) where
  | valid (value : α)
  | faulty (faults : List (Fault κ))
  deriving DecidableEq, Repr

namespace Checked

variable {κ α β : Type}

def fault (kind : κ) : Checked κ α := faulty [⟨kind, []⟩]

def map (f : α → β) : Checked κ α → Checked κ β
  | valid a => valid (f a)
  | faulty faults => faulty faults

def ap : Checked κ (α → β) → Checked κ α → Checked κ β
  | valid f, valid a => valid (f a)
  | valid _, faulty faults => faulty faults
  | faulty faults, valid _ => faulty faults
  | faulty faults, faulty more => faulty (faults ++ more)

def behind (step : Step) : Checked κ α → Checked κ α
  | valid a => valid a
  | faulty faults => faulty (faults.map fun fault => ⟨fault.kind, step :: fault.location⟩)

def faults : Checked κ α → List (Fault κ)
  | valid _ => []
  | faulty faults => faults

@[simp] theorem faults_map (f : α → β) (x : Checked κ α) : (x.map f).faults = x.faults := by
  cases x <;> rfl

@[simp] theorem faults_ap (f : Checked κ (α → β)) (x : Checked κ α) :
    (f.ap x).faults = f.faults ++ x.faults := by
  cases f <;> cases x <;> simp [ap, faults]

/-- Reads the items of a list one by one, the first of which has the given index. -/
def items (read : Value → Checked κ α) : (index : Nat) → List Value → Checked κ (List α)
  | _, [] => valid []
  | index, value :: rest =>
    (((read value).behind (.item index)).map List.cons).ap (items read (index + 1) rest)

end Checked

namespace Record

variable {κ α : Type}

def required (missing : κ) (fields : Record) (key : String) (read : Value → Checked κ α) :
    Checked κ α :=
  match fields.get? key with
  | some value => (read value).behind (.field key)
  | none => (Checked.fault missing).behind (.field key)

def optional (fields : Record) (key : String) (default : α) (read : Value → Checked κ α) :
    Checked κ α :=
  match fields.get? key with
  | some value => (read value).behind (.field key)
  | none => .valid default

end Record

inductive Shape where
  | request
  | plan
  | node
  deriving DecidableEq, Repr

def Shape.name : Shape → String
  | request => "EagerRequest"
  | plan => "EagerPlan"
  | node => "EagerNode"

inductive FaultKind where
  | notRecord (shape : Shape)
  | missing
  | notText
  | notList
  | invalidExpression (cause : InvalidExpression)
  | notTruth
  | unclearTruth
  | tooDeep
  deriving DecidableEq, Repr

namespace FaultKind

def code : FaultKind → String
  | notRecord _ => "model_type"
  | missing => "missing"
  | notText => "string_type"
  | notList => "list_type"
  | invalidExpression _ => "value_error"
  | notTruth => "bool_type"
  | unclearTruth => "bool_parsing"
  | tooDeep => "recursion_depth_exceeded"

def message : FaultKind → String
  | notRecord shape => "Input should be a valid dictionary or instance of " ++ shape.name
  | missing => "Field required"
  | notText => "Input should be a valid string"
  | notList => "Input should be a valid list"
  | invalidExpression cause => "Value error, " ++ cause.message
  | notTruth => "Input should be a valid boolean"
  | unclearTruth => "Input should be a valid boolean, unable to interpret input"
  | tooDeep => "Recursion error - maximum validation depth exceeded"

end FaultKind

namespace Value

def readText : Value → Checked FaultKind String
  | .text value => .valid value
  | _ => .fault .notText

def trueWords : List String := ["1", "true", "t", "yes", "y", "on"]

def falseWords : List String := ["0", "false", "f", "no", "n", "off"]

def lowerCase (text : String) : String := String.ofList (text.toList.map Char.toLower)

/-- A truth value may also be given as zero or one, or by a word in any mixture of cases. Another
number is unclear if it is whole, and is otherwise of the wrong kind. -/
def readTruth : Value → Checked FaultKind Bool
  | .truth value => .valid value
  | .integer value =>
    if value = 1 then .valid true
    else if value = 0 then .valid false
    else .fault .unclearTruth
  | .float value =>
    if value = 1 then .valid true
    else if value = 0 then .valid false
    else .fault (if value.toRat.isInt then .unclearTruth else .notTruth)
  | .text value =>
    if trueWords.contains (lowerCase value) then .valid true
    else if falseWords.contains (lowerCase value) then .valid false
    else .fault .unclearTruth
  | _ => .fault .notTruth

def readExpression (value : Value) : Checked FaultKind Expression :=
  match Expression.ofValue value with
  | .ok e => .valid e
  | .error cause => .fault (.invalidExpression cause)

end Value

end Prefetch
