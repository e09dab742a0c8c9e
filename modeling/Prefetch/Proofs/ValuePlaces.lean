import Prefetch.PlanReader
import Prefetch.Proofs.KeyedLists

/-!
# Places in a value

What a plan has to look like is said here without reading one. At the top a plan is expected, and
what is expected at a place decides which fields and items are places in turn. A step leads on only
from a value of the right kind, so a place is behind a list of steps if all values on the way are of
the right kind. At a place stands a value or nothing, and the place is faulty if nothing stands
there but is required, or if what stands there is not admitted.
-/

namespace Prefetch

/-- A field of a record, whether it has to be there, and what is expected in it. -/
structure FieldRule where
  key : String
  required : Bool
  expected : Expected

/-- The fields of the record that is expected. Fields of any other name do not count. The children
of a node have one level less. -/
def Expected.fields : Expected → List FieldRule
  | node levels =>
    [⟨"relation", true, text⟩, ⟨"entity", true, text⟩, ⟨"recursive", false, truth⟩,
      ⟨"children", false, nodes (levels.map Nat.pred)⟩]
  | plan levels =>
    [⟨"root_entity", true, text⟩, ⟨"expression", false, text⟩, ⟨"nodes", false, nodes levels⟩]
  | _ => []

/-- The value can be taken for the truth value. -/
inductive Value.MeansTruth : Value → Bool → Prop where
  | truth (b : Bool) : MeansTruth (.truth b) b
  | one : MeansTruth (.integer 1) true
  | zero : MeansTruth (.integer 0) false
  | floatOne : MeansTruth (.float 1) true
  | floatZero : MeansTruth (.float 0) false
  | trueWord {word : String} (h : lowerCase word ∈ trueWords) : MeansTruth (.text word) true
  | falseWord {word : String} (h : lowerCase word ∈ falseWords) : MeansTruth (.text word) false

/-- The value is of the kind that is expected. No node is admitted when no level is left. -/
inductive Expected.Admits : Expected → Value → Prop where
  | text (word : String) : Admits .text (.text word)
  | truth {value : Value} {b : Bool} (h : value.MeansTruth b) : Admits .truth value
  | nodes (levels : Option Nat) (values : List Value) : Admits (.nodes levels) (.list values)
  | node {levels : Option Nat} (h : levels ≠ some 0) (fields : Record) :
    Admits (.node levels) (.record fields)
  | plan (levels : Option Nat) (fields : Record) : Admits (.plan levels) (.record fields)

/-- A place, with what is expected there and what is found. -/
structure ValuePlace where
  required : Bool
  expected : Expected
  found : Option Value

namespace ValuePlace

def top (levels : Option Nat) (value : Value) : ValuePlace := ⟨true, .plan levels, some value⟩

def item (levels : Option Nat) (value : Value) : ValuePlace := ⟨true, .node levels, some value⟩

def fields? : ValuePlace → Option Record
  | ⟨_, .plan _, some (.record fields)⟩ => some fields
  | ⟨_, .node levels, some (.record fields)⟩ => if levels = some 0 then none else some fields
  | _ => none

def items : ValuePlace → List ValuePlace
  | ⟨_, .nodes levels, some (.list values)⟩ => values.map (item levels)
  | _ => []

end ValuePlace

def FieldRule.place (rule : FieldRule) (fields : Record) : ValuePlace :=
  ⟨rule.required, rule.expected, fields.get? rule.key⟩

namespace ValuePlace

def next? (place : ValuePlace) : Step → Option ValuePlace
  | .field key =>
    place.fields?.bind fun fields =>
      (place.expected.fields.find? (·.key == key)).map fun rule => rule.place fields
  | .item index => place.items[index]?

/-- The place to which the steps of a location lead. -/
def at? (place : ValuePlace) : List Step → Option ValuePlace
  | [] => some place
  | step :: location => (place.next? step).bind fun next => next.at? location

/-- Something is required at the place but missing, or it is not admitted. -/
inductive Faulty : ValuePlace → Prop where
  | missing (expected : Expected) : Faulty ⟨true, expected, none⟩
  | wrong {required : Bool} {expected : Expected} {value : Value} (h : ¬ expected.Admits value) :
    Faulty ⟨required, expected, some value⟩

/-- A location leads from the place to a faulty one. -/
def FaultyAt (place : ValuePlace) (location : List Step) : Prop :=
  ∃ there, place.at? location = some there ∧ there.Faulty

@[simp] theorem faultyAt_nil {place : ValuePlace} : place.FaultyAt [] ↔ place.Faulty := by
  simp [FaultyAt, at?]

theorem faultyAt_cons {place : ValuePlace} {step : Step} {location : List Step} :
    place.FaultyAt (step :: location) ↔
      ∃ next, place.next? step = some next ∧ next.FaultyAt location := by
  simp only [FaultyAt, at?, Option.bind_eq_some_iff]
  constructor
  · intro h
    obtain ⟨there, ⟨next, hnext, hthere⟩, hfaulty⟩ := h
    exact ⟨next, hnext, there, hthere, hfaulty⟩
  · intro h
    obtain ⟨next, hnext, there, hthere, hfaulty⟩ := h
    exact ⟨there, ⟨next, hnext, hthere⟩, hfaulty⟩

theorem not_faulty_of_admits {required : Bool} {expected : Expected} {value : Value}
    (h : expected.Admits value) : ¬ Faulty ⟨required, expected, some value⟩ := by
  intro hfaulty
  cases hfaulty with
  | wrong hnot => exact hnot h

theorem nodup_keys (expected : Expected) : (expected.fields.map (·.key)).Nodup := by
  cases expected <;> simp [Expected.fields]

section Fields

variable {place : ValuePlace} {fields : Record}

/-- Where there are fields to read, there is no list of nodes, and the record is admitted. -/
theorem items_eq_nil_of_fields? (h : place.fields? = some fields) :
    place.items = [] ∧ ¬ place.Faulty := by
  unfold fields? at h
  split at h
  case h_1 => exact ⟨rfl, not_faulty_of_admits (.plan _ _)⟩
  case h_2 =>
    split at h
    case isTrue => cases h
    case isFalse hlevels => exact ⟨rfl, not_faulty_of_admits (.node hlevels _)⟩
  case h_3 => cases h

theorem next?_record_eq_some_iff (h : place.fields? = some fields) {step : Step}
    {next : ValuePlace} :
    place.next? step = some next ↔
      ∃ rule ∈ place.expected.fields, step = .field rule.key ∧ next = rule.place fields := by
  obtain ⟨hitems, -⟩ := items_eq_nil_of_fields? h
  cases step with
  | item index => simp [next?, hitems]
  | field key =>
    simp only [next?, h, Option.bind_some, Option.map_eq_some_iff,
      find?_key_eq_some_iff (nodup_keys place.expected), Step.field.injEq]
    constructor
    · intro hrule
      obtain ⟨rule, ⟨hmem, hkey⟩, hnext⟩ := hrule
      exact ⟨rule, hmem, hkey.symm, hnext.symm⟩
    · intro hrule
      obtain ⟨rule, hmem, hkey, hnext⟩ := hrule
      exact ⟨rule, ⟨hmem, hkey.symm⟩, hnext.symm⟩

end Fields

theorem next?_list_eq_some_iff {required : Bool} {levels : Option Nat} {values : List Value}
    {step : Step} {next : ValuePlace} :
    (⟨required, .nodes levels, some (.list values)⟩ : ValuePlace).next? step = some next ↔
      ∃ index value, values[index]? = some value ∧ step = .item index ∧
        next = item levels value := by
  cases step with
  | field key => simp [next?, fields?]
  | item index =>
    simp only [next?, items, List.getElem?_map, Option.map_eq_some_iff, Step.item.injEq]
    constructor
    · intro hvalue
      obtain ⟨value, hvalue, hnext⟩ := hvalue
      exact ⟨index, value, hvalue, rfl, hnext.symm⟩
    · intro hvalue
      obtain ⟨index', value, hvalue, rfl, hnext⟩ := hvalue
      exact ⟨value, hvalue, hnext.symm⟩

def IsEnd (place : ValuePlace) : Prop := ∀ step, place.next? step = none

theorem isEnd_of_fields_items {place : ValuePlace} (hfields : place.fields? = none)
    (hitems : place.items = []) : place.IsEnd := by
  intro step
  cases step with
  | field key => simp [next?, hfields]
  | item index => simp [next?, hitems]

theorem isEnd_of_none (required : Bool) (expected : Expected) :
    (⟨required, expected, none⟩ : ValuePlace).IsEnd := by
  apply isEnd_of_fields_items
  · cases expected <;> rfl
  · cases expected <;> rfl

theorem isEnd_of_not_admits {required : Bool} {expected : Expected} {value : Value}
    (h : ¬ expected.Admits value) : (⟨required, expected, some value⟩ : ValuePlace).IsEnd := by
  apply isEnd_of_fields_items
  · cases hfields : (⟨required, expected, some value⟩ : ValuePlace).fields? with
    | none => rfl
    | some fields => exact absurd (.wrong h) (items_eq_nil_of_fields? hfields).2
  · cases expected with
    | nodes levels =>
      cases value with
      | list values => exact absurd (.nodes levels values) h
      | _ => rfl
    | _ => rfl

theorem not_faultyAt_cons {place : ValuePlace} (h : place.IsEnd) (step : Step)
    (location : List Step) : ¬ place.FaultyAt (step :: location) := by
  rw [faultyAt_cons, h step]
  simp

end ValuePlace

end Prefetch
