import Prefetch.Proofs.FaultPositions

/-!
# Plans written out

A plan is written as a value with every field of every node. A reader that follows the rules gives
the plan back if and only if the nodes are not nested deeper than it admits, which is always so if
it sets no limit. It is an induction on the forest: a node takes one of the levels that are left,
and the nodes beside it find as many as it did.
-/

namespace Prefetch

variable {κ α β : Type}

namespace Checked

theorem map_valid (f : α → β) (a : α) : (valid a : Checked κ α).map f = valid (f a) := rfl

theorem ap_valid_valid (f : α → β) (a : α) :
    (valid f : Checked κ (α → β)).ap (valid a) = valid (f a) := rfl

theorem map_eq_valid_iff {f : α → β} {x : Checked κ α} {b : β} :
    x.map f = valid b ↔ ∃ a, x = valid a ∧ f a = b := by
  cases x with
  | valid a => simp [map]
  | faulty faults => simp [map]

theorem ap_eq_valid_iff {f : Checked κ (α → β)} {x : Checked κ α} {b : β} :
    f.ap x = valid b ↔ ∃ g a, f = valid g ∧ x = valid a ∧ g a = b := by
  cases f with
  | valid g =>
    cases x with
    | valid a => simp [ap]
    | faulty faults => simp [ap]
  | faulty faults =>
    cases x with
    | valid a => simp [ap]
    | faulty more => simp [ap]

theorem behind_eq_valid_iff {step : Step} {x : Checked κ α} {a : α} :
    x.behind step = valid a ↔ x = valid a := by
  cases x with
  | valid b => rfl
  | faulty faults => simp [behind]

theorem items_cons_eq_valid_iff {read : Value → Checked κ α} {index : Nat} {value : Value}
    {values : List Value} {a : α} {rest : List α} :
    items read index (value :: values) = valid (a :: rest) ↔
      read value = valid a ∧ items read (index + 1) values = valid rest := by
  rw [items]
  simp only [ap_eq_valid_iff, map_eq_valid_iff, behind_eq_valid_iff]
  constructor
  · intro h
    obtain ⟨_, rest', ⟨a', ha, rfl⟩, hrest, heq⟩ := h
    cases heq
    exact ⟨ha, hrest⟩
  · intro h
    exact ⟨_, rest, ⟨a, h.1, rfl⟩, h.2, rfl⟩

end Checked

open Checked

section Fields

variable {fields : Record} {key : String} {value : Value} {read : Value → Checked κ α} {a : α}

theorem Record.required_eq_valid_iff {missing : κ} (h : fields.get? key = some value) :
    fields.required missing key read = valid a ↔ read value = valid a := by
  rw [required, h]
  exact behind_eq_valid_iff

theorem Record.optional_eq_valid_iff {default : α} (h : fields.get? key = some value) :
    fields.optional key default read = valid a ↔ read value = valid a := by
  rw [optional, h]
  exact behind_eq_valid_iff

end Fields

mutual

def FetchNode.toValue : FetchNode → Value
  | ⟨relation, entity, recursive, children⟩ =>
    .record (.ofList [("relation", .text relation), ("entity", .text entity),
      ("recursive", .truth recursive), ("children", .list (FetchForest.toValues children))])

def FetchForest.toValues : List FetchNode → List Value
  | [] => []
  | node :: rest => node.toValue :: FetchForest.toValues rest

end

/-- The value of a plan, with all of its fields. -/
def FetchPlan.toValue (plan : FetchPlan) : Value :=
  .record (.ofList [("root_entity", .text plan.rootEntity), ("expression", .text plan.expression),
    ("nodes", .list (FetchForest.toValues plan.nodes))])

mutual

/-- The number of nodes on the longest way down a tree. -/
def FetchNode.height : FetchNode → Nat
  | ⟨_, _, _, children⟩ => FetchForest.height children + 1

def FetchForest.height : List FetchNode → Nat
  | [] => 0
  | node :: rest => max node.height (FetchForest.height rest)

end

namespace Reader.FollowsRules

variable {reader : Reader κ}

/-- All fields but the children are read as they were written. -/
theorem read_node_toValue_iff (h : reader.FollowsRules) {levels : Option Nat}
    (hlevels : levels ≠ some 0) (node : FetchNode) :
    reader.read (.node levels) node.toValue = valid node ↔
      Checked.items (reader.read (.node (levels.map Nat.pred))) 0
        (FetchForest.toValues node.children) = valid node.children := by
  obtain ⟨relation, entity, recursive, children⟩ := node
  rw [FetchNode.toValue, h.node _ _ hlevels, FetchNode.ofFields,
    (Record.required_eq_valid_iff rfl).mpr (h.text relation),
    (Record.required_eq_valid_iff rfl).mpr (h.text entity),
    (Record.optional_eq_valid_iff rfl).mpr (h.truth _ _ (.truth recursive)), ← h.nodes]
  simp only [map_valid, ap_valid_valid, ap_eq_valid_iff, valid.injEq, exists_and_left,
    exists_eq_left', FetchNode.mk.injEq, true_and, exists_eq_right]
  exact Record.optional_eq_valid_iff rfl

theorem read_plan_toValue_iff (h : reader.FollowsRules) {levels : Option Nat}
    (plan : FetchPlan) :
    reader.read (.plan levels) plan.toValue = valid plan ↔
      Checked.items (reader.read (.node levels)) 0
        (FetchForest.toValues plan.nodes) = valid plan.nodes := by
  obtain ⟨rootEntity, expression, nodes⟩ := plan
  rw [FetchPlan.toValue, h.plan, FetchPlan.ofFields,
    (Record.required_eq_valid_iff rfl).mpr (h.text rootEntity),
    (Record.optional_eq_valid_iff rfl).mpr (h.text expression), ← h.nodes]
  simp only [map_valid, ap_valid_valid, ap_eq_valid_iff, valid.injEq, exists_and_left,
    exists_eq_left', FetchPlan.mk.injEq, true_and, exists_eq_right]
  exact Record.optional_eq_valid_iff rfl

theorem items_toValues_iff (h : reader.FollowsRules) {levels : Option Nat} {index : Nat}
    {forest : List FetchNode} :
    Checked.items (reader.read (.node levels)) index (FetchForest.toValues forest) =
        valid forest ↔
      ∀ most ∈ levels, FetchForest.height forest ≤ most := by
  induction forest using FetchForest.inductionOn generalizing levels index with
  | nil => simp [FetchForest.toValues, FetchForest.height, Checked.items]
  | cons relation entity recursive children rest hchildren hrest =>
    rw [FetchForest.toValues, items_cons_eq_valid_iff, hrest, FetchForest.height,
      FetchNode.height]
    cases levels with
    | none =>
      rw [h.read_node_toValue_iff (Option.some_ne_none 0).symm, hchildren]
      simp
    | some most =>
      cases most with
      | zero =>
        have hrefused : ¬ (Expected.node (some 0)).Admits
            (FetchNode.toValue ⟨relation, entity, recursive, children⟩) := by
          intro hadmits
          cases hadmits with
          | node hne => exact hne rfl
        obtain ⟨kind, hkind⟩ := h.refuses _ _ hrefused
        simp [hkind, Checked.fault]
      | succ most =>
        rw [h.read_node_toValue_iff (by simp), hchildren]
        simp only [Option.map_some, Nat.pred_succ, Option.mem_some_iff, forall_eq']
        omega

end Reader.FollowsRules

namespace FetchPlan

/-- Reading a value as a plan succeeds if and only if there is no faulty place in it. It reports a
fault at every faulty place, once, and nowhere else, so a fault in a field or an item hides none
beside it. A plan is read back from its value if and only if no more of its nodes lie below one
another than are admitted, which are any number of them if there is no limit. -/
theorem reading_reports_faulty_places {κ : Type} {reader : Reader κ} (h : reader.FollowsRules)
    (levels : Option Nat) :
    (∀ value : Value,
      ((∃ plan, reader.read (.plan levels) value = .valid plan) ↔
        ∀ location, ¬ (ValuePlace.top levels value).FaultyAt location) ∧
      ((reader.read (.plan levels) value).faults.map (·.location)).Nodup ∧
      ∀ location, location ∈ (reader.read (.plan levels) value).faults.map (·.location) ↔
        (ValuePlace.top levels value).FaultyAt location) ∧
    ∀ plan : FetchPlan, reader.read (.plan levels) plan.toValue = .valid plan ↔
      ∀ most ∈ levels, FetchForest.height plan.nodes ≤ most := by
  constructor
  · intro value
    obtain ⟨hproper, hnodup, hmem⟩ := h.reports true (.plan levels) value
    refine ⟨?_, hnodup, hmem⟩
    constructor
    · intro hvalid location hfaulty
      obtain ⟨plan, hplan⟩ := hvalid
      have hlocation := (hmem location).mpr hfaulty
      rw [hplan] at hlocation
      cases hlocation
    · intro hnone
      apply hproper
      apply List.eq_nil_iff_forall_not_mem.mpr
      intro location hlocation
      exact hnone location ((hmem location).mp hlocation)
  · intro plan
    rw [h.read_plan_toValue_iff, h.items_toValues_iff]

/-- The first node lacks its entity and has an unclear flag, the second one is no record, and the
third one has a child that is none. No other place is faulty, and a plan of two levels is read
back. -/
theorem reading_reports_faulty_places_siblings :
    let value : Value := .record (.ofList [("root_entity", .text "person"), ("nodes", .list [
      .record (.ofList [("relation", .text "pets"), ("recursive", .integer 2)]), .integer 7,
      .record (.ofList [("relation", .text "children"), ("entity", .text "person"),
        ("recursive", .text "YES"), ("children", .list [.null])])])])
    let locations : List (List Step) := [[.field "nodes", .item 0, .field "entity"],
      [.field "nodes", .item 0, .field "recursive"], [.field "nodes", .item 1],
      [.field "nodes", .item 2, .field "children", .item 0]]
    let plan : FetchPlan := ⟨"person", "children.pets",
      [⟨"children", "person", false, [⟨"pets", "animal", true, []⟩]⟩]⟩
    Reader.standard.FollowsRules ∧
      (∀ location, (ValuePlace.top none value).FaultyAt location ↔ location ∈ locations) ∧
      (¬ ∃ plan, Reader.standard.read (.plan none) value = .valid plan) ∧
      Reader.standard.read (.plan none) plan.toValue = .valid plan := by
  intro value locations plan
  have hrules := Reader.standard_followsRules
  have hlocations : (Reader.standard.read (.plan none) value).faults.map (·.location) =
      locations := by decide
  obtain ⟨hreading, hback⟩ := reading_reports_faulty_places hrules none
  obtain ⟨hvalid, -, hmem⟩ := hreading value
  rw [hlocations] at hmem
  refine ⟨hrules, fun location => (hmem location).symm, ?_, (hback plan).mpr nofun⟩
  rw [hvalid]
  intro hnone
  exact hnone [.field "nodes", .item 1] ((hmem _).mp (by decide))

end FetchPlan

end Prefetch
