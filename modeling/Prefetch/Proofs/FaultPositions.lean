import Prefetch.Proofs.ReadingRules

/-!
# Where faults are reported

Reading a value reports a fault at each faulty place and nowhere else, and at no place twice. Each
way of reading keeps this: a field is read behind its own name and an item behind its own index, so
the faults of different fields and items lie at different locations, and joining the readings of
them loses none. For a whole value it is an induction on its size, with one step for each rule that
the reader follows.
-/

namespace Prefetch

namespace Checked

variable {κ α β : Type}

def locations (x : Checked κ α) : List (List Step) := x.faults.map (·.location)

@[simp] theorem locations_valid (a : α) : (valid a : Checked κ α).locations = [] := rfl

@[simp] theorem locations_fault (kind : κ) : (fault kind : Checked κ α).locations = [[]] := rfl

@[simp] theorem locations_map (f : α → β) (x : Checked κ α) :
    (x.map f).locations = x.locations := by
  rw [locations, faults_map, locations]

@[simp] theorem locations_ap (f : Checked κ (α → β)) (x : Checked κ α) :
    (f.ap x).locations = f.locations ++ x.locations := by
  rw [locations, faults_ap, List.map_append, locations, locations]

@[simp] theorem locations_behind (step : Step) (x : Checked κ α) :
    (x.behind step).locations = x.locations.map (step :: ·) := by
  cases x with
  | valid a => rfl
  | faulty faults => simp [locations, behind, Checked.faults]

def IsProper (x : Checked κ α) : Prop := x.locations = [] → ∃ a, x = valid a

theorem IsProper.map {x : Checked κ α} (h : x.IsProper) (f : α → β) : (x.map f).IsProper := by
  intro hnone
  rw [locations_map] at hnone
  obtain ⟨a, rfl⟩ := h hnone
  exact ⟨f a, rfl⟩

theorem IsProper.ap {f : Checked κ (α → β)} {x : Checked κ α} (hf : f.IsProper)
    (hx : x.IsProper) : (f.ap x).IsProper := by
  intro hnone
  rw [locations_ap, List.append_eq_nil_iff] at hnone
  obtain ⟨g, rfl⟩ := hf hnone.1
  obtain ⟨a, rfl⟩ := hx hnone.2
  exact ⟨g a, rfl⟩

theorem IsProper.behind {x : Checked κ α} (h : x.IsProper) (step : Step) :
    (x.behind step).IsProper := by
  intro hnone
  rw [locations_behind, List.map_eq_nil_iff] at hnone
  obtain ⟨a, rfl⟩ := h hnone
  exact ⟨a, rfl⟩

/-- The reading reports a fault at each faulty location below the place, once, and no other. -/
structure Reports (x : Checked κ α) (place : ValuePlace) : Prop where
  proper : x.IsProper
  nodup : x.locations.Nodup
  mem_iff : ∀ location, location ∈ x.locations ↔ place.FaultyAt location

theorem reports_fault {place : ValuePlace} (hend : place.IsEnd) (h : place.Faulty) (kind : κ) :
    (fault kind : Checked κ α).Reports place where
  proper := by
    intro hnone
    cases hnone
  nodup := List.nodup_singleton _
  mem_iff := by
    intro location
    cases location with
    | nil => simpa using h
    | cons step location => simpa using place.not_faultyAt_cons hend step location

theorem reports_valid {place : ValuePlace} (hend : place.IsEnd) (h : ¬ place.Faulty) (a : α) :
    (valid a : Checked κ α).Reports place where
  proper := fun _ => ⟨a, rfl⟩
  nodup := List.nodup_nil
  mem_iff := by
    intro location
    cases location with
    | nil => simpa using h
    | cons step location => simpa using place.not_faultyAt_cons hend step location

end Checked

open Checked

variable {κ α β : Type}

/-- The reading reports the faults below the given fields of a record, each of them once. -/
structure ReportsFields (x : Checked κ α) (fields : Record) (rules : List FieldRule) : Prop where
  proper : x.IsProper
  nodup : x.locations.Nodup
  mem_iff : ∀ location, location ∈ x.locations ↔
    ∃ rule ∈ rules, ∃ rest, location = .field rule.key :: rest ∧
      (rule.place fields).FaultyAt rest

section Fields

variable {fields : Record}

theorem reportsFields_behind (rule : FieldRule) {x : Checked κ α}
    (h : x.Reports (rule.place fields)) :
    ReportsFields (x.behind (.field rule.key)) fields [rule] where
  proper := h.proper.behind _
  nodup := by
    rw [locations_behind]
    exact h.nodup.map (List.cons_injective)
  mem_iff := by
    intro location
    simp only [locations_behind, List.mem_map, h.mem_iff, List.mem_singleton, exists_eq_left]
    constructor
    · intro hmem
      obtain ⟨rest, hrest, rfl⟩ := hmem
      exact ⟨rest, rfl, hrest⟩
    · intro hmem
      obtain ⟨rest, rfl, hrest⟩ := hmem
      exact ⟨rest, hrest, rfl⟩

theorem reportsFields_required {missing : κ} {key : String} {expected : Expected}
    {read : Value → Checked κ α}
    (h : ∀ value, fields.get? key = some value →
      (read value).Reports ⟨true, expected, some value⟩) :
    ReportsFields (fields.required missing key read) fields [⟨key, true, expected⟩] := by
  rw [Record.required]
  cases hget : fields.get? key with
  | some value =>
    apply reportsFields_behind ⟨key, true, expected⟩
    rw [FieldRule.place, hget]
    exact h value hget
  | none =>
    apply reportsFields_behind ⟨key, true, expected⟩
    rw [FieldRule.place, hget]
    exact reports_fault (ValuePlace.isEnd_of_none true expected) (.missing expected) missing

theorem reportsFields_optional {key : String} {expected : Expected} {read : Value → Checked κ α}
    (h : ∀ value, fields.get? key = some value →
      (read value).Reports ⟨false, expected, some value⟩) (default : α) :
    ReportsFields (fields.optional key default read) fields [⟨key, false, expected⟩] := by
  rw [Record.optional]
  cases hget : fields.get? key with
  | some value =>
    apply reportsFields_behind ⟨key, false, expected⟩
    rw [FieldRule.place, hget]
    exact h value hget
  | none =>
    have hdefault : (Checked.valid default : Checked κ α).Reports ⟨false, expected, none⟩ := by
      refine reports_valid (ValuePlace.isEnd_of_none false expected) ?_ default
      intro hfaulty
      cases hfaulty
    have hfield : (FieldRule.place ⟨key, false, expected⟩ fields) = ⟨false, expected, none⟩ := by
      rw [FieldRule.place, hget]
    exact reportsFields_behind ⟨key, false, expected⟩ (hfield ▸ hdefault)

theorem ReportsFields.map {x : Checked κ α} {rules : List FieldRule}
    (h : ReportsFields x fields rules) (f : α → β) : ReportsFields (x.map f) fields rules where
  proper := h.proper.map f
  nodup := by
    rw [locations_map]
    exact h.nodup
  mem_iff := by
    intro location
    rw [locations_map]
    exact h.mem_iff location

theorem ReportsFields.ap {f : Checked κ (α → β)} {x : Checked κ α} {rules more : List FieldRule}
    (hf : ReportsFields f fields rules) (hx : ReportsFields x fields more)
    (hkeys : ∀ rule ∈ rules, ∀ other ∈ more, rule.key ≠ other.key) :
    ReportsFields (f.ap x) fields (rules ++ more) where
  proper := hf.proper.ap hx.proper
  nodup := by
    rw [locations_ap]
    refine List.nodup_append'.mpr ⟨hf.nodup, hx.nodup, ?_⟩
    intro location hleft hright
    obtain ⟨rule, hrule, rest, rfl, -⟩ := (hf.mem_iff location).mp hleft
    obtain ⟨other, hother, rest', heq, -⟩ := (hx.mem_iff _).mp hright
    exact hkeys rule hrule other hother (by simpa using (List.cons.inj heq).1)
  mem_iff := by
    intro location
    rw [locations_ap, List.mem_append, hf.mem_iff, hx.mem_iff]
    simp only [List.mem_append, or_and_right, exists_or]

/-- A record is read by reading the fields that are expected in it. -/
theorem reports_of_fields {x : Checked κ α} {place : ValuePlace}
    (hfields : place.fields? = some fields) (h : ReportsFields x fields place.expected.fields) :
    x.Reports place where
  proper := h.proper
  nodup := h.nodup
  mem_iff := by
    intro location
    rw [h.mem_iff]
    cases location with
    | nil => simpa using (ValuePlace.items_eq_nil_of_fields? hfields).2
    | cons step location =>
      simp only [ValuePlace.faultyAt_cons, ValuePlace.next?_record_eq_some_iff hfields,
        List.cons.injEq]
      constructor
      · intro hrule
        obtain ⟨rule, hmem, rest, ⟨hstep, rfl⟩, hrest⟩ := hrule
        exact ⟨rule.place fields, ⟨rule, hmem, hstep, rfl⟩, hrest⟩
      · intro hnext
        obtain ⟨next, ⟨rule, hmem, hstep, rfl⟩, hrest⟩ := hnext
        exact ⟨rule, hmem, location, ⟨hstep, rfl⟩, hrest⟩

end Fields

structure ReportsItems (x : Checked κ α) (levels : Option Nat) (index : Nat)
    (values : List Value) : Prop where
  proper : x.IsProper
  nodup : x.locations.Nodup
  mem_iff : ∀ location, location ∈ x.locations ↔
    ∃ i value rest, values[i]? = some value ∧ location = .item (index + i) :: rest ∧
      (ValuePlace.item levels value).FaultyAt rest

section Items

variable {levels : Option Nat}

theorem reportsItems_nil (a : α) (levels : Option Nat) (index : Nat) :
    ReportsItems (Checked.valid a : Checked κ α) levels index [] where
  proper := fun _ => ⟨a, rfl⟩
  nodup := List.nodup_nil
  mem_iff := by
    intro location
    simp

theorem ReportsItems.cons {index : Nat} {value : Value} {values : List Value}
    {x : Checked κ α} {xs : Checked κ (List α)} (hx : x.Reports (ValuePlace.item levels value))
    (hxs : ReportsItems xs levels (index + 1) values) :
    ReportsItems (((x.behind (.item index)).map List.cons).ap xs) levels index
      (value :: values) where
  proper := ((hx.proper.behind _).map _).ap hxs.proper
  nodup := by
    rw [locations_ap, locations_map, locations_behind]
    refine List.nodup_append'.mpr ⟨hx.nodup.map List.cons_injective, hxs.nodup, ?_⟩
    intro location hleft hright
    obtain ⟨rest, -, rfl⟩ := List.mem_map.mp hleft
    obtain ⟨i, value', rest', -, heq, -⟩ := (hxs.mem_iff _).mp hright
    have hindex : index = index + 1 + i := by simpa using (List.cons.inj heq).1
    omega
  mem_iff := by
    intro location
    rw [locations_ap, locations_map, locations_behind, List.mem_append, List.mem_map, hxs.mem_iff]
    constructor
    · intro hlocation
      rcases hlocation with ⟨rest, hrest, rfl⟩ | ⟨i, other, rest, hother, rfl, hrest⟩
      · exact ⟨0, value, rest, rfl, rfl, (hx.mem_iff rest).mp hrest⟩
      · refine ⟨i + 1, other, rest, hother, ?_, hrest⟩
        rw [Nat.add_right_comm, Nat.add_assoc]
    · intro hlocation
      obtain ⟨i, other, rest, hother, rfl, hrest⟩ := hlocation
      cases i with
      | zero =>
        cases hother
        exact .inl ⟨rest, (hx.mem_iff rest).mpr hrest, rfl⟩
      | succ i =>
        refine .inr ⟨i, other, rest, hother, ?_, hrest⟩
        rw [Nat.add_right_comm, Nat.add_assoc]

theorem reportsItems_items {read : Value → Checked κ α} (index : Nat) {values : List Value}
    (h : ∀ value ∈ values, (read value).Reports (ValuePlace.item levels value)) :
    ReportsItems (Checked.items read index values) levels index values := by
  induction values generalizing index with
  | nil => exact reportsItems_nil [] levels index
  | cons value values ih =>
    obtain ⟨hvalue, hvalues⟩ := List.forall_mem_cons.mp h
    exact (ih (index + 1) hvalues).cons hvalue

/-- A list of nodes is read item by item. -/
theorem reports_of_items {required : Bool} {values : List Value} {x : Checked κ α}
    (h : ReportsItems x levels 0 values) :
    x.Reports ⟨required, .nodes levels, some (.list values)⟩ where
  proper := h.proper
  nodup := h.nodup
  mem_iff := by
    intro location
    rw [h.mem_iff]
    cases location with
    | nil => simpa using ValuePlace.not_faulty_of_admits (.nodes levels values)
    | cons step location =>
      simp only [ValuePlace.faultyAt_cons, ValuePlace.next?_list_eq_some_iff, List.cons.injEq,
        Nat.zero_add]
      constructor
      · intro hitem
        obtain ⟨i, item, rest, hitem, ⟨hstep, rfl⟩, hrest⟩ := hitem
        exact ⟨_, ⟨i, item, hitem, hstep, rfl⟩, hrest⟩
      · intro hnext
        obtain ⟨next, ⟨i, item, hitem, hstep, rfl⟩, hrest⟩ := hnext
        exact ⟨i, item, location, hitem, ⟨hstep, rfl⟩, hrest⟩

end Items

theorem Record.sizeOf_lt_of_get? {fields : Record} {key : String} {value : Value}
    (h : fields.get? key = some value) : sizeOf value < sizeOf fields := by
  match fields with
  | .empty => cases h
  | .field k found rest =>
    rw [get?] at h
    rw [Record.field.sizeOf_spec]
    split at h
    case isTrue =>
      cases h
      omega
    case isFalse =>
      have hrest := sizeOf_lt_of_get? h
      omega

namespace Reader.FollowsRules

variable {reader : Reader κ} {required : Bool} {levels : Option Nat} {fields : Record}

theorem reports_refused (h : reader.FollowsRules) {expected : Expected} {value : Value}
    (hadmits : ¬ expected.Admits value) :
    (reader.read expected value).Reports ⟨required, expected, some value⟩ := by
  obtain ⟨kind, hkind⟩ := h.refuses expected value hadmits
  rw [hkind]
  exact reports_fault (ValuePlace.isEnd_of_not_admits hadmits) (.wrong hadmits) kind

theorem reports_text (h : reader.FollowsRules) (value : Value) :
    (reader.read .text value).Reports ⟨required, .text, some value⟩ := by
  by_cases hadmits : Expected.text.Admits value
  · cases hadmits with
    | text word =>
      rw [h.text]
      exact reports_valid (ValuePlace.isEnd_of_fields_items rfl rfl)
        (ValuePlace.not_faulty_of_admits (.text word)) word
  · exact h.reports_refused hadmits

theorem reports_truth (h : reader.FollowsRules) (value : Value) :
    (reader.read .truth value).Reports ⟨required, .truth, some value⟩ := by
  by_cases hadmits : Expected.truth.Admits value
  · cases hadmits with
    | @truth _ b hb =>
      rw [h.truth _ b hb]
      exact reports_valid (ValuePlace.isEnd_of_fields_items rfl rfl)
        (ValuePlace.not_faulty_of_admits (.truth hb)) b
  · exact h.reports_refused hadmits

theorem reports_node (h : reader.FollowsRules) (hlevels : levels ≠ some 0)
    (hchildren : ∀ value, fields.get? "children" = some value →
      (reader.read (.nodes (levels.map Nat.pred)) value).Reports
        ⟨false, .nodes (levels.map Nat.pred), some value⟩) :
    (reader.read (.node levels) (.record fields)).Reports
      ⟨required, .node levels, some (.record fields)⟩ := by
  have hfields : (⟨required, .node levels, some (.record fields)⟩ : ValuePlace).fields? =
      some fields := if_neg hlevels
  have hrelation : ReportsFields
      (fields.required reader.missing "relation" (reader.read .text)) fields
      [⟨"relation", true, .text⟩] := reportsFields_required fun value _ => h.reports_text value
  have hentity : ReportsFields
      (fields.required reader.missing "entity" (reader.read .text)) fields
      [⟨"entity", true, .text⟩] := reportsFields_required fun value _ => h.reports_text value
  have hrecursive : ReportsFields (fields.optional "recursive" false (reader.read .truth)) fields
      [⟨"recursive", false, .truth⟩] :=
    reportsFields_optional (fun value _ => h.reports_truth value) false
  have hnodes := reportsFields_optional hchildren []
  rw [h.node levels fields hlevels]
  exact reports_of_fields hfields
    ((((hrelation.map FetchNode.mk).ap hentity (by simp)).ap hrecursive (by simp)).ap hnodes
      (by simp))

theorem reports_plan (h : reader.FollowsRules)
    (hnodes : ∀ value, fields.get? "nodes" = some value →
      (reader.read (.nodes levels) value).Reports ⟨false, .nodes levels, some value⟩) :
    (reader.read (.plan levels) (.record fields)).Reports
      ⟨required, .plan levels, some (.record fields)⟩ := by
  have hfields : (⟨required, .plan levels, some (.record fields)⟩ : ValuePlace).fields? =
      some fields := rfl
  have hroot : ReportsFields
      (fields.required reader.missing "root_entity" (reader.read .text)) fields
      [⟨"root_entity", true, .text⟩] := reportsFields_required fun value _ => h.reports_text value
  have hexpression : ReportsFields (fields.optional "expression" "" (reader.read .text)) fields
      [⟨"expression", false, .text⟩] :=
    reportsFields_optional (fun value _ => h.reports_text value) ""
  have hnodes := reportsFields_optional hnodes []
  rw [h.plan levels fields]
  exact reports_of_fields hfields
    (((hroot.map FetchPlan.mk).ap hexpression (by simp)).ap hnodes (by simp))

/-- Reading reports a fault at every faulty place, once, and nowhere else, whatever is expected. -/
theorem reports (h : reader.FollowsRules) (required : Bool) (expected : Expected)
    (value : Value) : (reader.read expected value).Reports ⟨required, expected, some value⟩ := by
  by_cases hadmits : expected.Admits value
  · cases hadmits with
    | text word => exact h.reports_text (.text word)
    | truth => exact h.reports_truth value
    | nodes levels values =>
      rw [h.nodes]
      apply reports_of_items
      apply reportsItems_items
      intro item hitem
      exact h.reports true (.node levels) item
    | node hlevels fields =>
      apply h.reports_node hlevels
      intro children hchildren
      have hsize := Record.sizeOf_lt_of_get? hchildren
      exact h.reports false _ children
    | plan levels fields =>
      apply h.reports_plan
      intro nodes hnodes
      have hsize := Record.sizeOf_lt_of_get? hnodes
      exact h.reports false _ nodes
  · exact h.reports_refused hadmits
termination_by sizeOf value
decreasing_by
  · have hsize := List.sizeOf_lt_of_mem hitem
    simp only [Value.list.sizeOf_spec]
    omega
  · simp only [Value.record.sizeOf_spec]
    omega
  · simp only [Value.record.sizeOf_spec]
    omega

end Reader.FollowsRules

end Prefetch
