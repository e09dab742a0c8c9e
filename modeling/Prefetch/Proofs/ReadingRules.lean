import Prefetch.Proofs.ValuePlaces

/-!
# Rules of reading

What is proved of reading is proved of every reader that follows the rules given here. Whatever is
not admitted is one fault at the place itself. A list is read item by item, and a record by the
fields that are declared for it, in their order. No rule says more than what happens to a value and
to the values directly inside it. The standard reader follows the rules.
-/

namespace Prefetch

/-- The rules by which a reader takes each value apart. -/
structure Reader.FollowsRules {κ : Type} (reader : Reader κ) : Prop where
  refuses : ∀ expected value, ¬ expected.Admits value →
    ∃ kind, reader.read expected value = .fault kind
  text : ∀ word, reader.read .text (.text word) = .valid word
  truth : ∀ value b, value.MeansTruth b → reader.read .truth value = .valid b
  nodes : ∀ levels values, reader.read (.nodes levels) (.list values) =
    Checked.items (reader.read (.node levels)) 0 values
  node : ∀ levels fields, levels ≠ some 0 → reader.read (.node levels) (.record fields) =
    FetchNode.ofFields reader.missing (reader.read .text) (reader.read .truth) fields
      (fields.optional "children" [] (reader.read (.nodes (levels.map Nat.pred))))
  plan : ∀ levels fields, reader.read (.plan levels) (.record fields) =
    FetchPlan.ofFields reader.missing (reader.read .text) (reader.read (.nodes levels)) fields

theorem Value.readText_of_not_admits {value : Value} (h : ¬ Expected.text.Admits value) :
    ∃ kind, value.readText = .fault kind := by
  cases value with
  | text word => exact absurd (.text word) h
  | _ => exact ⟨_, rfl⟩

theorem Value.readTruth_of_meansTruth {value : Value} {b : Bool} (h : value.MeansTruth b) :
    value.readTruth = .valid b := by
  cases h with
  | truth => rfl
  | one => rfl
  | zero => rfl
  | floatOne => rfl
  | floatZero => rfl
  | trueWord h => rw [readTruth, List.contains_iff_mem.mpr h, if_pos rfl]
  | @falseWord word h =>
    have hnot : lowerCase word ∉ trueWords := by
      intro htrue
      simp only [trueWords, falseWords, List.mem_cons, List.not_mem_nil, or_false] at htrue h
      rcases h with h | h | h | h | h | h <;> simp [h] at htrue
    simp only [readTruth, List.contains_iff_mem, if_neg hnot, if_pos h]

theorem Value.readTruth_of_not_admits {value : Value} (h : ¬ Expected.truth.Admits value) :
    ∃ kind, value.readTruth = .fault kind := by
  have hnone : ∀ b, ¬ value.MeansTruth b := fun b hb => h (.truth hb)
  cases value with
  | truth b => exact absurd (.truth b) (hnone b)
  | integer n =>
    have hone : n ≠ 1 := by
      rintro rfl
      exact hnone true .one
    have hzero : n ≠ 0 := by
      rintro rfl
      exact hnone false .zero
    exact ⟨.unclearTruth, by rw [readTruth, if_neg hone, if_neg hzero]⟩
  | float x =>
    have hone : x ≠ 1 := by
      rintro rfl
      exact hnone true .floatOne
    have hzero : x ≠ 0 := by
      rintro rfl
      exact hnone false .floatZero
    exact ⟨_, by rw [readTruth, if_neg hone, if_neg hzero]⟩
  | text word =>
    have htrue : lowerCase word ∉ trueWords := fun h => hnone true (.trueWord h)
    have hfalse : lowerCase word ∉ falseWords := fun h => hnone false (.falseWord h)
    exact ⟨.unclearTruth, by
      simp only [readTruth, List.contains_iff_mem, if_neg htrue, if_neg hfalse]⟩
  | _ => exact ⟨.notTruth, rfl⟩

theorem FetchNode.ofValue_of_not_admits {levels : Option Nat} {value : Value}
    (h : ¬ (Expected.node levels).Admits value) : ∃ kind, ofValue levels value = .fault kind := by
  cases value with
  | record fields =>
    have hlevels : levels = some 0 := by
      by_contra hlevels
      exact h (.node hlevels fields)
    exact ⟨.tooDeep, by rw [ofValue, if_pos hlevels]⟩
  | _ => exact ⟨_, rfl⟩

theorem Reader.standard_refuses (expected : Expected) (value : Value)
    (h : ¬ expected.Admits value) : ∃ kind, standard.read expected value = .fault kind := by
  cases expected with
  | text => exact Value.readText_of_not_admits h
  | truth => exact Value.readTruth_of_not_admits h
  | nodes levels =>
    cases value with
    | list values => exact absurd (.nodes levels values) h
    | _ => exact ⟨.notList, rfl⟩
  | node levels => exact FetchNode.ofValue_of_not_admits h
  | plan levels =>
    cases value with
    | record fields => exact absurd (.plan levels fields) h
    | _ => exact ⟨.notRecord .plan, rfl⟩

theorem Reader.standard_followsRules : standard.FollowsRules where
  refuses := standard_refuses
  text := fun _ => rfl
  truth := fun _ _ => Value.readTruth_of_meansTruth
  nodes := fun levels values => FetchNode.itemsFrom_eq levels 0 values
  node := by
    intro levels fields hlevels
    calc FetchNode.ofValue levels (.record fields)
        = FetchNode.ofFields .missing Value.readText Value.readTruth fields
            (FetchNode.childrenOf (levels.map Nat.pred) fields) := if_neg hlevels
      _ = _ := by
        rw [FetchNode.childrenOf_eq]
        rfl
  plan := fun _ _ => rfl

end Prefetch
