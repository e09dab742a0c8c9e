import Prefetch.Expression
import Prefetch.Proofs.KeyedLists

/-!
# Admitted paths

An expression admits a list of names if one can descend along it. An expression that selects
everything admits every list. Of any other expression exactly the roots can be entered, so the first
name of an admitted list is the name of a root.
-/

namespace Prefetch

namespace Expression

/-- Descending along the names never meets a relation that is not selected. -/
def Admits (e : Expression) (names : List String) : Prop := ∃ sub, e.descend names = some sub

@[simp] theorem admits_nil (e : Expression) : e.Admits [] := ⟨e, rfl⟩

theorem descend_cons_eq_some_iff {e sub : Expression} {name : String} {names : List String} :
    e.descend (name :: names) = some sub ↔
      ∃ next, e.step name = some next ∧ next.descend names = some sub := by
  simp only [descend, Option.bind_eq_some_iff]

theorem admits_cons_iff {e : Expression} {name : String} {names : List String} :
    e.Admits (name :: names) ↔ ∃ next, e.step name = some next ∧ next.Admits names := by
  constructor
  · rintro ⟨sub, hsub⟩
    obtain ⟨next, hstep, hnext⟩ := descend_cons_eq_some_iff.mp hsub
    exact ⟨next, hstep, sub, hnext⟩
  · rintro ⟨next, hstep, sub, hsub⟩
    exact ⟨sub, descend_cons_eq_some_iff.mpr ⟨next, hstep, hsub⟩⟩

theorem descend_append (e : Expression) (front rest : List String) :
    e.descend (front ++ rest) = (e.descend front).bind fun here => here.descend rest := by
  induction front generalizing e with
  | nil => rfl
  | cons name front ih =>
    simp only [List.cons_append, descend, Option.bind_assoc]
    exact Option.bind_congr fun next _ => ih next

theorem admits_append_iff {e : Expression} {front rest : List String} :
    e.Admits (front ++ rest) ↔ ∃ here, e.descend front = some here ∧ here.Admits rest := by
  simp only [Admits, descend_append, Option.bind_eq_some_iff]
  exact ⟨fun ⟨sub, here, hfront, hrest⟩ => ⟨here, hfront, sub, hrest⟩,
    fun ⟨here, hfront, sub, hrest⟩ => ⟨sub, here, hfront, hrest⟩⟩

theorem descend_of_selectsAll {e : Expression} (h : e.selectsAll = true) (names : List String) :
    e.descend names = some e := by
  induction names with
  | nil => rfl
  | cons name names ih => exact descend_cons_eq_some_iff.mpr ⟨e, step_of_selectsAll h name, ih⟩

theorem admits_of_selectsAll {e : Expression} (h : e.selectsAll = true) (names : List String) :
    e.Admits names :=
  ⟨e, descend_of_selectsAll h names⟩

theorem step_eq_some_iff {e sub : Expression} {name : String} (hall : e.selectsAll = false) :
    e.step name = some sub ↔
      ∃ node, e.root? name = some node ∧
        (if node.repeats then ⟨[node]⟩ else ⟨node.children⟩) = sub := by
  simp only [step, hall, Bool.false_eq_true, if_false, Option.map_eq_some_iff]

theorem exists_step_of_mem_rootNames {e : Expression} {name : String} (h : name ∈ e.rootNames) :
    ∃ sub, e.step name = some sub := by
  cases hall : e.selectsAll with
  | true => exact ⟨e, step_of_selectsAll hall name⟩
  | false =>
    obtain ⟨node, hmem, rfl⟩ := List.mem_map.mp h
    obtain ⟨first, hfirst⟩ := exists_find?_key Node.name hmem
    exact ⟨_, (step_eq_some_iff hall).mpr ⟨first, hfirst, rfl⟩⟩

theorem mem_rootNames_of_step {e sub : Expression} {name : String} (hall : e.selectsAll = false)
    (h : e.step name = some sub) : name ∈ e.rootNames := by
  obtain ⟨node, hroot, -⟩ := (step_eq_some_iff hall).mp h
  exact List.mem_map.mpr ⟨node, mem_of_root? hroot, name_of_root? hroot⟩

end Expression

end Prefetch
