import Prefetch.EntityCatalog
import Prefetch.Proofs.FallibleRuns
import Prefetch.Proofs.KeyedLists

/-!
# Walks of a catalog

A walk follows relations of the catalog by name, from an entity to the entity on which the last
relation ends. A catalog is filled by declarations one after the other, and a relation is refused
if its name already leaves its source. So in the catalog of a schema no two relations that leave
one entity share a name, and a start and a list of names determine where a walk ends. The relations
that leave an entity are those that the schema declares for it, in the order of declaration.
-/

namespace Prefetch

namespace Catalog

/-- Following the named relations one after the other leads from one entity to the other. -/
inductive Walk (catalog : Catalog) : String → List String → String → Prop where
  | stay {entity} : Walk catalog entity [] entity
  | step {entity relations relation names last}
      (hfrom : catalog.relationsFrom entity = .ok relations) (hmem : relation ∈ relations)
      (tail : Walk catalog relation.target names last) :
      Walk catalog entity (relation.name :: names) last

theorem relationsFrom_eq_ok_iff {catalog : Catalog} {entity : String} {relations : List Relation} :
    catalog.relationsFrom entity = .ok relations ↔
      catalog.outgoing.get? entity = some relations := by
  rw [relationsFrom]
  cases catalog.outgoing.get? entity with
  | none => simp
  | some found => simp

theorem relation_eq_error_iff {catalog : Catalog} {entity name : String} {e : LookupError} :
    catalog.relation entity name = .error e ↔
      catalog.relationsFrom entity = .error e ∨
      ∃ relations, catalog.relationsFrom entity = .ok relations ∧
        (∀ relation ∈ relations, relation.name ≠ name) ∧ e = .unknownRelation name entity := by
  rw [relation, bind_eq_error_iff]
  apply or_congr_right
  apply exists_congr
  intro relations
  apply and_congr_right
  intro _
  cases hfind : relations.find? (·.name == name) with
  | none =>
    have hnone : ∀ relation ∈ relations, relation.name ≠ name := by simpa using hfind
    rw [and_iff_right hnone, Except.error.injEq, eq_comm]
  | some found =>
    have hname : found.name = name := by simpa using List.find?_some hfind
    simpa using fun hnone => absurd hname (hnone found (List.mem_of_find?_eq_some hfind))

theorem addEntity_eq_ok_iff {catalog catalog' : Catalog} {entity : Entity} :
    catalog.addEntity entity = .ok catalog' ↔
      catalog.entities.contains entity.name = false ∧
        catalog' = ⟨catalog.entities.insert entity.name entity,
          catalog.outgoing.insert entity.name []⟩ := by
  rw [addEntity]
  cases catalog.entities.contains entity.name with
  | true => simp
  | false => simp [eq_comm]

theorem addRelation_eq_ok_iff {catalog catalog' : Catalog} {relation : Relation} :
    catalog.addRelation relation = .ok catalog' ↔
      (catalog.entities.contains relation.source = true ∧
        catalog.entities.contains relation.target = true) ∧
      ((catalog.outgoing.get? relation.source).getD []).any (·.name == relation.name) = false ∧
      catalog' = { catalog with outgoing := catalog.outgoing.file relation.source relation } := by
  rw [addRelation, ← Bool.and_eq_true]
  cases catalog.entities.contains relation.source && catalog.entities.contains relation.target with
  | false => simp
  | true =>
    cases ((catalog.outgoing.get? relation.source).getD []).any (·.name == relation.name) with
    | true => simp
    | false => simp [eq_comm]

/-- What the empty catalog satisfies and every declaration keeps holds of the catalog of every
schema. -/
theorem of_schema {motive : Catalog → Prop} (hempty : motive empty)
    (hentity : ∀ c entity c', motive c → addEntity c entity = .ok c' → motive c')
    (hrelation : ∀ c relation c', motive c → addRelation c relation = .ok c' → motive c')
    {schema : Schema} {catalog : Catalog} (h : schema.catalog = .ok catalog) : motive catalog := by
  simp only [Schema.catalog, bind_eq_ok_iff] at h
  obtain ⟨declared, hentities, hrelations⟩ := h
  have hdeclared : motive declared := foldlM_invariant hentity hentities hempty
  exact foldlM_invariant hrelation hrelations hdeclared

theorem outgoing_addRelation {catalog catalog' : Catalog} {relation : Relation}
    (h : catalog.addRelation relation = .ok catalog') (entity : String) :
    (catalog'.outgoing.get? entity).getD [] =
      (catalog.outgoing.get? entity).getD [] ++ [relation].filter (·.source == entity) := by
  obtain ⟨-, -, rfl⟩ := addRelation_eq_ok_iff.mp h
  rw [Index.get?_file]
  by_cases hentity : entity = relation.source
  · simp [hentity]
  · simp [hentity, Ne.symm hentity]

theorem outgoing_foldlM_addRelation {relations : List Relation} {catalog catalog' : Catalog}
    (h : relations.foldlM addRelation catalog = .ok catalog') (entity : String) :
    (catalog'.outgoing.get? entity).getD [] =
      (catalog.outgoing.get? entity).getD [] ++ relations.filter (·.source == entity) := by
  induction relations generalizing catalog with
  | nil =>
    cases h
    simp
  | cons relation rest ih =>
    rw [List.foldlM_cons, bind_eq_ok_iff] at h
    obtain ⟨next, hnext, hrest⟩ := h
    rw [ih hrest, outgoing_addRelation hnext, List.append_assoc, ← List.filter_append]
    rfl

theorem outgoing_foldlM_addEntity {entities : List Entity} {declared : Catalog}
    (h : entities.foldlM addEntity empty = .ok declared) (name : String) :
    (declared.outgoing.get? name).getD [] = [] := by
  refine foldlM_invariant (motive := fun c => (c.outgoing.get? name).getD [] = []) ?_ h rfl
  intro c entity c' hc hadd
  obtain ⟨-, rfl⟩ := addEntity_eq_ok_iff.mp hadd
  rw [Index.get?_insert]
  split
  case isTrue => rfl
  case isFalse => exact hc

/-- The relations that leave an entity are the declared ones, in the order of declaration. -/
theorem relationsFrom_of_schema {schema : Schema} {catalog : Catalog}
    (h : schema.catalog = .ok catalog) {entity : String} {relations : List Relation}
    (hfrom : catalog.relationsFrom entity = .ok relations) :
    relations = schema.relations.filter (·.source == entity) := by
  simp only [Schema.catalog, bind_eq_ok_iff] at h
  obtain ⟨declared, hentities, hrelations⟩ := h
  have hall := outgoing_foldlM_addRelation hrelations entity
  rw [outgoing_foldlM_addEntity hentities, relationsFrom_eq_ok_iff.mp hfrom] at hall
  exact hall

/-- No two relations that leave one entity share a name. -/
def Distinct (catalog : Catalog) : Prop :=
  ∀ entity relations, catalog.outgoing.get? entity = some relations →
    (relations.map (·.name)).Nodup

theorem Distinct.addEntity {catalog catalog' : Catalog} {entity : Entity}
    (hd : catalog.Distinct) (h : catalog.addEntity entity = .ok catalog') : catalog'.Distinct := by
  obtain ⟨-, rfl⟩ := addEntity_eq_ok_iff.mp h
  intro name relations hget
  rw [Index.get?_insert] at hget
  split at hget
  case isTrue =>
    cases hget
    exact List.nodup_nil
  case isFalse => exact hd name relations hget

theorem Distinct.addRelation {catalog catalog' : Catalog} {relation : Relation}
    (hd : catalog.Distinct) (h : catalog.addRelation relation = .ok catalog') :
    catalog'.Distinct := by
  obtain ⟨-, hnew, rfl⟩ := addRelation_eq_ok_iff.mp h
  have hold : (((catalog.outgoing.get? relation.source).getD []).map (·.name)).Nodup := by
    cases hout : catalog.outgoing.get? relation.source with
    | none => exact List.nodup_nil
    | some old => exact hd _ _ hout
  have hfresh : relation.name ∉
      ((catalog.outgoing.get? relation.source).getD []).map (·.name) := by
    intro hmem
    obtain ⟨other, hother, hname⟩ := List.mem_map.mp hmem
    have hdiffer := List.any_eq_false.mp hnew other hother
    simp [hname] at hdiffer
  intro name relations hget
  rw [Index.get?_file] at hget
  split at hget
  case isTrue =>
    cases hget
    rw [List.map_append, List.map_singleton]
    exact List.nodup_append_comm.mp (List.nodup_cons.mpr ⟨hfresh, hold⟩)
  case isFalse => exact hd name relations hget

theorem distinct_of_schema {schema : Schema} {catalog : Catalog}
    (h : schema.catalog = .ok catalog) : catalog.Distinct :=
  of_schema (fun _ _ hget => by simp [empty] at hget) (fun _ _ _ hd ha => hd.addEntity ha)
    (fun _ _ _ hd ha => hd.addRelation ha) h

theorem Distinct.relation_eq {catalog : Catalog} (hd : catalog.Distinct) {entity : String}
    {relations : List Relation} (hfrom : catalog.relationsFrom entity = .ok relations)
    {r₁ r₂ : Relation} (h₁ : r₁ ∈ relations) (h₂ : r₂ ∈ relations) (hname : r₁.name = r₂.name) :
    r₁ = r₂ :=
  List.inj_on_of_nodup_map (hd entity relations (relationsFrom_eq_ok_iff.mp hfrom)) h₁ h₂ hname

theorem Distinct.relation_eq_ok_iff {catalog : Catalog} (hd : catalog.Distinct)
    {entity name : String} {relation : Relation} :
    catalog.relation entity name = .ok relation ↔
      ∃ relations, catalog.relationsFrom entity = .ok relations ∧
        relation ∈ relations ∧ relation.name = name := by
  rw [Catalog.relation, bind_eq_ok_iff]
  apply exists_congr
  intro relations
  apply and_congr_right
  intro hfrom
  rw [← find?_key_eq_some_iff (hd entity relations (relationsFrom_eq_ok_iff.mp hfrom))]
  cases relations.find? (·.name == name) with
  | none => simp
  | some found => simp

theorem Walk.last_unique {catalog : Catalog} (hd : catalog.Distinct) {entity : String}
    {names : List String} {last last' : String} (h : catalog.Walk entity names last)
    (h' : catalog.Walk entity names last') : last = last' := by
  induction h with
  | stay =>
    cases h'
    rfl
  | @step entity relations relation names last hfrom hmem tail ih =>
    generalize hcons : relation.name :: names = path at h'
    cases h' with
    | stay => cases hcons
    | @step _ relations' relation' names' _ hfrom' hmem' tail' =>
      obtain ⟨hname, rfl⟩ := List.cons.inj hcons
      rw [hfrom] at hfrom'
      cases hfrom'
      have hrel : relation = relation' := hd.relation_eq hfrom hmem hmem' hname
      subst hrel
      exact ih tail'

end Catalog

end Prefetch
