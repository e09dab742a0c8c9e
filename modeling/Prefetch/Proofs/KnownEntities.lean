import Prefetch.Proofs.CatalogWalks

/-!
# Known entities

In the catalog of a schema every entity has a list of relations that leave it, and every relation
in such a list ends on an entity of the catalog. So a walk that starts on a known entity never
leaves the known ones, and no look-up on its way fails. The known entities are those that the
schema declares.
-/

namespace Prefetch

namespace Catalog

/-- The entities are those that have a list of relations, and relations end on entities. -/
structure Closed (catalog : Catalog) : Prop where
  listed : ∀ name, (catalog.outgoing.get? name).isSome = catalog.hasEntity name
  target : ∀ name relations, catalog.outgoing.get? name = some relations →
    ∀ relation ∈ relations, catalog.hasEntity relation.target = true

theorem hasEntity_addEntity {catalog catalog' : Catalog} {entity : Entity}
    (h : catalog.addEntity entity = .ok catalog') (name : String) :
    catalog'.hasEntity name = (decide (name = entity.name) || catalog.hasEntity name) := by
  obtain ⟨-, rfl⟩ := addEntity_eq_ok_iff.mp h
  rw [hasEntity, Index.contains, Index.get?_insert]
  by_cases hname : name = entity.name
  · simp [hname]
  · simp [hname, hasEntity, Index.contains]

theorem Closed.addEntity {catalog catalog' : Catalog} {entity : Entity} (hc : catalog.Closed)
    (h : catalog.addEntity entity = .ok catalog') : catalog'.Closed := by
  have hknown := hasEntity_addEntity h
  obtain ⟨-, rfl⟩ := addEntity_eq_ok_iff.mp h
  constructor
  · intro name
    rw [hknown, Index.get?_insert]
    by_cases hname : name = entity.name
    · simp [hname]
    · simp [hname, hc.listed name]
  · intro name relations hget relation hrelation
    rw [Index.get?_insert] at hget
    split at hget
    case isTrue =>
      cases hget
      cases hrelation
    case isFalse =>
      rw [hknown, hc.target name relations hget relation hrelation, Bool.or_true]

theorem Closed.addRelation {catalog catalog' : Catalog} {relation : Relation}
    (hc : catalog.Closed) (h : catalog.addRelation relation = .ok catalog') :
    catalog'.Closed := by
  obtain ⟨⟨hsource, htarget⟩, -, rfl⟩ := addRelation_eq_ok_iff.mp h
  constructor
  · intro name
    rw [Index.get?_file]
    split
    case isTrue hname =>
      rw [hname]
      exact hsource.symm
    case isFalse => exact hc.listed name
  · intro name relations hget other hother
    rw [Index.get?_file] at hget
    split at hget
    case isFalse => exact hc.target name relations hget other hother
    case isTrue =>
      cases hget
      rcases List.mem_append.mp hother with hother | hother
      · cases hout : catalog.outgoing.get? relation.source with
        | none =>
          rw [hout] at hother
          cases hother
        | some old =>
          rw [hout] at hother
          exact hc.target _ old hout other hother
      · rw [List.mem_singleton.mp hother]
        exact htarget

theorem closed_of_schema {schema : Schema} {catalog : Catalog}
    (h : schema.catalog = .ok catalog) : catalog.Closed :=
  of_schema ⟨fun _ => rfl, fun _ _ hget => by simp [empty] at hget⟩
    (fun _ _ _ hc ha => hc.addEntity ha) (fun _ _ _ hc ha => hc.addRelation ha) h

def leaving (catalog : Catalog) (entity : String) : List Relation :=
  (catalog.outgoing.get? entity).getD []

theorem leaving_eq {catalog : Catalog} {entity : String} {relations : List Relation}
    (h : catalog.relationsFrom entity = .ok relations) : catalog.leaving entity = relations := by
  rw [leaving, relationsFrom_eq_ok_iff.mp h]
  rfl

theorem Distinct.nodup_leaving {catalog : Catalog} (hd : catalog.Distinct) (entity : String) :
    ((catalog.leaving entity).map (·.name)).Nodup := by
  rw [leaving]
  cases hget : catalog.outgoing.get? entity with
  | none => exact List.nodup_nil
  | some relations => exact hd entity relations hget

theorem Closed.relationsFrom_eq {catalog : Catalog} (hc : catalog.Closed) {entity : String}
    (hknown : catalog.hasEntity entity = true) :
    catalog.relationsFrom entity = .ok (catalog.leaving entity) := by
  rw [← hc.listed, Option.isSome_iff_exists] at hknown
  obtain ⟨relations, hget⟩ := hknown
  rw [relationsFrom_eq_ok_iff, leaving, hget]
  rfl

theorem Closed.hasEntity_target {catalog : Catalog} (hc : catalog.Closed) {entity : String}
    {relation : Relation} (hmem : relation ∈ catalog.leaving entity) :
    catalog.hasEntity relation.target = true := by
  rw [leaving] at hmem
  cases hget : catalog.outgoing.get? entity with
  | none =>
    rw [hget] at hmem
    cases hmem
  | some relations =>
    rw [hget] at hmem
    exact hc.target entity relations hget relation hmem

theorem Closed.hasEntity_of_walk {catalog : Catalog} (hc : catalog.Closed) {entity last : String}
    {names : List String} (hwalk : catalog.Walk entity names last)
    (hknown : catalog.hasEntity entity = true) : catalog.hasEntity last = true := by
  induction hwalk with
  | stay => exact hknown
  | step hfrom hmem _ ih =>
    have hget := relationsFrom_eq_ok_iff.mp hfrom
    exact ih (hc.target _ _ hget _ hmem)

theorem entity_eq_ok_iff {catalog : Catalog} {name : String} :
    (∃ entity, catalog.entity name = .ok entity) ↔ catalog.hasEntity name = true := by
  rw [entity, hasEntity, Index.contains]
  cases catalog.entities.get? name with
  | none => simp
  | some entity => simp

theorem hasEntity_addRelation {catalog catalog' : Catalog} {relation : Relation}
    (h : catalog.addRelation relation = .ok catalog') (name : String) :
    catalog'.hasEntity name = catalog.hasEntity name := by
  obtain ⟨-, -, rfl⟩ := addRelation_eq_ok_iff.mp h
  rfl

theorem hasEntity_foldlM_addRelation {relations : List Relation} {catalog catalog' : Catalog}
    (h : relations.foldlM addRelation catalog = .ok catalog') (name : String) :
    catalog'.hasEntity name = catalog.hasEntity name := by
  refine foldlM_invariant (motive := fun c => c.hasEntity name = catalog.hasEntity name) ?_ h rfl
  intro c relation c' hc hadd
  rw [hasEntity_addRelation hadd, hc]

theorem hasEntity_foldlM_addEntity {entities : List Entity} {catalog catalog' : Catalog}
    (h : entities.foldlM addEntity catalog = .ok catalog') (name : String) :
    catalog'.hasEntity name = true ↔
      catalog.hasEntity name = true ∨ ∃ entity ∈ entities, entity.name = name := by
  induction entities generalizing catalog with
  | nil =>
    cases h
    simp
  | cons entity rest ih =>
    rw [List.foldlM_cons, bind_eq_ok_iff] at h
    obtain ⟨next, hnext, hrest⟩ := h
    rw [ih hrest, hasEntity_addEntity hnext, Bool.or_eq_true, decide_eq_true_eq,
      List.exists_mem_cons_iff, or_assoc, or_left_comm, @eq_comm _ name]

theorem hasEntity_of_schema {schema : Schema} {catalog : Catalog}
    (h : schema.catalog = .ok catalog) {name : String} :
    catalog.hasEntity name = true ↔ ∃ entity ∈ schema.entities, entity.name = name := by
  simp only [Schema.catalog, bind_eq_ok_iff] at h
  obtain ⟨declared, hentities, hrelations⟩ := h
  have hempty : empty.hasEntity name = false := rfl
  rw [hasEntity_foldlM_addRelation hrelations, hasEntity_foldlM_addEntity hentities, hempty]
  simp

end Catalog

end Prefetch
