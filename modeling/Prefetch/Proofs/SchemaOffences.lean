import Prefetch.Proofs.KnownEntities

/-!
# What a schema is refused for

A schema has a catalog if and only if no two entities share a name, every relation joins declared
entities, and no two relations from one entity share a name. Otherwise the first offence is
reported: the first entity whose name was declared before, or, if there is none, the first relation
with an undeclared end or with the source and the name of an earlier relation. A relation with an
undeclared end is reported as such, whatever its name.

A declaration is refused on the ground of those before it alone, since the catalog at that point
holds these and nothing else. The catalog in the end answers every look-up from the declarations,
and files every relation once.
-/

namespace Prefetch

def Schema.Declares (schema : Schema) (name : String) : Prop :=
  ∃ entity ∈ schema.entities, entity.name = name

/-- An entity offends if one before it has its name. -/
inductive EntityOffence (before : List Entity) (entity : Entity) : SchemaError → Prop where
  | repeated {earlier} (hmem : earlier ∈ before) (hname : earlier.name = entity.name) :
      EntityOffence before entity (.duplicateEntity entity.name)

/-- A relation offends if one of its ends is not declared, and else if one before it has its source
and its name. -/
inductive RelationOffence (schema : Schema) (before : List Relation) (relation : Relation) :
    SchemaError → Prop where
  | undeclared (hends : ¬ (schema.Declares relation.source ∧ schema.Declares relation.target)) :
      RelationOffence schema before relation (.unknownEndpoint relation)
  | repeated {earlier}
      (hends : schema.Declares relation.source ∧ schema.Declares relation.target)
      (hmem : earlier ∈ before) (hsource : earlier.source = relation.source)
      (hname : earlier.name = relation.name) :
      RelationOffence schema before relation (.duplicateRelation relation)

/-- The first offence of a schema: that of an entity if there is one, and else that of a
relation. -/
inductive Schema.FirstOffence (schema : Schema) (e : SchemaError) : Prop where
  | entity (h : FirstRefused EntityOffence schema.entities e)
  | relation (hnone : NoneRefused EntityOffence schema.entities)
      (h : FirstRefused (RelationOffence schema) schema.relations e)

/-- A schema that hangs together. -/
structure Schema.IsCoherent (schema : Schema) : Prop where
  entities_nodup : (schema.entities.map (·.name)).Nodup
  ends_declared : ∀ relation ∈ schema.relations,
    schema.Declares relation.source ∧ schema.Declares relation.target
  relations_nodup : (schema.relations.map fun relation => (relation.source, relation.name)).Nodup

theorem noneRefused_entityOffence_iff {entities : List Entity} :
    NoneRefused EntityOffence entities ↔ (entities.map (·.name)).Nodup := by
  rw [nodup_map_iff_forall_split]
  constructor
  · intro h before entity after hentities earlier hearlier hname
    exact h before entity after _ hentities (.repeated hearlier hname)
  · intro h before entity after e hentities hoffence
    cases hoffence with
    | repeated hmem hname => exact h before entity after hentities _ hmem hname

theorem noneRefused_relationOffence_iff {schema : Schema} {relations : List Relation} :
    NoneRefused (RelationOffence schema) relations ↔
      (∀ relation ∈ relations,
        schema.Declares relation.source ∧ schema.Declares relation.target) ∧
      (relations.map fun relation => (relation.source, relation.name)).Nodup := by
  rw [nodup_map_iff_forall_split]
  constructor
  · intro h
    have hends : ∀ relation ∈ relations,
        schema.Declares relation.source ∧ schema.Declares relation.target := by
      intro relation hmem
      obtain ⟨before, after, hrelations⟩ := List.append_of_mem hmem
      by_contra hends
      exact h before relation after _ hrelations (.undeclared hends)
    refine ⟨hends, ?_⟩
    intro before relation after hrelations earlier hearlier hkey
    obtain ⟨hsource, hname⟩ := Prod.mk.inj hkey
    have hmem : relation ∈ relations := by
      rw [hrelations]
      exact List.mem_append_right _ List.mem_cons_self
    exact h before relation after _ hrelations
      (.repeated (hends relation hmem) hearlier hsource hname)
  · intro h before relation after e hrelations hoffence
    cases hoffence with
    | undeclared hends =>
      apply hends
      apply h.1
      rw [hrelations]
      exact List.mem_append_right _ List.mem_cons_self
    | repeated hends hmem hsource hname =>
      exact h.2 before relation after hrelations _ hmem (by rw [hsource, hname])

namespace Catalog

theorem addEntity_eq_error_iff {catalog : Catalog} {entity : Entity} {e : SchemaError} :
    catalog.addEntity entity = .error e ↔
      catalog.hasEntity entity.name = true ∧ e = .duplicateEntity entity.name := by
  rw [addEntity, hasEntity]
  cases catalog.entities.contains entity.name with
  | true => simp [eq_comm]
  | false => simp

theorem addRelation_eq_error_iff {catalog : Catalog} {relation : Relation} {e : SchemaError} :
    catalog.addRelation relation = .error e ↔
      (¬ (catalog.hasEntity relation.source = true ∧ catalog.hasEntity relation.target = true) ∧
        e = .unknownEndpoint relation) ∨
      ((catalog.hasEntity relation.source = true ∧ catalog.hasEntity relation.target = true) ∧
        (∃ earlier ∈ catalog.leaving relation.source, earlier.name = relation.name) ∧
        e = .duplicateRelation relation) := by
  have hrepeated : ((catalog.outgoing.get? relation.source).getD []).any
        (·.name == relation.name) = true ↔
      ∃ earlier ∈ catalog.leaving relation.source, earlier.name = relation.name := by
    simp only [leaving, List.any_eq_true, beq_iff_eq]
  rw [addRelation, ← hrepeated, hasEntity, hasEntity, ← Bool.and_eq_true]
  cases catalog.entities.contains relation.source && catalog.entities.contains relation.target with
  | false => simp [@eq_comm _ e]
  | true =>
    cases ((catalog.outgoing.get? relation.source).getD []).any (·.name == relation.name) with
    | true => simp [@eq_comm _ e]
    | false => simp

theorem addEntity_eq_error_iff_offence {before : List Entity} {catalog : Catalog}
    (h : before.foldlM addEntity empty = .ok catalog) {entity : Entity} {e : SchemaError} :
    catalog.addEntity entity = .error e ↔ EntityOffence before entity e := by
  have hempty : empty.hasEntity entity.name = false := rfl
  rw [addEntity_eq_error_iff, hasEntity_foldlM_addEntity h, hempty]
  constructor
  · intro hrefused
    obtain ⟨hfalse | ⟨earlier, hmem, hname⟩, rfl⟩ := hrefused
    · cases hfalse
    · exact .repeated hmem hname
  · intro hoffence
    cases hoffence with
    | repeated hmem hname => exact ⟨.inr ⟨_, hmem, hname⟩, rfl⟩

section Relations

variable {schema : Schema} {declared catalog : Catalog} {before : List Relation}

theorem hasEntity_eq_true_iff_declares
    (hdeclared : schema.entities.foldlM addEntity empty = .ok declared)
    (h : before.foldlM addRelation declared = .ok catalog) {name : String} :
    catalog.hasEntity name = true ↔ schema.Declares name := by
  have hempty : empty.hasEntity name = false := rfl
  rw [hasEntity_foldlM_addRelation h, hasEntity_foldlM_addEntity hdeclared, hempty,
    Schema.Declares]
  simp

theorem leaving_eq_filter (hdeclared : schema.entities.foldlM addEntity empty = .ok declared)
    (h : before.foldlM addRelation declared = .ok catalog) (entity : String) :
    catalog.leaving entity = before.filter (·.source == entity) := by
  rw [leaving, outgoing_foldlM_addRelation h, outgoing_foldlM_addEntity hdeclared,
    List.nil_append]

theorem addRelation_eq_error_iff_offence
    (hdeclared : schema.entities.foldlM addEntity empty = .ok declared)
    (h : before.foldlM addRelation declared = .ok catalog) {relation : Relation}
    {e : SchemaError} :
    catalog.addRelation relation = .error e ↔ RelationOffence schema before relation e := by
  simp only [addRelation_eq_error_iff, hasEntity_eq_true_iff_declares hdeclared h,
    leaving_eq_filter hdeclared h, List.mem_filter, beq_iff_eq]
  constructor
  · intro hrefused
    rcases hrefused with ⟨hends, rfl⟩ | ⟨hends, ⟨earlier, ⟨hmem, hsource⟩, hname⟩, rfl⟩
    · exact .undeclared hends
    · exact .repeated hends hmem hsource hname
  · intro hoffence
    cases hoffence with
    | undeclared hends => exact .inl ⟨hends, rfl⟩
    | repeated hends hmem hsource hname =>
      exact .inr ⟨hends, ⟨_, ⟨hmem, hsource⟩, hname⟩, rfl⟩

end Relations

end Catalog

namespace Schema

variable {schema : Schema} {catalog declared : Catalog}

theorem exists_declared_iff :
    (∃ declared, schema.entities.foldlM Catalog.addEntity .empty = .ok declared) ↔
      NoneRefused EntityOffence schema.entities :=
  exists_foldlM_iff_noneRefused fun _ _ _ _ h => Catalog.addEntity_eq_error_iff_offence h

theorem declare_eq_error_iff {e : SchemaError} :
    schema.entities.foldlM Catalog.addEntity .empty = .error e ↔
      FirstRefused EntityOffence schema.entities e :=
  foldlM_eq_error_iff_firstRefused fun _ _ _ _ h => Catalog.addEntity_eq_error_iff_offence h

theorem exists_related_iff
    (hdeclared : schema.entities.foldlM Catalog.addEntity .empty = .ok declared) :
    (∃ catalog, schema.relations.foldlM Catalog.addRelation declared = .ok catalog) ↔
      NoneRefused (RelationOffence schema) schema.relations :=
  exists_foldlM_iff_noneRefused fun _ _ _ _ h =>
    Catalog.addRelation_eq_error_iff_offence hdeclared h

theorem relate_eq_error_iff {e : SchemaError}
    (hdeclared : schema.entities.foldlM Catalog.addEntity .empty = .ok declared) :
    schema.relations.foldlM Catalog.addRelation declared = .error e ↔
      FirstRefused (RelationOffence schema) schema.relations e :=
  foldlM_eq_error_iff_firstRefused fun _ _ _ _ h =>
    Catalog.addRelation_eq_error_iff_offence hdeclared h

theorem exists_catalog_iff :
    (∃ catalog, schema.catalog = .ok catalog) ↔ schema.IsCoherent := by
  simp only [Schema.catalog, bind_eq_ok_iff]
  constructor
  · intro h
    obtain ⟨catalog, declared, hdeclared, hcatalog⟩ := h
    have hentities := exists_declared_iff.mp ⟨declared, hdeclared⟩
    have hnone := (exists_related_iff hdeclared).mp ⟨catalog, hcatalog⟩
    obtain ⟨hends, hrelations⟩ := noneRefused_relationOffence_iff.mp hnone
    exact ⟨noneRefused_entityOffence_iff.mp hentities, hends, hrelations⟩
  · intro h
    obtain ⟨declared, hdeclared⟩ :=
      exists_declared_iff.mpr (noneRefused_entityOffence_iff.mpr h.entities_nodup)
    have hnone : NoneRefused (RelationOffence schema) schema.relations :=
      noneRefused_relationOffence_iff.mpr ⟨h.ends_declared, h.relations_nodup⟩
    obtain ⟨catalog, hcatalog⟩ := (exists_related_iff hdeclared).mpr hnone
    exact ⟨catalog, declared, hdeclared, hcatalog⟩

theorem catalog_eq_error_iff {e : SchemaError} :
    schema.catalog = .error e ↔ schema.FirstOffence e := by
  simp only [Schema.catalog, bind_eq_error_iff]
  constructor
  · intro h
    rcases h with hentities | ⟨declared, hdeclared, hrelations⟩
    · exact .entity (declare_eq_error_iff.mp hentities)
    · exact .relation (exists_declared_iff.mp ⟨declared, hdeclared⟩)
        ((relate_eq_error_iff hdeclared).mp hrelations)
  · intro h
    cases h with
    | entity hfirst => exact .inl (declare_eq_error_iff.mpr hfirst)
    | relation hnone hfirst =>
      obtain ⟨declared, hdeclared⟩ := exists_declared_iff.mpr hnone
      exact .inr ⟨declared, hdeclared, (relate_eq_error_iff hdeclared).mpr hfirst⟩

end Schema

namespace Catalog

/-- The catalog answers every look-up from the declarations of the schema: with the relations that
leave an entity, in the order of declaration, with the one relation of an entity and a name, or with
the reason why there is no answer. Over all entities every relation is filed once. -/
structure Answers (catalog : Catalog) (schema : Schema) : Prop where
  relationsFrom_ok : ∀ entity relations, catalog.relationsFrom entity = .ok relations ↔
    schema.Declares entity ∧ relations = schema.relations.filter (·.source == entity)
  relationsFrom_error : ∀ entity e, catalog.relationsFrom entity = .error e ↔
    ¬ schema.Declares entity ∧ e = .unknownEntity entity
  relation_ok : ∀ entity name relation, catalog.relation entity name = .ok relation ↔
    relation ∈ schema.relations ∧ relation.source = entity ∧ relation.name = name
  relation_error : ∀ entity name e, catalog.relation entity name = .error e ↔
    (¬ schema.Declares entity ∧ e = .unknownEntity entity) ∨
    (schema.Declares entity ∧
      (∀ relation ∈ schema.relations, relation.source = entity → relation.name ≠ name) ∧
      e = .unknownRelation name entity)
  filed_once : ∃ lists,
    schema.entities.mapM (fun entity => catalog.relationsFrom entity.name) = .ok lists ∧
      lists.flatten.Perm schema.relations

theorem Closed.relationsFrom_eq_error {catalog : Catalog} (hc : catalog.Closed) {entity : String}
    (hunknown : ¬ catalog.hasEntity entity = true) :
    catalog.relationsFrom entity = .error (.unknownEntity entity) := by
  have hnone : catalog.outgoing.get? entity = none := by
    rw [← hc.listed] at hunknown
    simpa using hunknown
  rw [relationsFrom, hnone]

section OfSchema

variable {schema : Schema} {catalog : Catalog}

theorem relationsFrom_of_declares (h : schema.catalog = .ok catalog) {entity : String}
    (hentity : schema.Declares entity) :
    catalog.relationsFrom entity = .ok (schema.relations.filter (·.source == entity)) := by
  have hfrom := (closed_of_schema h).relationsFrom_eq ((hasEntity_of_schema h).mpr hentity)
  rw [hfrom, relationsFrom_of_schema h hfrom]

theorem relationsFrom_of_not_declares (h : schema.catalog = .ok catalog) {entity : String}
    (hentity : ¬ schema.Declares entity) :
    catalog.relationsFrom entity = .error (.unknownEntity entity) := by
  apply (closed_of_schema h).relationsFrom_eq_error
  intro hknown
  exact hentity ((hasEntity_of_schema h).mp hknown)

theorem relationsFrom_of_schema_eq_ok_iff (h : schema.catalog = .ok catalog) {entity : String}
    {relations : List Relation} :
    catalog.relationsFrom entity = .ok relations ↔
      schema.Declares entity ∧ relations = schema.relations.filter (·.source == entity) := by
  by_cases hentity : schema.Declares entity
  · simp [relationsFrom_of_declares h hentity, hentity, eq_comm]
  · simp [relationsFrom_of_not_declares h hentity, hentity]

theorem relationsFrom_of_schema_eq_error_iff (h : schema.catalog = .ok catalog) {entity : String}
    {e : LookupError} :
    catalog.relationsFrom entity = .error e ↔
      ¬ schema.Declares entity ∧ e = .unknownEntity entity := by
  by_cases hentity : schema.Declares entity
  · simp [relationsFrom_of_declares h hentity, hentity]
  · simp [relationsFrom_of_not_declares h hentity, hentity, eq_comm]

theorem relation_of_schema_eq_ok_iff (h : schema.catalog = .ok catalog) {entity name : String}
    {relation : Relation} :
    catalog.relation entity name = .ok relation ↔
      relation ∈ schema.relations ∧ relation.source = entity ∧ relation.name = name := by
  rw [(distinct_of_schema h).relation_eq_ok_iff]
  constructor
  · intro hrelation
    obtain ⟨relations, hfrom, hmem, hname⟩ := hrelation
    rw [relationsFrom_of_schema h hfrom, List.mem_filter, beq_iff_eq] at hmem
    exact ⟨hmem.1, hmem.2, hname⟩
  · intro hrelation
    obtain ⟨hmem, rfl, rfl⟩ := hrelation
    have hcoherent := Schema.exists_catalog_iff.mp ⟨catalog, h⟩
    have hsource := (hcoherent.ends_declared relation hmem).1
    exact ⟨_, relationsFrom_of_declares h hsource, List.mem_filter.mpr ⟨hmem, by simp⟩, rfl⟩

theorem relation_of_schema_eq_error_iff (h : schema.catalog = .ok catalog) {entity name : String}
    {e : LookupError} :
    catalog.relation entity name = .error e ↔
      (¬ schema.Declares entity ∧ e = .unknownEntity entity) ∨
      (schema.Declares entity ∧
        (∀ relation ∈ schema.relations, relation.source = entity → relation.name ≠ name) ∧
        e = .unknownRelation name entity) := by
  rw [relation_eq_error_iff, relationsFrom_of_schema_eq_error_iff h]
  apply or_congr_right
  simp only [relationsFrom_of_schema_eq_ok_iff h, and_assoc, exists_and_left, exists_eq_left,
    List.mem_filter, beq_iff_eq, and_imp]

theorem perm_relationsFrom (h : schema.catalog = .ok catalog) :
    ∃ lists, schema.entities.mapM (fun entity => catalog.relationsFrom entity.name) = .ok lists ∧
      lists.flatten.Perm schema.relations := by
  have hcoherent := Schema.exists_catalog_iff.mp ⟨catalog, h⟩
  refine ⟨schema.entities.map fun entity => schema.relations.filter (·.source == entity.name),
    ?_, ?_⟩
  · rw [mapM_eq_ok_iff, List.forall₂_map_right_iff, List.forall₂_same]
    intro entity hentity
    exact relationsFrom_of_declares h ⟨entity, hentity, rfl⟩
  · have hsources : ∀ relation ∈ schema.relations,
        relation.source ∈ schema.entities.map (·.name) := by
      intro relation hmem
      obtain ⟨entity, hentity, hname⟩ := (hcoherent.ends_declared relation hmem).1
      exact List.mem_map.mpr ⟨entity, hentity, hname⟩
    have hperm := perm_flatMap_filter Relation.source hcoherent.entities_nodup hsources
    rwa [List.flatMap_map] at hperm

theorem answers_of_schema (h : schema.catalog = .ok catalog) : catalog.Answers schema where
  relationsFrom_ok := fun _ _ => relationsFrom_of_schema_eq_ok_iff h
  relationsFrom_error := fun _ _ => relationsFrom_of_schema_eq_error_iff h
  relation_ok := fun _ _ _ => relation_of_schema_eq_ok_iff h
  relation_error := fun _ _ _ => relation_of_schema_eq_error_iff h
  filed_once := perm_relationsFrom h

end OfSchema

end Catalog

/-- A schema has a catalog if and only if it hangs together, and is refused for its first offence
otherwise. Its catalog answers every look-up from what the schema declares. -/
theorem Schema.catalog_outcome (schema : Schema) :
    ((∃ catalog, schema.catalog = .ok catalog) ↔ schema.IsCoherent) ∧
      (∀ e, schema.catalog = .error e ↔ schema.FirstOffence e) ∧
      ∀ catalog, schema.catalog = .ok catalog → catalog.Answers schema :=
  ⟨exists_catalog_iff, fun _ => catalog_eq_error_iff, fun _ => Catalog.answers_of_schema⟩

/-- The second relation repeats the first and leads to an undeclared entity. It is reported for the
latter, and the entities of the schema, which are in order, are not. Without it there is a
catalog. -/
theorem Schema.catalog_outcome_undeclared :
    let owns : Relation := ⟨"owns", "person", "person", none⟩
    let astray : Relation := ⟨"owns", "person", "car", none⟩
    let sound : Schema := ⟨[⟨"person", none⟩], [owns]⟩
    let faulty : Schema := ⟨[⟨"person", none⟩], [owns, astray, owns]⟩
    faulty.FirstOffence (.unknownEndpoint astray) ∧ ¬ faulty.IsCoherent ∧ sound.IsCoherent ∧
      ∃ catalog, sound.catalog = .ok catalog ∧ catalog.relation "person" "owns" = .ok owns := by
  intro owns astray sound faulty
  obtain ⟨hok, herror, -⟩ := Schema.catalog_outcome faulty
  obtain ⟨hok', -, hanswers⟩ := Schema.catalog_outcome sound
  have hfaulty : faulty.catalog = .error (.unknownEndpoint astray) := rfl
  have hsound : ∃ catalog, sound.catalog = .ok catalog := ⟨_, rfl⟩
  refine ⟨(herror _).mp hfaulty, ?_, hok'.mp hsound, ?_⟩
  · intro hcoherent
    obtain ⟨catalog, hcatalog⟩ := hok.mpr hcoherent
    rw [hfaulty] at hcatalog
    cases hcatalog
  · obtain ⟨catalog, hcatalog⟩ := hsound
    refine ⟨catalog, hcatalog, ?_⟩
    exact ((hanswers catalog hcatalog).relation_ok _ _ owns).mpr ⟨List.mem_cons_self, rfl, rfl⟩

end Prefetch
