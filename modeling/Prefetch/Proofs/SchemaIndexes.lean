import Prefetch.Proofs.SchemaOffences

/-!
# The indexes of a schema

A schema has an index of its entities and one of its relations, both by name. The index of the
relations has every name once, in the order in which the names first occur, and under each of them
the relations of that name, so no relation is lost in it.

If the schema has a catalog, then the catalog keeps the very index of the entities. It files the
relations by their source and not by their name, but of an entity and a name there is at most one
relation. So both look-ups come to the same: what the index has under the name is searched for the
entity, and what the catalog has under the entity is searched for the name.
-/

namespace Prefetch

section FirstOccurrences

variable {α : Type} [DecidableEq α]

theorem eraseDups_concat (xs : List α) (x : α) :
    (xs ++ [x]).eraseDups = if x ∈ xs then xs.eraseDups else xs.eraseDups ++ [x] := by
  rw [List.eraseDups_append, List.removeAll]
  by_cases hx : x ∈ xs
  · simp [hx]
  · simp [hx, List.eraseDups_cons]

theorem nodup_eraseDups (xs : List α) : xs.eraseDups.Nodup := by
  induction xs using List.reverseRecOn with
  | nil => exact List.nodup_nil
  | append_singleton init last ih =>
    rw [eraseDups_concat]
    split
    case isTrue => exact ih
    case isFalse hlast =>
      rw [← List.concat_eq_append]
      exact ih.concat (by rwa [List.mem_eraseDups])

end FirstOccurrences

namespace Index

section Entries

variable {α β : Type}

theorem alterEntries_of_notMem {key : String} {entries : List (String × α)}
    (h : key ∉ entries.map (·.1)) (value : Option α → α) :
    alterEntries key value entries = entries ++ [(key, value none)] := by
  induction entries with
  | nil => rfl
  | cons entry rest ih =>
    obtain ⟨k, old⟩ := entry
    rw [List.map_cons, List.mem_cons, not_or] at h
    rw [alterEntries, if_neg (Ne.symm h.1), ih h.2, List.cons_append]

theorem alterEntries_map {keys : List String} (hnodup : keys.Nodup) {key : String}
    (hkey : key ∈ keys) (valueOf : String → α) (value : Option α → α) :
    alterEntries key value (keys.map fun k => (k, valueOf k)) =
      keys.map fun k => (k, if k = key then value (some (valueOf k)) else valueOf k) := by
  induction keys with
  | nil => cases hkey
  | cons k rest ih =>
    obtain ⟨hk, hrest⟩ := List.nodup_cons.mp hnodup
    rw [List.map_cons, alterEntries, List.map_cons]
    by_cases heq : k = key
    · -- the name does not come again behind its first entry
      have hsame : (rest.map fun k' => (k', if k' = key then value (some (valueOf k')) else
          valueOf k')) = rest.map fun k' => (k', valueOf k') := by
        apply List.map_congr_left
        intro k' hk'
        rw [if_neg]
        intro hsame
        exact hk (heq.trans hsame.symm ▸ hk')
      rw [if_pos heq, if_pos heq, hsame]
    · have hmem : key ∈ rest := (List.mem_cons.mp hkey).resolve_left (Ne.symm heq)
      rw [if_neg heq, if_neg heq, ih hrest hmem]

theorem lookup_map {keys : List String} (valueOf : String → α) (key : String) :
    (keys.map fun k => (k, valueOf k)).lookup key =
      if key ∈ keys then some (valueOf key) else none := by
  induction keys with
  | nil => rfl
  | cons k rest ih =>
    by_cases hk : key = k
    · simp [hk]
    · simp [List.lookup_cons, hk, beq_eq_false_iff_ne.mpr hk, ih]

/-- Values that are filed under their keys one after the other are found under each key in this
order, and the keys are in the order of their first occurrences. -/
theorem entries_foldl_file (key : β → String) (xs : List β) :
    (xs.foldl (fun index x => index.file (key x) x) empty).entries =
      (xs.map key).eraseDups.map fun k => (k, xs.filter (key · == k)) := by
  induction xs using List.reverseRecOn with
  | nil => rfl
  | append_singleton init last ih =>
    rw [List.foldl_append, List.foldl_cons, List.foldl_nil, file, alter, ih, List.map_append,
      List.map_singleton, eraseDups_concat]
    split
    case isTrue hmem =>
      rw [alterEntries_map (nodup_eraseDups _) (List.mem_eraseDups.mpr hmem)]
      apply List.map_congr_left
      intro k _
      by_cases hk : k = key last
      · simp [hk]
      · simp [hk, Ne.symm hk]
    case isFalse hnew =>
      have hnone : init.filter (key · == key last) = [] := by
        rw [List.filter_eq_nil_iff]
        intro x hx hsame
        rw [beq_iff_eq] at hsame
        exact hnew (hsame ▸ List.mem_map_of_mem hx)
      have hfresh : key last ∉ (((init.map key).eraseDups.map fun k =>
          (k, init.filter (key · == k))).map (·.1)) := by
        simpa [Function.comp_def] using hnew
      have hothers : ((init.map key).eraseDups.map fun k => (k, init.filter (key · == k))) =
          (init.map key).eraseDups.map fun k => (k, (init ++ [last]).filter (key · == k)) := by
        apply List.map_congr_left
        intro k hk
        have hne : key last ≠ k := by
          intro hsame
          rw [hsame] at hnew
          exact hnew (List.mem_eraseDups.mp hk)
        simp [hne]
      rw [alterEntries_of_notMem hfresh, List.map_append, hothers]
      simp [hnone]

theorem entries_foldl_insert (key : α → String) {xs : List α} (hnodup : (xs.map key).Nodup) :
    (xs.foldl (fun index x => index.insert (key x) x) empty).entries =
      xs.map fun x => (key x, x) := by
  induction xs using List.reverseRecOn with
  | nil => rfl
  | append_singleton init last ih =>
    rw [List.map_append, List.map_singleton, ← List.concat_eq_append,
      List.nodup_concat] at hnodup
    have hfresh : key last ∉ ((init.map fun x => (key x, x)).map (·.1)) := by
      simpa [Function.comp_def] using hnodup.1
    rw [List.foldl_append, List.foldl_cons, List.foldl_nil, insert, alter, ih hnodup.2,
      alterEntries_of_notMem hfresh, List.map_append, List.map_singleton]

end Entries

end Index

namespace Schema

variable {schema : Schema} {catalog : Catalog}

/-- The relations that the index by name has under a name, none if the name is not in it. -/
def relationsNamed (schema : Schema) (name : String) : List Relation :=
  (schema.relationsByName.get? name).getD []

theorem entries_relationsByName (schema : Schema) :
    schema.relationsByName.entries =
      (schema.relations.map (·.name)).eraseDups.map fun name =>
        (name, schema.relations.filter (·.name == name)) :=
  Index.entries_foldl_file Relation.name schema.relations

theorem relationsNamed_eq_filter (schema : Schema) (name : String) :
    schema.relationsNamed name = schema.relations.filter (·.name == name) := by
  rw [relationsNamed, Index.get?, entries_relationsByName, Index.lookup_map]
  split
  case isTrue => rfl
  case isFalse hname =>
    rw [List.mem_eraseDups] at hname
    symm
    rw [Option.getD_none, List.filter_eq_nil_iff]
    intro relation hrelation hsame
    rw [beq_iff_eq] at hsame
    exact hname (hsame ▸ List.mem_map_of_mem hrelation)

theorem perm_relationsByName (schema : Schema) :
    (schema.relationsByName.entries.flatMap (·.2)).Perm schema.relations := by
  rw [entries_relationsByName, List.flatMap_map]
  apply perm_flatMap_filter Relation.name (nodup_eraseDups _)
  intro relation hrelation
  exact List.mem_eraseDups.mpr (List.mem_map_of_mem hrelation)

theorem entities_foldlM_addEntity {entities : List Entity} {catalog' : Catalog}
    (h : entities.foldlM Catalog.addEntity catalog = .ok catalog') :
    catalog'.entities =
      entities.foldl (fun index entity => index.insert entity.name entity) catalog.entities := by
  induction entities generalizing catalog with
  | nil =>
    cases h
    rfl
  | cons entity rest ih =>
    rw [List.foldlM_cons, bind_eq_ok_iff] at h
    obtain ⟨next, hnext, hrest⟩ := h
    obtain ⟨-, rfl⟩ := Catalog.addEntity_eq_ok_iff.mp hnext
    exact ih hrest

theorem entities_eq_entitiesByName (h : schema.catalog = .ok catalog) :
    catalog.entities = schema.entitiesByName := by
  simp only [Schema.catalog, bind_eq_ok_iff] at h
  obtain ⟨declared, hentities, hrelations⟩ := h
  have hkept : catalog.entities = declared.entities := by
    refine foldlM_invariant (motive := fun c => c.entities = declared.entities) ?_ hrelations rfl
    intro c relation c' hc hadd
    obtain ⟨-, -, rfl⟩ := Catalog.addRelation_eq_ok_iff.mp hadd
    exact hc
  rw [hkept]
  exact entities_foldlM_addEntity hentities

theorem filter_eq_singleton {xs : List Relation}
    (hnodup : (xs.map fun relation => (relation.source, relation.name)).Nodup)
    {relation : Relation} (hmem : relation ∈ xs) :
    xs.filter (fun other => other.source == relation.source && other.name == relation.name) =
      [relation] := by
  apply List.perm_singleton.mp
  rw [List.perm_ext_iff_of_nodup (hnodup.of_map.filter _) (List.nodup_singleton _)]
  intro other
  rw [List.mem_filter, List.mem_singleton, Bool.and_eq_true, beq_iff_eq, beq_iff_eq]
  constructor
  · intro h
    obtain ⟨hother, hsource, hname⟩ := h
    exact List.inj_on_of_nodup_map hnodup hother hmem (by rw [hsource, hname])
  · intro h
    rw [h]
    exact ⟨hmem, rfl, rfl⟩

theorem relation_or_relationsNamed (h : schema.catalog = .ok catalog) {entity : String}
    (hentity : catalog.hasEntity entity = true) (name : String) :
    (∃ relation, catalog.relation entity name = .ok relation ∧
      (schema.relationsNamed name).filter (·.source == entity) = [relation]) ∨
    (catalog.relation entity name = .error (.unknownRelation name entity) ∧
      (schema.relationsNamed name).filter (·.source == entity) = []) := by
  have hanswers := Catalog.answers_of_schema h
  have hcoherent := Schema.exists_catalog_iff.mp ⟨catalog, h⟩
  rw [relationsNamed_eq_filter, List.filter_filter]
  by_cases hfound : ∃ relation ∈ schema.relations,
      relation.source = entity ∧ relation.name = name
  · left
    obtain ⟨relation, hmem, rfl, rfl⟩ := hfound
    exact ⟨relation, (hanswers.relation_ok _ _ _).mpr ⟨hmem, rfl, rfl⟩,
      filter_eq_singleton hcoherent.relations_nodup hmem⟩
  · right
    have hnone : ∀ relation ∈ schema.relations,
        relation.source = entity → relation.name ≠ name := by
      intro relation hmem hsource hname
      exact hfound ⟨relation, hmem, hsource, hname⟩
    have hdeclares := (Catalog.hasEntity_of_schema h).mp hentity
    refine ⟨(hanswers.relation_error _ _ _).mpr (.inr ⟨hdeclares, hnone, rfl⟩), ?_⟩
    rw [List.filter_eq_nil_iff]
    intro relation hmem hsame
    rw [Bool.and_eq_true, beq_iff_eq, beq_iff_eq] at hsame
    exact hnone relation hmem hsame.1 hsame.2

/-- The index of the relations has the names of the relations in the order of their first
occurrences, each with the relations of that name in the order of declaration, and so every relation
once. If the schema has a catalog, then the index of the entities has exactly the names of its
entities, each with the entity that the catalog finds, and the entities are those that the schema
declares, in order. What the index of the relations has under a name and leaves a known entity is
the relation that the catalog finds for the entity and the name, and is nothing if and only if the
catalog finds none. -/
theorem indexes_agree_with_catalog (schema : Schema) :
    (schema.relationsByName.entries =
      (schema.relations.map (·.name)).eraseDups.map fun name =>
        (name, schema.relations.filter (·.name == name))) ∧
    (schema.relationsByName.entries.flatMap (·.2)).Perm schema.relations ∧
    ∀ catalog, schema.catalog = .ok catalog →
      (∀ name, name ∈ schema.entitiesByName.keys ↔ catalog.hasEntity name = true) ∧
      (∀ name entity,
        schema.entitiesByName.get? name = some entity ↔ catalog.entity name = .ok entity) ∧
      schema.entitiesByName.entries = schema.entities.map (fun entity => (entity.name, entity)) ∧
      ∀ entity, catalog.hasEntity entity = true → ∀ name,
        (∃ relation, catalog.relation entity name = .ok relation ∧
          (schema.relationsNamed name).filter (·.source == entity) = [relation]) ∨
        (catalog.relation entity name = .error (.unknownRelation name entity) ∧
          (schema.relationsNamed name).filter (·.source == entity) = []) := by
  refine ⟨entries_relationsByName schema, perm_relationsByName schema, ?_⟩
  intro catalog h
  have hcoherent := Schema.exists_catalog_iff.mp ⟨catalog, h⟩
  have hindex := entities_eq_entitiesByName h
  have hentries : schema.entitiesByName.entries =
      schema.entities.map fun entity => (entity.name, entity) :=
    Index.entries_foldl_insert Entity.name hcoherent.entities_nodup
  refine ⟨?_, ?_, hentries, ?_⟩
  · intro name
    rw [Catalog.hasEntity_of_schema h, Index.keys, hentries, List.map_map, List.mem_map]
    rfl
  · intro name entity
    rw [Catalog.entity, hindex]
    cases schema.entitiesByName.get? name with
    | none => simp
    | some found => simp
  · intro entity hentity name
    exact relation_or_relationsNamed h hentity name

/-- People and pets both have children. -/
theorem indexes_agree_with_catalog_children :
    let ofPerson : Relation := ⟨"children", "person", "person", none⟩
    let pets : Relation := ⟨"pets", "person", "pet", none⟩
    let ofPet : Relation := ⟨"children", "pet", "pet", none⟩
    let schema : Schema := ⟨[⟨"person", none⟩, ⟨"pet", none⟩], [ofPerson, pets, ofPet]⟩
    schema.relationsByName.entries =
      [("children", [ofPerson, ofPet]), ("pets", [pets])] ∧
    ∃ catalog, schema.catalog = .ok catalog ∧ catalog.hasEntity "pet" = true ∧
      catalog.relation "pet" "children" = .ok ofPet ∧
      (schema.relationsNamed "children").filter (·.source == "pet") = [ofPet] ∧
      catalog.relation "pet" "pets" = .error (.unknownRelation "pets" "pet") ∧
      (schema.relationsNamed "pets").filter (·.source == "pet") = [] := by
  intro ofPerson pets ofPet schema
  obtain ⟨hentries, -, hagree⟩ := indexes_agree_with_catalog schema
  have hcatalog : ∃ catalog, schema.catalog = .ok catalog ∧ catalog.hasEntity "pet" = true ∧
      catalog.relation "pet" "children" = .ok ofPet ∧
      catalog.relation "pet" "pets" = .error (.unknownRelation "pets" "pet") :=
    ⟨_, rfl, rfl, rfl, rfl⟩
  obtain ⟨catalog, hcatalog, hpet, hchildren, hpets⟩ := hcatalog
  obtain ⟨-, -, -, hfound⟩ := hagree catalog hcatalog
  refine ⟨hentries, catalog, hcatalog, hpet, hchildren, ?_, hpets, ?_⟩
  · rcases hfound "pet" hpet "children" with ⟨relation, hrelation, hlist⟩ | ⟨hnone, -⟩
    · rw [hchildren] at hrelation
      cases hrelation
      exact hlist
    · rw [hchildren] at hnone
      cases hnone
  · rcases hfound "pet" hpet "pets" with ⟨relation, hrelation, -⟩ | ⟨-, hlist⟩
    · rw [hpets] at hrelation
      cases hrelation
    · exact hlist

end Schema

end Prefetch
