import Prefetch.EntitySchema

/-!
# Catalogs

A catalog answers which relations leave an entity. It is compiled from a schema in which no two
entities share a name, every relation joins declared entities, and no two relations from one
entity share a name. The entities are checked first and then the relations, each in order, and
the first offence is reported. A relation between unknown entities is never called a duplicate.
-/

namespace Prefetch

inductive SchemaError where
  | duplicateEntity (name : String)
  | unknownEndpoint (relation : Relation)
  | duplicateRelation (relation : Relation)
  deriving DecidableEq, Repr

def SchemaError.message : SchemaError → String
  | duplicateEntity name => "Duplicate entity name: " ++ name
  | unknownEndpoint r =>
    "Relation " ++ r.name ++ " references unknown entities: " ++ r.source ++ " -> " ++ r.target
  | duplicateRelation r => "Duplicate relation name " ++ r.name ++ " on entity " ++ r.source

inductive LookupError where
  | unknownEntity (name : String)
  | unknownRelation (relation entity : String)
  deriving DecidableEq, Repr

def LookupError.message : LookupError → String
  | unknownEntity name => "Unknown entity: " ++ name
  | unknownRelation relation entity =>
    "Unknown relation '" ++ relation ++ "' for entity '" ++ entity ++ "'"

/-- The entities of a schema, and under the name of each of them the relations that leave it. -/
structure Catalog where
  entities : Index Entity
  outgoing : Index (List Relation)
  deriving DecidableEq, Repr

namespace Catalog

def empty : Catalog := ⟨.empty, .empty⟩

def addEntity (catalog : Catalog) (entity : Entity) : Except SchemaError Catalog :=
  if catalog.entities.contains entity.name then .error (.duplicateEntity entity.name)
  else .ok ⟨catalog.entities.insert entity.name entity, catalog.outgoing.insert entity.name []⟩

def addRelation (catalog : Catalog) (relation : Relation) : Except SchemaError Catalog :=
  if catalog.entities.contains relation.source && catalog.entities.contains relation.target then
    if ((catalog.outgoing.get? relation.source).getD []).any (·.name == relation.name) then
      .error (.duplicateRelation relation)
    else .ok { catalog with outgoing := catalog.outgoing.file relation.source relation }
  else .error (.unknownEndpoint relation)

def hasEntity (catalog : Catalog) (name : String) : Bool := catalog.entities.contains name

def entity (catalog : Catalog) (name : String) : Except LookupError Entity :=
  match catalog.entities.get? name with
  | some entity => .ok entity
  | none => .error (.unknownEntity name)

def relationsFrom (catalog : Catalog) (entity : String) : Except LookupError (List Relation) :=
  match catalog.outgoing.get? entity with
  | some relations => .ok relations
  | none => .error (.unknownEntity entity)

def relation (catalog : Catalog) (entity name : String) : Except LookupError Relation := do
  match (← catalog.relationsFrom entity).find? (·.name == name) with
  | some relation => .ok relation
  | none => .error (.unknownRelation name entity)

end Catalog

/-- The catalog of a schema, or the first offence in it. -/
def Schema.catalog (schema : Schema) : Except SchemaError Catalog := do
  let declared ← schema.entities.foldlM Catalog.addEntity .empty
  schema.relations.foldlM Catalog.addRelation declared

end Prefetch
