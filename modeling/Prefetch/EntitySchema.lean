import Prefetch.OrderedIndex

/-!
# Schemas

A schema lists entities and the relations that lead from one entity to another. It may come from
loosely filled rows: a missing name counts as the empty name, a missing label or cardinality stays
open. A schema is just what was declared; whether it hangs together is decided by its catalog.
-/

namespace Prefetch

structure Entity where
  name : String
  label : Option String := none
  deriving DecidableEq, Repr

structure Relation where
  name : String
  source : String
  target : String
  cardinality : Option String := none
  deriving DecidableEq, Repr

structure Schema where
  entities : List Entity
  relations : List Relation
  deriving DecidableEq, Repr

structure EntityRow where
  name : Option String := none
  label : Option String := none
  deriving DecidableEq, Repr

structure RelationRow where
  name : Option String := none
  source : Option String := none
  target : Option String := none
  cardinality : Option String := none
  deriving DecidableEq, Repr

def Entity.ofRow (row : EntityRow) : Entity := ⟨row.name.getD "", row.label⟩

def Relation.ofRow (row : RelationRow) : Relation :=
  ⟨row.name.getD "", row.source.getD "", row.target.getD "", row.cardinality⟩

namespace Schema

def ofRows (entities : List EntityRow) (relations : List RelationRow) : Schema :=
  ⟨entities.map .ofRow, relations.map .ofRow⟩

/-- The entities by name. Of two entities of one name the later one is found, at the place of the
earlier one. -/
def entitiesByName (schema : Schema) : Index Entity :=
  schema.entities.foldl (fun index entity => index.insert entity.name entity) .empty

def relationsByName (schema : Schema) : Index (List Relation) :=
  schema.relations.foldl (fun index relation => index.file relation.name relation) .empty

end Schema

end Prefetch
