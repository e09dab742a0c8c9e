import Prefetch.PlanExpansion
import Prefetch.Proofs.ExpansionTrace
import Prefetch.Proofs.PlanChains
import Prefetch.Proofs.SchemaOffences

/-!
# The order of declarations

Two schemas may declare the same in a different order. If every entity has its relations in the same
order in both, then one has a catalog if and only if the other has, and both catalogs plan every
request alike. Planning looks nothing up but the relations that leave an entity, and of a relation
it uses the name and the entity on which it ends.
-/

namespace Prefetch

theorem perm_of_filter_eq {α : Type} [DecidableEq α] (key : α → String) {xs ys : List α}
    (h : ∀ k, xs.filter (key · == k) = ys.filter (key · == k)) : xs.Perm ys := by
  apply List.perm_iff_count.mpr
  intro x
  have hcount : ∀ zs : List α, zs.count x = (zs.filter (key · == key x)).count x := by
    intro zs
    rw [List.count_filter (by simp)]
  rw [hcount xs, hcount ys, h]

def Relation.bare (relation : Relation) : Relation := { relation with cardinality := none }

@[simp] theorem Relation.name_bare (relation : Relation) : relation.bare.name = relation.name := rfl

@[simp] theorem Relation.source_bare (relation : Relation) :
    relation.bare.source = relation.source := rfl

@[simp] theorem Relation.target_bare (relation : Relation) :
    relation.bare.target = relation.target := rfl

def Branch.bare (branch : Branch) : Branch := { branch with relation := branch.relation.bare }

namespace Schema

/-- The schemas declare the same entities in any order, and the same relations, those of every
entity in the same order. Labels and cardinalities may differ. -/
structure Reordered (schema other : Schema) : Prop where
  entities : (schema.entities.map (·.name)).Perm (other.entities.map (·.name))
  relations : ∀ source, (schema.relations.filter (·.source == source)).map Relation.bare =
    (other.relations.filter (·.source == source)).map Relation.bare

namespace Reordered

variable {schema other : Schema}

theorem symm (h : schema.Reordered other) : other.Reordered schema where
  entities := h.entities.symm
  relations := fun source => (h.relations source).symm

theorem declares_iff (h : schema.Reordered other) {name : String} :
    schema.Declares name ↔ other.Declares name := by
  have hnames := h.entities.mem_iff (a := name)
  rwa [List.mem_map, List.mem_map] at hnames

theorem perm_relations (h : schema.Reordered other) :
    (schema.relations.map Relation.bare).Perm (other.relations.map Relation.bare) := by
  apply perm_of_filter_eq Relation.source
  intro source
  rw [List.filter_map, List.filter_map]
  exact h.relations source

theorem isCoherent (h : schema.Reordered other) (hcoherent : schema.IsCoherent) :
    other.IsCoherent where
  entities_nodup := h.entities.nodup hcoherent.entities_nodup
  ends_declared := by
    intro relation hrelation
    have hbare : relation.bare ∈ schema.relations.map Relation.bare :=
      h.perm_relations.mem_iff.mpr (List.mem_map_of_mem hrelation)
    obtain ⟨same, hsame, hends⟩ := List.mem_map.mp hbare
    have hdeclared := hcoherent.ends_declared same hsame
    have hsource : same.source = relation.source := by
      rw [← same.source_bare, hends, Relation.source_bare]
    have htarget : same.target = relation.target := by
      rw [← same.target_bare, hends, Relation.target_bare]
    rwa [h.declares_iff, h.declares_iff, hsource, htarget] at hdeclared
  relations_nodup := by
    have hkeys := h.perm_relations.map fun relation => (relation.source, relation.name)
    rw [List.map_map, List.map_map] at hkeys
    exact hkeys.nodup hcoherent.relations_nodup

theorem exists_catalog_iff (h : schema.Reordered other) :
    (∃ catalog, schema.catalog = .ok catalog) ↔ ∃ catalog, other.catalog = .ok catalog := by
  rw [Schema.exists_catalog_iff, Schema.exists_catalog_iff]
  exact ⟨h.isCoherent, h.symm.isCoherent⟩

end Reordered

end Schema

/-- The catalogs know the same entities and, up to cardinality, the same relations. -/
structure Catalog.AnswersAlike (catalog other : Catalog) : Prop where
  hasEntity : ∀ name, catalog.hasEntity name = other.hasEntity name
  relationsFrom : ∀ entity, (catalog.relationsFrom entity).map (List.map Relation.bare) =
    (other.relationsFrom entity).map (List.map Relation.bare)

/-- A look-up fails in both catalogs, or finds the same relations up to cardinality. -/
theorem Catalog.AnswersAlike.relationsFrom_cases {catalog other : Catalog}
    (h : catalog.AnswersAlike other) (entity : String) :
    (∃ e, catalog.relationsFrom entity = .error e ∧ other.relationsFrom entity = .error e) ∨
    ∃ relations relations', catalog.relationsFrom entity = .ok relations ∧
      other.relationsFrom entity = .ok relations' ∧
      relations.map Relation.bare = relations'.map Relation.bare := by
  have hfrom := h.relationsFrom entity
  cases hleft : catalog.relationsFrom entity with
  | error e =>
    rw [hleft] at hfrom
    exact .inl ⟨e, rfl, map_eq_error_iff.mp hfrom.symm⟩
  | ok relations =>
    rw [hleft] at hfrom
    obtain ⟨relations', hright, hbare⟩ := map_eq_ok_iff.mp hfrom.symm
    exact .inr ⟨relations, relations', rfl, hright, hbare.symm⟩

theorem Schema.Reordered.answersAlike {schema other : Schema} (h : schema.Reordered other)
    {catalog catalog' : Catalog} (hcatalog : schema.catalog = .ok catalog)
    (hcatalog' : other.catalog = .ok catalog') : catalog.AnswersAlike catalog' where
  hasEntity := by
    intro name
    apply Bool.eq_iff_iff.mpr
    rw [Catalog.hasEntity_of_schema hcatalog, Catalog.hasEntity_of_schema hcatalog']
    exact h.declares_iff
  relationsFrom := by
    intro entity
    by_cases hentity : schema.Declares entity
    · rw [Catalog.relationsFrom_of_declares hcatalog hentity,
        Catalog.relationsFrom_of_declares hcatalog' (h.declares_iff.mp hentity)]
      exact congrArg Except.ok (h.relations entity)
    · have hentity' : ¬ other.Declares entity := fun hother => hentity (h.declares_iff.mpr hother)
      rw [Catalog.relationsFrom_of_not_declares hcatalog hentity,
        Catalog.relationsFrom_of_not_declares hcatalog' hentity']

namespace Site

variable {site : Site} {policy : Policy} {relations relations' : List Relation}

theorem checkNames_bare (relations : List Relation) :
    site.checkNames policy (relations.map Relation.bare) = site.checkNames policy relations := by
  simp only [checkNames, unknownNames, List.any_map, Function.comp_def, Relation.bare]

theorem branches_bare (relations : List Relation) :
    site.branches (relations.map Relation.bare) = (site.branches relations).map Branch.bare := by
  simp only [branches, List.filterMap_map, List.map_filterMap]
  apply List.filterMap_congr
  intro relation _
  simp only [Function.comp_apply, Relation.bare, Option.map_map]
  rfl

theorem grow_bare {expandNext : Site → Allowance → Except LookupError Growth}
    (branches : List Branch) (allowance : Allowance) :
    site.grow policy expandNext (branches.map Branch.bare) allowance =
      site.grow policy expandNext branches allowance := by
  induction branches generalizing allowance with
  | nil => rfl
  | cons branch rest ih =>
    match allowance with
    | .spent => rfl
    | .left 0 => rfl
    | .left (nodes + 1) =>
      simp only [List.map_cons, grow, ih]
      rfl

theorem checkNames_congr (h : relations.map Relation.bare = relations'.map Relation.bare) :
    site.checkNames policy relations = site.checkNames policy relations' := by
  rw [← checkNames_bare relations, h, checkNames_bare]

theorem isEmpty_branches_congr (h : relations.map Relation.bare = relations'.map Relation.bare) :
    (site.branches relations).isEmpty = (site.branches relations').isEmpty := by
  have hbranches := congrArg site.branches h
  rw [branches_bare, branches_bare] at hbranches
  rw [← List.isEmpty_map (f := Branch.bare), hbranches, List.isEmpty_map]

theorem grow_branches_congr {expandNext : Site → Allowance → Except LookupError Growth}
    (h : relations.map Relation.bare = relations'.map Relation.bare) (allowance : Allowance) :
    site.grow policy expandNext (site.branches relations) allowance =
      site.grow policy expandNext (site.branches relations') allowance := by
  rw [← grow_bare, ← branches_bare, h, branches_bare, grow_bare]

theorem expand_congr {catalog other : Catalog} (h : catalog.AnswersAlike other) (levels : Nat) :
    expand catalog policy levels = expand other policy levels := by
  induction levels with
  | zero =>
    funext site allowance
    simp only [expand]
    rcases h.relationsFrom_cases site.entity with
      ⟨e, hleft, hright⟩ | ⟨relations, relations', hleft, hright, hbare⟩
    · rw [hleft, hright]
    · rw [hleft, hright]
      simp only [bind, Except.bind, checkNames_congr hbare, isEmpty_branches_congr hbare]
  | succ levels ih =>
    funext site allowance
    simp only [expand, ih]
    rcases h.relationsFrom_cases site.entity with
      ⟨e, hleft, hright⟩ | ⟨relations, relations', hleft, hright, hbare⟩
    · rw [hleft, hright]
    · rw [hleft, hright]
      simp only [bind, Except.bind, checkNames_congr hbare, grow_branches_congr hbare]

end Site

theorem Request.plan_congr {catalog other : Catalog} (h : catalog.AnswersAlike other)
    (request : Request) (policy : Policy) :
    request.plan catalog policy = request.plan other policy := by
  cases hroot : catalog.hasEntity request.rootEntity with
  | false =>
    have hroot' : other.hasEntity request.rootEntity = false := by rw [← h.hasEntity, hroot]
    rw [plan_eq_error_of_hasEntity hroot, plan_eq_error_of_hasEntity hroot']
  | true =>
    have hroot' : other.hasEntity request.rootEntity = true := by rw [← h.hasEntity, hroot]
    obtain ⟨entity, hentity⟩ := Catalog.entity_eq_ok_iff.mpr hroot
    obtain ⟨entity', hentity'⟩ := Catalog.entity_eq_ok_iff.mpr hroot'
    simp only [plan, hentity, hentity', Site.expand_congr h, bind, Except.bind]

/-- The order of the entities and that of relations from different entities do not matter, and
neither do labels and cardinalities. One schema has a catalog if and only if the other has, and the
catalogs give every request under every policy the same plan and the same report, or refuse it for
the same reason. -/
theorem Schema.plan_of_reordered_declarations {schema other : Schema} (h : schema.Reordered other) :
    ((∃ catalog, schema.catalog = .ok catalog) ↔ ∃ catalog, other.catalog = .ok catalog) ∧
    ∀ catalog catalog', schema.catalog = .ok catalog → other.catalog = .ok catalog' →
      ∀ (request : Request) (policy : Policy),
        request.plan catalog policy = request.plan catalog' policy := by
  refine ⟨h.exists_catalog_iff, ?_⟩
  intro catalog catalog' hcatalog hcatalog' request policy
  exact Request.plan_congr (h.answersAlike hcatalog hcatalog') request policy

/-- The family with its pets declared first, and with labels and cardinalities. A strict policy
refuses the toys of a child on both catalogs for the same reason. -/
theorem Schema.plan_of_reordered_declarations_family :
    let petsFirst : Schema := {
      entities := [⟨"pet", some "Pet"⟩, ⟨"person", none⟩]
      relations := [⟨"owner", "pet", "person", some "one"⟩,
        ⟨"children", "person", "person", some "many"⟩, ⟨"pets", "person", "pet", none⟩] }
    let toys : Request := ⟨"person", ⟨[⟨"children", [⟨"toys", []⟩]⟩]⟩⟩
    familySchema.Reordered petsFirst ∧ familySchema.catalog = .ok familyCatalog ∧
      ∃ catalog, petsFirst.catalog = .ok catalog ∧ catalog ≠ familyCatalog ∧
        toys.plan catalog { strict := true } = .error (.unknownRelation "toys" "person") ∧
        familyRequest.plan familyCatalog {} = familyRequest.plan catalog {} := by
  intro petsFirst toys
  have hreordered : familySchema.Reordered petsFirst := by
    constructor
    · exact List.Perm.swap _ _ _
    · intro source
      by_cases hperson : "person" = source
      · subst hperson
        rfl
      · by_cases hpet : "pet" = source
        · subst hpet
          rfl
        · simp [familySchema, petsFirst, hperson, hpet]
  have hcatalog : familySchema.catalog = .ok familyCatalog := rfl
  obtain ⟨hexists, hplan⟩ := Schema.plan_of_reordered_declarations hreordered
  obtain ⟨catalog, hcatalog'⟩ := hexists.mp ⟨familyCatalog, hcatalog⟩
  have hlabel : catalog.entities.get? "pet" = some ⟨"pet", some "Pet"⟩ := by
    cases hcatalog'
    rfl
  refine ⟨hreordered, hcatalog, catalog, hcatalog', ?_, ?_, hplan _ _ hcatalog hcatalog' _ _⟩
  · intro hsame
    rw [hsame] at hlabel
    exact absurd hlabel (by decide)
  · rw [← hplan _ _ hcatalog hcatalog']
    rfl

end Prefetch
