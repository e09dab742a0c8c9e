import Prefetch.Proofs.ExpansionTrace
import Prefetch.Proofs.PlanChains

/-!
# Why planning is refused

On the catalog of a schema there are two reasons to refuse a request. One is a root entity that the
schema does not declare. The other, under a strict policy, is a name that the expression asks for
and that an entity on the way lacks. Relations end on declared entities, so no walk from a declared
root leaves them, however often it goes around a cycle, and no look-up on the way fails.
-/

namespace Prefetch

/-- A name that may be asked for at an entity and is not the name of a relation there. -/
structure Catalog.Lacks (catalog : Catalog) (entity name : String) : Prop where
  unreserved : isReserved name = false
  unknown : ∀ relation ∈ catalog.leaving entity, relation.name ≠ name

namespace Site

variable {catalog : Catalog} {policy : Policy}

/-- On a known entity an expansion is refused either for a name that the entity lacks, by a strict
policy, or because the expansion behind a branch is refused. -/
theorem lacks_or_exists_branch_of_expand_error (hc : catalog.Closed) {levels : Nat} {site : Site}
    {allowance : Allowance} {e : LookupError} (hknown : catalog.hasEntity site.entity = true)
    (h : site.expand catalog policy levels allowance = .error e) :
    (policy.strict = true ∧
      ∃ name, catalog.Lacks site.entity name ∧ e = .unknownRelation name site.entity) ∨
    ∃ lower branch nodes, levels = lower + 1 ∧
      branch ∈ site.branches (catalog.leaving site.entity) ∧
      (site.next branch).expand catalog policy lower (.left nodes) = .error e := by
  have hleaving := hc.relationsFrom_eq hknown
  obtain hfrom | ⟨relations, hfrom, hrefused⟩ := expand_error_cases h
  · rw [hleaving] at hfrom
    cases hfrom
  · rw [hleaving] at hfrom
    cases hfrom
    obtain hnames | ⟨lower, hlevels, hgrow⟩ := hrefused
    · obtain ⟨hstrict, name, hname, he⟩ := exists_unknownName_of_checkNames hnames
      obtain ⟨-, hreserved, hunknown, -⟩ := mem_unknownNames.mp hname
      exact .inl ⟨hstrict, name, ⟨hreserved, hunknown⟩, he⟩
    · obtain ⟨branch, hbranch, nodes, hnext⟩ := exists_branch_of_grow_error hgrow
      exact .inr ⟨lower, branch, nodes, hlevels, hbranch, hnext⟩

/-- So whatever refuses an expansion on a known entity, the policy is strict, and some walk leads to
an entity that lacks the refused name. -/
theorem exists_walk_of_expand_error (hc : catalog.Closed) {levels : Nat} {site : Site}
    {allowance : Allowance} {e : LookupError} (hknown : catalog.hasEntity site.entity = true)
    (h : site.expand catalog policy levels allowance = .error e) :
    policy.strict = true ∧
      ∃ names last name, catalog.Walk site.entity names last ∧ catalog.Lacks last name ∧
        e = .unknownRelation name last := by
  induction levels generalizing site allowance with
  | zero =>
    obtain ⟨hstrict, name, hlacks, he⟩ | ⟨lower, -, -, hlevels, -⟩ :=
      lacks_or_exists_branch_of_expand_error hc hknown h
    · exact ⟨hstrict, [], site.entity, name, .stay, hlacks, he⟩
    · cases hlevels
  | succ levels ih =>
    obtain ⟨hstrict, name, hlacks, he⟩ | ⟨lower, branch, nodes, hlevels, hbranch, hnext⟩ :=
      lacks_or_exists_branch_of_expand_error hc hknown h
    · exact ⟨hstrict, [], site.entity, name, .stay, hlacks, he⟩
    · cases hlevels
      have hrelation := (mem_branches.mp hbranch).1
      obtain ⟨hstrict, names, last, name, hwalk, hlacks, he⟩ :=
        ih (hc.hasEntity_target hrelation) hnext
      have hfrom := hc.relationsFrom_eq hknown
      exact ⟨hstrict, _, last, name, .step hfrom hrelation hwalk, hlacks, he⟩

end Site

theorem Catalog.Lacks.not_declared {schema : Schema} {catalog : Catalog}
    (hcatalog : schema.catalog = .ok catalog) {entity name : String}
    (hknown : catalog.hasEntity entity = true) (h : catalog.Lacks entity name) :
    ∀ relation ∈ schema.relations, relation.source = entity → relation.name ≠ name := by
  have hfrom := (closed_of_schema hcatalog).relationsFrom_eq hknown
  have hleaving := relationsFrom_of_schema hcatalog hfrom
  intro relation hrelation hsource
  apply h.unknown
  rw [hleaving]
  exact List.mem_filter.mpr ⟨hrelation, by simpa using hsource⟩

theorem Request.exists_plan_or_refused {catalog : Catalog} (hc : catalog.Closed)
    {request : Request} (hroot : catalog.hasEntity request.rootEntity = true) (policy : Policy) :
    (∃ plan report, request.plan catalog policy = .ok (plan, report)) ∨
    policy.strict = true ∧
      ∃ names last name, catalog.Walk request.rootEntity names last ∧ catalog.Lacks last name ∧
        request.plan catalog policy = .error (.unknownRelation name last) := by
  cases h : request.plan catalog policy with
  | ok result => exact .inl ⟨result.1, result.2, rfl⟩
  | error e =>
    right
    obtain ⟨entity, hentity⟩ := Catalog.entity_eq_ok_iff.mpr hroot
    simp only [plan, bind_eq_error_iff, hentity] at h
    obtain hfalse | ⟨-, -, hexpand | ⟨growth, -, hlast⟩⟩ := h
    · cases hfalse
    · obtain ⟨hstrict, names, last, name, hwalk, hlacks, rfl⟩ :=
        Site.exists_walk_of_expand_error hc hroot hexpand
      exact ⟨hstrict, names, last, name, hwalk, hlacks, rfl⟩
    · cases hlast

theorem Request.plan_eq_unknownEntity_iff {catalog : Catalog} (hc : catalog.Closed)
    {request : Request} {policy : Policy} {name : String} :
    request.plan catalog policy = .error (.unknownEntity name) ↔
      name = request.rootEntity ∧ catalog.hasEntity request.rootEntity = false := by
  cases hroot : catalog.hasEntity request.rootEntity with
  | false =>
    rw [plan_eq_error_of_hasEntity hroot]
    simp [eq_comm]
  | true =>
    obtain ⟨plan, report, hplan⟩ | ⟨-, names, last, other, -, -, hrefused⟩ :=
      exists_plan_or_refused hc hroot policy
    · simp [hplan]
    · simp [hrefused]

/-- On the catalog of a schema a request is refused for its root entity exactly if the schema does
not declare it. Otherwise every look-up along a walk from the root succeeds, and there is a plan,
unless a strict policy refuses a name that is not reserved and not declared for a declared
entity. -/
theorem Request.plan_refusals {schema : Schema} {catalog : Catalog}
    (hcatalog : schema.catalog = .ok catalog) (request : Request) (policy : Policy) :
    (∀ name, request.plan catalog policy = .error (.unknownEntity name) ↔
      name = request.rootEntity ∧
        ∀ entity ∈ schema.entities, entity.name ≠ request.rootEntity) ∧
    ((∃ entity ∈ schema.entities, entity.name = request.rootEntity) →
      (∀ names last, catalog.Walk request.rootEntity names last →
        ∃ relations, catalog.relationsFrom last = .ok relations) ∧
      ((∃ plan report, request.plan catalog policy = .ok (plan, report)) ∨
        policy.strict = true ∧
          ∃ name entity, request.plan catalog policy = .error (.unknownRelation name entity) ∧
            (∃ known ∈ schema.entities, known.name = entity) ∧ isReserved name = false ∧
            ∀ relation ∈ schema.relations, relation.source = entity → relation.name ≠ name)) := by
  have hc := Catalog.closed_of_schema hcatalog
  have hdeclared : ∀ {name}, catalog.hasEntity name = true ↔
      ∃ entity ∈ schema.entities, entity.name = name := Catalog.hasEntity_of_schema hcatalog
  constructor
  · intro name
    rw [plan_eq_unknownEntity_iff hc, ← Bool.not_eq_true, hdeclared]
    simp only [not_exists, not_and]
  · intro hroot
    rw [← hdeclared] at hroot
    constructor
    · intro names last hwalk
      exact ⟨_, hc.relationsFrom_eq (hc.hasEntity_of_walk hwalk hroot)⟩
    · obtain hplan | ⟨hstrict, names, last, name, hwalk, hlacks, hrefused⟩ :=
        exists_plan_or_refused hc hroot policy
      · exact .inl hplan
      · have hknown := hc.hasEntity_of_walk hwalk hroot
        exact .inr ⟨hstrict, name, last, hrefused, hdeclared.mp hknown, hlacks.unreserved,
          hlacks.not_declared hcatalog hknown⟩

/-- The toys of a child are refused, at the second level of a cycle, and so are the relations of a
car, which is no entity. -/
theorem Request.plan_refusals_family :
    let toys : Request := ⟨"person", ⟨[⟨"children", [⟨"toys", []⟩]⟩]⟩⟩
    let car : Request := ⟨"car", ⟨[⟨"*", []⟩]⟩⟩
    familySchema.catalog = .ok familyCatalog ∧
    (∃ entity ∈ familySchema.entities, entity.name = toys.rootEntity) ∧
    (∀ names last, familyCatalog.Walk toys.rootEntity names last →
      ∃ relations, familyCatalog.relationsFrom last = .ok relations) ∧
    (∃ name entity, toys.plan familyCatalog { strict := true } =
        .error (.unknownRelation name entity) ∧
      (∃ known ∈ familySchema.entities, known.name = entity) ∧ isReserved name = false) ∧
    car.plan familyCatalog {} = .error (.unknownEntity "car") := by
  intro toys car
  have hcatalog : familySchema.catalog = .ok familyCatalog := rfl
  have hroot : ∃ entity ∈ familySchema.entities, entity.name = toys.rootEntity :=
    ⟨_, List.mem_cons_self, rfl⟩
  obtain ⟨hwalks, houtcome⟩ := (plan_refusals hcatalog toys { strict := true }).2 hroot
  have hcar := (plan_refusals hcatalog car {}).1 "car"
  refine ⟨hcatalog, hroot, hwalks, ?_, hcar.mpr ⟨rfl, by decide⟩⟩
  have hrefused : toys.plan familyCatalog { strict := true } =
      .error (.unknownRelation "toys" "person") := rfl
  obtain ⟨plan, report, hplan⟩ | ⟨-, name, entity, hplan, hknown, hreserved, -⟩ := houtcome
  · rw [hrefused] at hplan
    cases hplan
  · exact ⟨name, entity, hplan, hknown, hreserved⟩

end Prefetch
