import Prefetch.Proofs.AdmittedPaths
import Prefetch.Proofs.CatalogWalks
import Prefetch.Proofs.ExpansionSteps

/-!
# The chains of a plan

A chain of a plan leads from a root of the plan down to a node and is read as the list of relation
names on the way. The chains are compared with the walks of the catalog that the expression admits.
Every chain is such a walk, within the limit on depth. In the other direction, every such walk is a
chain as long as no node had to be left out.
-/

namespace Prefetch

inductive FetchForest.Reaches : List FetchNode → List String → FetchNode → Prop where
  | root {forest node} (hmem : node ∈ forest) : Reaches forest [node.relation] node
  | child {forest parent names node} (hmem : parent ∈ forest)
      (tail : Reaches parent.children names node) : Reaches forest (parent.relation :: names) node

theorem FetchForest.Reaches.ne_nil {forest : List FetchNode} {names : List String}
    {node : FetchNode} (h : FetchForest.Reaches forest names node) : names ≠ [] := by
  cases h with
  | root => exact List.cons_ne_nil _ _
  | child => exact List.cons_ne_nil _ _

theorem FetchForest.reaches_cons_iff {forest : List FetchNode} {name : String}
    {names : List String} {node : FetchNode} :
    FetchForest.Reaches forest (name :: names) node ↔
      (names = [] ∧ node ∈ forest ∧ node.relation = name) ∨
        ∃ parent ∈ forest, parent.relation = name ∧
          FetchForest.Reaches parent.children names node := by
  constructor
  · intro h
    cases h with
    | root hmem => exact .inl ⟨rfl, hmem, rfl⟩
    | child hmem tail => exact .inr ⟨_, hmem, rfl, tail⟩
  · rintro (⟨rfl, hmem, rfl⟩ | ⟨parent, hmem, rfl, tail⟩)
    · exact .root hmem
    · exact .child hmem tail

namespace FetchPlan

/-- The names on the way from a root of the plan down to a node. -/
def Reaches (plan : FetchPlan) (names : List String) (node : FetchNode) : Prop :=
  FetchForest.Reaches plan.nodes names node

/-- The siblings that stand together in a plan, with the entity whose relations they are: the
roots, or the children of a node. -/
inductive Siblings (plan : FetchPlan) : String → List FetchNode → Prop where
  | roots : Siblings plan plan.rootEntity plan.nodes
  | children {names node} (hreach : plan.Reaches names node) :
      Siblings plan node.entity node.children

end FetchPlan

/-- Relations of an entity, each with the entity on which it ends, in the order of the catalog and
without repetition. -/
def Catalog.Lists (catalog : Catalog) (entity : String) (siblings : List FetchNode) : Prop :=
  (siblings.map (·.relation)).Nodup ∧
    ∃ relations, catalog.relationsFrom entity = .ok relations ∧
      (siblings.map fun node => (node.relation, node.entity)).Sublist
        (relations.map fun relation => (relation.name, relation.target))

namespace Site

variable {catalog : Catalog} {policy : Policy}

/-- A node of an expansion belongs to a relation that leaves the entity and that the expression
selects. Below it stands the expansion of the site behind that relation. -/
theorem exists_branch_of_mem_expand {levels : Nat} {site : Site} {allowance : Allowance}
    {growth : Growth} (h : site.expand catalog policy levels allowance = .ok growth)
    {node : FetchNode} (hnode : node ∈ growth.nodes) :
    ∃ relations lower branch left inner, catalog.relationsFrom site.entity = .ok relations ∧
      levels = lower + 1 ∧ branch ∈ site.branches relations ∧
      (site.next branch).expand catalog policy lower left = .ok inner ∧
      node = site.node branch inner.nodes := by
  cases levels with
  | zero =>
    obtain ⟨relations, remarks, -, -, rfl⟩ := expand_zero_eq_ok_iff.mp h
    cases hnode
  | succ levels =>
    obtain ⟨relations, remarks, grown, hfrom, -, hgrow, rfl⟩ := expand_succ_eq_ok_iff.mp h
    obtain ⟨branch, hbranch, left, inner, hinner, rfl⟩ := exists_branch_of_mem_grow hgrow hnode
    exact ⟨relations, levels, branch, left, inner, hfrom, rfl, hbranch, hinner, rfl⟩

/-- What every chain of an expansion satisfies: it is a walk of the catalog to the entity of its
last node, it is no longer than the levels, and the expression descends along it. The flag of the
last node is read off the expression in front of the last name. -/
structure IsChain (catalog : Catalog) (levels : Nat) (site : Site) (names : List String)
    (node : FetchNode) : Prop where
  walk : catalog.Walk site.entity names node.entity
  length_le : names.length ≤ levels
  admitted : site.expression.Admits names
  flag : ∃ front name before, names = front ++ [name] ∧
    site.expression.descend front = some before ∧
    node.recursive = (before.selectsAll || before.repeats name)

theorem isChain_of_reaches {levels : Nat} {site : Site} {allowance : Allowance} {growth : Growth}
    (h : site.expand catalog policy levels allowance = .ok growth) {names : List String}
    {node : FetchNode} (hreach : FetchForest.Reaches growth.nodes names node) :
    site.IsChain catalog levels names node := by
  generalize hforest : growth.nodes = forest at hreach
  -- along the chain; the site moves on with every name
  induction hreach generalizing levels site allowance growth with
  | @root forest node hmem =>
    subst hforest
    obtain ⟨relations, lower, branch, left, inner, hfrom, rfl, hbranch, hinner, rfl⟩ :=
      exists_branch_of_mem_expand h hmem
    obtain ⟨hrelation, hstep⟩ := mem_branches.mp hbranch
    refine ⟨.step hfrom hrelation .stay, by simp, ?_, ?_⟩
    · exact Expression.admits_cons_iff.mpr ⟨_, hstep, Expression.admits_nil _⟩
    · exact ⟨[], branch.relation.name, site.expression, rfl, rfl, Bool.or_comm _ _⟩
  | @child forest parent names node hmem tail ih =>
    subst hforest
    obtain ⟨relations, lower, branch, left, inner, hfrom, rfl, hbranch, hinner, rfl⟩ :=
      exists_branch_of_mem_expand h hmem
    obtain ⟨hrelation, hstep⟩ := mem_branches.mp hbranch
    have hchain := ih hinner rfl
    refine ⟨.step hfrom hrelation hchain.walk, ?_, ?_, ?_⟩
    · simpa using hchain.length_le
    · exact Expression.admits_cons_iff.mpr ⟨_, hstep, hchain.admitted⟩
    · obtain ⟨front, name, before, rfl, hdescend, hflag⟩ := hchain.flag
      refine ⟨branch.relation.name :: front, name, before, rfl, ?_, hflag⟩
      exact Expression.descend_cons_eq_some_iff.mpr ⟨_, hstep, hdescend⟩

/-- A walk within the levels that the expression admits is a chain, unless a node was left out. -/
theorem exists_reaches_of_walk {entity : String} {names : List String} {last : String}
    (hwalk : catalog.Walk entity names last) {levels : Nat} {site : Site} {nodes : Nat}
    {growth : Growth} (h : site.expand catalog policy levels (.left nodes) = .ok growth)
    (hfull : ¬ growth.Curtailed) (hentity : site.entity = entity) (hne : names ≠ [])
    (hlength : names.length ≤ levels) (hadmits : site.expression.Admits names) :
    ∃ node, FetchForest.Reaches growth.nodes names node ∧ node.entity = last := by
  induction hwalk generalizing levels site nodes growth with
  | stay => exact absurd rfl hne
  | @step entity relations relation names last hfrom hmem tail ih =>
    subst hentity
    obtain ⟨lower, rfl⟩ := Nat.exists_eq_add_of_lt (Nat.lt_of_lt_of_le (Nat.succ_pos _) hlength)
    simp only [Nat.zero_add] at h hlength
    obtain ⟨relations', remarks, grown, hfrom', -, hgrow, rfl⟩ := expand_succ_eq_ok_iff.mp h
    rw [hfrom] at hfrom'
    cases hfrom'
    have hgrownFull : ¬ grown.Curtailed := by
      intro hgrown
      exact hfull (hgrown.mono (List.subset_append_right _ _))
    obtain ⟨sub, hstep, hsub⟩ := Expression.admits_cons_iff.mp hadmits
    obtain ⟨left, inner, hinner, hinnerFull, hnode⟩ :=
      exists_node_of_mem_branches (fun _ _ _ => curtailed_of_expand_spent) hgrow hgrownFull
        (mem_branches.mpr ⟨hmem, hstep⟩ : (⟨relation, sub⟩ : Branch) ∈ site.branches relations)
    by_cases hnil : names = []
    · subst hnil
      cases tail
      exact ⟨_, .root hnode, rfl⟩
    · obtain ⟨node, hreach, hlast⟩ :=
        ih hinner hinnerFull rfl hnil (Nat.le_of_succ_le_succ hlength) hsub
      exact ⟨node, .child hnode hreach, hlast⟩

theorem lists_of_expand (hd : catalog.Distinct) {levels : Nat} {site : Site}
    {allowance : Allowance} {growth : Growth}
    (h : site.expand catalog policy levels allowance = .ok growth) :
    catalog.Lists site.entity growth.nodes := by
  cases levels with
  | zero =>
    obtain ⟨relations, remarks, hfrom, -, rfl⟩ := expand_zero_eq_ok_iff.mp h
    exact ⟨List.nodup_nil, relations, hfrom, List.nil_sublist _⟩
  | succ levels =>
    obtain ⟨relations, remarks, grown, hfrom, -, hgrow, rfl⟩ := expand_succ_eq_ok_iff.mp h
    have hsub : (grown.nodes.map fun node => (node.relation, node.entity)).Sublist
        (relations.map fun relation => (relation.name, relation.target)) := by
      have hbranches := (site.branches_relation_sublist relations).map
        fun relation => (relation.name, relation.target)
      rw [List.map_map] at hbranches
      exact (grow_isPrefix hgrow).sublist.trans hbranches
    have hnames : (grown.nodes.map (·.relation)).Sublist (relations.map (·.name)) := by
      have hfst := hsub.map Prod.fst
      rw [List.map_map, List.map_map] at hfst
      exact hfst
    have hnodup := hd _ _ (Catalog.relationsFrom_eq_ok_iff.mp hfrom)
    exact ⟨hnames.nodup hnodup, relations, hfrom, hsub⟩

theorem lists_children_of_reaches (hd : catalog.Distinct) {levels : Nat} {site : Site}
    {allowance : Allowance} {growth : Growth}
    (h : site.expand catalog policy levels allowance = .ok growth) {names : List String}
    {node : FetchNode} (hreach : FetchForest.Reaches growth.nodes names node) :
    catalog.Lists node.entity node.children := by
  generalize hforest : growth.nodes = forest at hreach
  induction hreach generalizing levels site allowance growth with
  | root hmem =>
    subst hforest
    obtain ⟨relations, lower, branch, left, inner, -, -, -, hinner, rfl⟩ :=
      exists_branch_of_mem_expand h hmem
    exact lists_of_expand hd hinner
  | child hmem tail ih =>
    subst hforest
    obtain ⟨relations, lower, branch, left, inner, -, -, -, hinner, rfl⟩ :=
      exists_branch_of_mem_expand h hmem
    exact ih hinner rfl

end Site

namespace Request

variable {request : Request} {catalog : Catalog} {policy : Policy} {plan : FetchPlan}
  {report : Report}

theorem isChain_of_reaches (h : request.plan catalog policy = .ok (plan, report))
    {names : List String} {node : FetchNode} (hreach : plan.Reaches names node) :
    request.site.IsChain catalog policy.levels names node := by
  obtain ⟨entity, growth, -, hgrowth, rfl, -⟩ := plan_eq_ok_iff.mp h
  exact Site.isChain_of_reaches hgrowth hreach

theorem exists_reaches_of_walk (h : request.plan catalog policy = .ok (plan, report))
    (hfull : report.withCode "max_nodes_reached" = []) {names : List String} {last : String}
    (hwalk : catalog.Walk request.rootEntity names last) (hne : names ≠ [])
    (hlength : names.length ≤ policy.levels) (hadmits : request.wanted.Admits names) :
    ∃ node, plan.Reaches names node ∧ node.entity = last := by
  obtain ⟨entity, growth, -, hgrowth, rfl, rfl⟩ := plan_eq_ok_iff.mp h
  exact Site.exists_reaches_of_walk hwalk hgrowth (Growth.withCode_eq_nil_iff.mp hfull) rfl hne
    hlength hadmits

theorem lists_of_siblings (hd : catalog.Distinct)
    (h : request.plan catalog policy = .ok (plan, report)) {entity : String}
    {siblings : List FetchNode} (hsiblings : plan.Siblings entity siblings) :
    catalog.Lists entity siblings := by
  obtain ⟨root, growth, -, hgrowth, rfl, -⟩ := plan_eq_ok_iff.mp h
  cases hsiblings with
  | roots => exact Site.lists_of_expand hd hgrowth
  | children hreach => exact Site.lists_children_of_reaches hd hgrowth hreach

end Request

theorem Policy.length_le_levels_iff {policy : Policy} {names : List String} (hne : names ≠ []) :
    names.length ≤ policy.levels ↔ (names.length : Int) ≤ policy.maxDepth := by
  have hpos : 0 < names.length := List.length_pos_iff.mpr hne
  simp only [Policy.levels]
  omega

/-- The chains of a plan are the walks of the catalog that the expression admits, within the limit
on depth. A node is flagged if the expression in front of it selects everything or repeats its
relation. Siblings are distinct relations of one entity in the order of the catalog, which is the
order of declaration. If nothing was left out for want of nodes, then no such walk is missing. -/
theorem plan_chains_exact {schema : Schema} {catalog : Catalog} {request : Request}
    {policy : Policy} {plan : FetchPlan} {report : Report}
    (hcatalog : schema.catalog = .ok catalog)
    (hplan : request.plan catalog policy = .ok (plan, report)) :
    (∀ names node, plan.Reaches names node →
      catalog.Walk request.rootEntity names node.entity ∧
      (names.length : Int) ≤ policy.maxDepth ∧
      request.wanted.Admits names ∧
      ∃ front name before, names = front ++ [name] ∧
        request.wanted.descend front = some before ∧
        (node.recursive = true ↔ before.selectsAll = true ∨ before.repeats name = true)) ∧
    (∀ entity siblings, plan.Siblings entity siblings →
      catalog.Lists entity siblings ∧
      catalog.relationsFrom entity = .ok (schema.relations.filter (·.source == entity))) ∧
    (report.withCode "max_nodes_reached" = [] → ∀ names last, names ≠ [] →
      catalog.Walk request.rootEntity names last → (names.length : Int) ≤ policy.maxDepth →
      request.wanted.Admits names → ∃ node, plan.Reaches names node ∧ node.entity = last) := by
  refine ⟨?_, ?_, ?_⟩
  · intro names node hreach
    have hchain := Request.isChain_of_reaches hplan hreach
    obtain ⟨front, name, before, rfl, hdescend, hflag⟩ := hchain.flag
    refine ⟨hchain.walk, ?_, hchain.admitted, front, name, before, rfl, hdescend, ?_⟩
    · exact (Policy.length_le_levels_iff (by simp)).mp hchain.length_le
    · rw [hflag, Bool.or_eq_true]
  · intro entity siblings hsiblings
    have hlists := Request.lists_of_siblings (Catalog.distinct_of_schema hcatalog) hplan hsiblings
    obtain ⟨relations, hfrom, -⟩ := hlists.2
    rw [Catalog.relationsFrom_of_schema hcatalog hfrom] at hfrom
    exact ⟨hlists, hfrom⟩
  · intro hfull names last hne hwalk hlength hadmits
    exact Request.exists_reaches_of_walk hplan hfull hwalk hne
      ((Policy.length_le_levels_iff hne).mpr hlength) hadmits

/-- People have children and pets, and pets have owners: a schema with two cycles. -/
def familySchema : Schema where
  entities := [⟨"person", none⟩, ⟨"pet", none⟩]
  relations := [⟨"children", "person", "person", none⟩, ⟨"owner", "pet", "person", none⟩,
    ⟨"pets", "person", "pet", none⟩]

def familyCatalog : Catalog where
  entities := ⟨[("person", ⟨"person", none⟩), ("pet", ⟨"pet", none⟩)]⟩
  outgoing := ⟨[("person", [⟨"children", "person", "person", none⟩,
    ⟨"pets", "person", "pet", none⟩]), ("pet", [⟨"owner", "pet", "person", none⟩])]⟩

def familyRequest : Request :=
  ⟨"person", ⟨[⟨"pets", [⟨"owner", []⟩]⟩, ⟨"children", [⟨"^", []⟩]⟩]⟩⟩

theorem plan_chains_exact_family :
    ∃ plan report, familySchema.catalog = .ok familyCatalog ∧
      familyRequest.plan familyCatalog { maxDepth := 2 } = .ok (plan, report) ∧
      (∀ names node, plan.Reaches names node → (names.length : Int) ≤ 2) ∧
      familyCatalog.Lists plan.rootEntity plan.nodes ∧
      ∃ node, plan.Reaches ["children", "children"] node ∧ node.entity = "person" := by
  have hcatalog : familySchema.catalog = .ok familyCatalog := rfl
  have hfrom : ∃ relations, familyCatalog.relationsFrom "person" = .ok relations ∧
      ⟨"children", "person", "person", none⟩ ∈ relations := ⟨_, rfl, List.mem_cons_self⟩
  obtain ⟨relations, hrelations, hmem⟩ := hfrom
  have hplan : ∃ plan report, familyRequest.plan familyCatalog { maxDepth := 2 } =
      .ok (plan, report) ∧ report.withCode "max_nodes_reached" = [] := ⟨_, _, rfl, rfl⟩
  obtain ⟨plan, report, hplan, hfull⟩ := hplan
  refine ⟨plan, report, hcatalog, hplan, ?_⟩
  obtain ⟨hsound, hsiblings, hcomplete⟩ := plan_chains_exact hcatalog hplan
  refine ⟨fun names node hreach => (hsound names node hreach).2.1, (hsiblings _ _ .roots).1, ?_⟩
  exact hcomplete hfull ["children", "children"] "person" (by simp)
    (.step hrelations hmem (.step hrelations hmem .stay)) (by decide) ⟨_, rfl⟩

end Prefetch
