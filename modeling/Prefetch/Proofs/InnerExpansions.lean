import Prefetch.Proofs.KnownEntities
import Prefetch.Proofs.PlanChains

/-!
# Expansions within an expansion

An expansion consists of what happens at its own site and of the expansions behind the branches that
it grows. It is taken apart here once, and then followed along a list of names to the expansions far
inside. Their sites, levels, nodes and remarks are found again in the whole. In the other direction,
every node and every remark of the whole belongs to an expansion inside that has it at its own site.
-/

namespace Prefetch

/-- The path is admitted, and its last name was entered as a relation that repeats itself. -/
def Expression.EntersAgain (e : Expression) (names : List String) (name : String) : Prop :=
  ∃ front before, names = front ++ [name] ∧ e.descend front = some before ∧
    before.repeats name = true

theorem Expression.entersAgain_cons_iff {e sub : Expression} {first : String}
    (hstep : e.step first = some sub) {names : List String} {name : String} :
    e.EntersAgain (first :: names) name ↔
      (names = [] ∧ e.repeats first = true ∧ first = name) ∨ sub.EntersAgain names name := by
  constructor
  · rintro ⟨front, before, hnames, hdescend, hrepeats⟩
    cases front with
    | nil =>
      cases hnames
      cases hdescend
      exact .inl ⟨rfl, hrepeats, rfl⟩
    | cons other front =>
      obtain ⟨rfl, hrest⟩ := List.cons.inj hnames
      obtain ⟨next, hnext, hdescend⟩ := descend_cons_eq_some_iff.mp hdescend
      rw [hstep] at hnext
      cases hnext
      exact .inr ⟨front, before, hrest, hdescend, hrepeats⟩
  · rintro (⟨rfl, hrepeats, rfl⟩ | ⟨front, before, rfl, hdescend, hrepeats⟩)
    · exact ⟨[], e, rfl, rfl, hrepeats⟩
    · exact ⟨first :: front, before, rfl, descend_cons_eq_some_iff.mpr ⟨sub, hstep, hdescend⟩,
        hrepeats⟩

/-- The remark that branches of a site were left out: for want of levels if none remains, and else
for want of nodes. -/
def Site.closingRemark (site : Site) (policy : Policy) : (levels : Nat) → Diagnostic
  | 0 => site.maxDepthReached policy
  | _ + 1 => site.maxNodesReached policy

/-- An expansion that came to an end, with what came of it. -/
structure Expansion (catalog : Catalog) (policy : Policy) where
  site : Site
  levels : Nat
  nodes : Nat
  growth : Growth
  grown : site.expand catalog policy levels (.left nodes) = .ok growth

namespace Expansion

variable {catalog : Catalog} {policy : Policy}

def branches (x : Expansion catalog policy) : List Branch :=
  x.site.branches (catalog.leaving x.site.entity)

/-- An expansion taken apart: the remarks on names, the branches that were grown, each with the
expansion behind it, the branches that were left out, and the remark on these, if one was made. -/
structure Parts (x : Expansion catalog policy) where
  naming : List Diagnostic
  inner : List (Branch × Expansion catalog policy)
  leftOut : List Branch
  closing : List Diagnostic
  naming_eq : x.site.checkNames policy (catalog.leaving x.site.entity) = .ok naming
  site_eq : ∀ part ∈ inner, part.2.site = x.site.next part.1
  levels_eq : ∀ part ∈ inner, x.levels = part.2.levels + 1
  branches_eq : x.branches = inner.map Prod.fst ++ leftOut
  nodes_eq : x.growth.nodes = inner.map fun part => x.site.node part.1 part.2.growth.nodes
  remarks_eq : x.growth.remarks = naming ++ inner.flatMap (·.2.growth.remarks) ++ closing
  closing_eq : (closing = [] ∧ (x.levels = 0 → leftOut = [])) ∨
    (closing = [x.site.closingRemark policy x.levels] ∧ leftOut ≠ [])

theorem exists_inner_of_grow {site : Site} {levels : Nat} {branches : List Branch}
    {allowance : Allowance} {growth : Growth}
    (h : site.grow policy (Site.expand catalog policy levels) branches allowance = .ok growth) :
    ∃ (inner : List (Branch × Expansion catalog policy)) (leftOut : List Branch)
        (closing : List Diagnostic),
      (∀ part ∈ inner, part.2.site = site.next part.1 ∧ part.2.levels = levels) ∧
      branches = inner.map Prod.fst ++ leftOut ∧
      growth.nodes = inner.map (fun part => site.node part.1 part.2.growth.nodes) ∧
      growth.remarks = inner.flatMap (·.2.growth.remarks) ++ closing ∧
      (closing = [] ∨ leftOut ≠ [] ∧ closing = [site.maxNodesReached policy]) := by
  induction branches generalizing allowance growth with
  | nil =>
    cases h
    exact ⟨[], [], [], by simp⟩
  | cons first rest ih =>
    rcases Site.grow_cases h with ⟨hnil, -⟩ | ⟨-, rfl⟩ | ⟨-, rfl⟩ |
      ⟨branch, rest', left, growth, outer, hcons, -, hgrowth, houter, rfl⟩
    · cases hnil
    · exact ⟨[], first :: rest, [], by simp⟩
    · exact ⟨[], first :: rest, [site.maxNodesReached policy], by simp⟩
    · cases hcons
      obtain ⟨inner, leftOut, closing, hinner, hbranches, hnodes, hremarks, hclosing⟩ := ih houter
      refine ⟨(first, ⟨_, levels, left, growth, hgrowth⟩) :: inner, leftOut, closing, ?_, ?_, ?_, ?_,
        hclosing⟩
      · simpa using hinner
      · simp [hbranches]
      · simp [hnodes]
      · simp [hremarks]

theorem exists_parts (x : Expansion catalog policy) : Nonempty x.Parts := by
  obtain ⟨site, levels, nodes, growth, grown⟩ := x
  cases levels with
  | zero =>
    obtain ⟨relations, naming, hfrom, hnaming, rfl⟩ := Site.expand_zero_eq_ok_iff.mp grown
    obtain rfl := Catalog.leaving_eq hfrom
    refine ⟨{
      naming := naming
      inner := []
      leftOut := site.branches (catalog.leaving site.entity)
      closing := if (site.branches (catalog.leaving site.entity)).isEmpty then []
        else [site.maxDepthReached policy]
      naming_eq := hnaming
      site_eq := by simp
      levels_eq := by simp
      branches_eq := rfl
      nodes_eq := rfl
      remarks_eq := by rw [List.flatMap_nil, List.append_nil]
      closing_eq := ?_ }⟩
    by_cases hempty : site.branches (catalog.leaving site.entity) = []
    · exact .inl ⟨by simp [hempty], fun _ => hempty⟩
    · exact .inr ⟨by simp [hempty, Site.closingRemark], hempty⟩
  | succ levels =>
    obtain ⟨relations, naming, grown, hfrom, hnaming, hgrow, rfl⟩ :=
      Site.expand_succ_eq_ok_iff.mp grown
    obtain rfl := Catalog.leaving_eq hfrom
    obtain ⟨inner, leftOut, closing, hinner, hbranches, hnodes, hremarks, hclosing⟩ :=
      exists_inner_of_grow hgrow
    refine ⟨{
      naming := naming
      inner := inner
      leftOut := leftOut
      closing := closing
      naming_eq := hnaming
      site_eq := fun part hpart => (hinner part hpart).1
      levels_eq := fun part hpart => by rw [(hinner part hpart).2]
      branches_eq := hbranches
      nodes_eq := hnodes
      remarks_eq := by simp [hremarks]
      closing_eq := ?_ }⟩
    obtain hnone | ⟨hne, hone⟩ := hclosing
    · exact .inl ⟨hnone, nofun⟩
    · exact .inr ⟨hone, hne⟩

theorem nodup_branches (x : Expansion catalog policy) (hd : catalog.Distinct) :
    (x.branches.map (·.relation.name)).Nodup := by
  have hnames : ((x.branches.map (·.relation)).map (·.name)).Sublist
      ((catalog.leaving x.site.entity).map (·.name)) :=
    (x.site.branches_relation_sublist _).map _
  rw [List.map_map] at hnames
  exact hnames.nodup (hd.nodup_leaving _)

theorem Parts.not_mem_nodes {x : Expansion catalog policy} (parts : x.Parts)
    (hd : catalog.Distinct) {branch : Branch} (h : branch ∈ parts.leftOut) :
    branch.relation.name ∉ x.growth.nodes.map (·.relation) := by
  have hnodup := x.nodup_branches hd
  rw [parts.branches_eq, List.map_append, List.map_map] at hnodup
  rw [parts.nodes_eq, List.map_map]
  intro hmem
  exact (List.nodup_append.mp hnodup).2.2 _ hmem _ (List.mem_map_of_mem h) rfl

/-- One expansion takes place behind a branch of the other: it has one level less, its nodes stand
below the node of the branch, and its remarks are among those of the other. -/
structure Behind (inner outer : Expansion catalog policy) (branch : Branch) : Prop where
  branch_mem : branch ∈ outer.branches
  site_eq : inner.site = outer.site.next branch
  levels_eq : outer.levels = inner.levels + 1
  node_mem : outer.site.node branch inner.growth.nodes ∈ outer.growth.nodes
  remarks_subset : inner.growth.remarks ⊆ outer.growth.remarks

theorem Parts.behind {x : Expansion catalog policy} (parts : x.Parts)
    {part : Branch × Expansion catalog policy} (h : part ∈ parts.inner) :
    part.2.Behind x part.1 where
  branch_mem := by
    rw [parts.branches_eq]
    exact List.mem_append_left _ (List.mem_map_of_mem h)
  site_eq := parts.site_eq part h
  levels_eq := parts.levels_eq part h
  node_mem := by
    rw [parts.nodes_eq]
    exact List.mem_map.mpr ⟨part, h, rfl⟩
  remarks_subset := by
    intro remark hremark
    rw [parts.remarks_eq]
    exact List.mem_append_left _
      (List.mem_append_right _ (List.mem_flatMap.mpr ⟨part, h, hremark⟩))

theorem exists_behind_of_mem_nodes {x : Expansion catalog policy} {node : FetchNode}
    (h : node ∈ x.growth.nodes) :
    ∃ branch, ∃ inner : Expansion catalog policy, inner.Behind x branch ∧
      node = x.site.node branch inner.growth.nodes := by
  obtain ⟨parts⟩ := x.exists_parts
  rw [parts.nodes_eq] at h
  obtain ⟨part, hpart, rfl⟩ := List.mem_map.mp h
  exact ⟨part.1, part.2, parts.behind hpart, rfl⟩

/-- What gives occasion for a remark at the site of an expansion itself: a name that the entity
lacks, or a branch without a node, for want of levels or of nodes. -/
inductive Occasions (x : Expansion catalog policy) : Diagnostic → Prop where
  | unknown {name} (hname : name ∈ x.site.unknownNames (catalog.leaving x.site.entity)) :
      Occasions x (x.site.unknownRelation name)
  | leftOut {branch} (hbranch : branch ∈ x.branches)
      (hnode : branch.relation.name ∉ x.growth.nodes.map (·.relation)) :
      Occasions x (x.site.closingRemark policy x.levels)

/-- Every remark is made at the site itself or behind a branch. -/
theorem occasions_or_exists_behind {x : Expansion catalog policy} (hd : catalog.Distinct)
    {remark : Diagnostic} (h : remark ∈ x.growth.remarks) :
    x.Occasions remark ∨
      ∃ branch, ∃ inner : Expansion catalog policy, inner.Behind x branch ∧
        remark ∈ inner.growth.remarks := by
  obtain ⟨parts⟩ := x.exists_parts
  rw [parts.remarks_eq, List.mem_append, List.mem_append] at h
  obtain (hnaming | hinner) | hclosing := h
  · obtain ⟨name, hname, rfl⟩ := Site.exists_unknownName_of_mem_remarks parts.naming_eq hnaming
    exact .inl (.unknown hname)
  · obtain ⟨part, hpart, hremark⟩ := List.mem_flatMap.mp hinner
    exact .inr ⟨part.1, part.2, parts.behind hpart, hremark⟩
  · obtain ⟨hnone, -⟩ | ⟨hone, hne⟩ := parts.closing_eq
    · rw [hnone] at hclosing
      cases hclosing
    · obtain ⟨branch, hbranch⟩ := List.exists_mem_of_ne_nil _ hne
      have hmem : branch ∈ x.branches := by
        rw [parts.branches_eq]
        exact List.mem_append_right _ hbranch
      rw [hone, List.mem_singleton] at hclosing
      rw [hclosing]
      exact .inl (.leftOut hmem (parts.not_mem_nodes hd hbranch))

theorem unknownRelation_mem_remarks {x : Expansion catalog policy}
    (hlenient : policy.strict = false) (hwarn : policy.warnUnknown = true) {name : String}
    (h : name ∈ x.site.unknownNames (catalog.leaving x.site.entity)) :
    x.site.unknownRelation name ∈ x.growth.remarks := by
  obtain ⟨parts⟩ := x.exists_parts
  have hnaming := parts.naming_eq
  rw [Site.checkNames_of_warns hlenient hwarn] at hnaming
  rw [parts.remarks_eq, List.append_assoc, ← Except.ok.inj hnaming]
  exact List.mem_append_left _ (List.mem_map_of_mem h)

theorem maxDepthReached_mem_remarks {x : Expansion catalog policy} (hlevels : x.levels = 0)
    {branch : Branch} (h : branch ∈ x.branches) :
    x.site.maxDepthReached policy ∈ x.growth.remarks := by
  obtain ⟨parts⟩ := x.exists_parts
  have hinner : parts.inner = [] := by
    rw [List.eq_nil_iff_forall_not_mem]
    intro part hpart
    have hpartLevels := parts.levels_eq part hpart
    omega
  have hbranches := parts.branches_eq
  rw [hinner, List.map_nil, List.nil_append] at hbranches
  obtain ⟨-, hnone⟩ | ⟨hone, -⟩ := parts.closing_eq
  · rw [hbranches, hnone hlevels] at h
    cases h
  · rw [parts.remarks_eq, hone, hlevels]
    exact List.mem_append_right _ (List.mem_singleton_self _)

/-- Where levels remain, a branch has no node only if the growth was cut short. -/
theorem curtailed_of_not_mem_nodes {x : Expansion catalog policy} (hlevels : 0 < x.levels)
    {branch : Branch} (h : branch ∈ x.branches)
    (hnode : branch.relation.name ∉ x.growth.nodes.map (·.relation)) : x.growth.Curtailed := by
  by_contra hfull
  obtain ⟨lower, hlower⟩ : ∃ lower, x.levels = lower + 1 := ⟨x.levels - 1, by omega⟩
  have hexpand := x.grown
  rw [hlower] at hexpand
  obtain ⟨relations, remarks, grown, hfrom, -, hgrow, hgrowth⟩ :=
    Site.expand_succ_eq_ok_iff.mp hexpand
  obtain rfl := Catalog.leaving_eq hfrom
  rw [hgrowth] at hfull hnode
  have hgrownFull : ¬ grown.Curtailed := by
    intro hgrown
    exact hfull (hgrown.mono (List.subset_append_right _ _))
  obtain ⟨left, inner, -, -, hmem⟩ := Site.exists_node_of_mem_branches
    (fun _ _ _ => Site.curtailed_of_expand_spent) hgrow hgrownFull h
  exact hnode (List.mem_map.mpr ⟨_, hmem, rfl⟩)

/-- Following the named branches one after the other leads from an expansion to one inside it. -/
inductive Leads : Expansion catalog policy → List String → Expansion catalog policy → Prop where
  | stay {x} : Leads x [] x
  | step {outer inner last branch names} (behind : inner.Behind outer branch)
      (tail : Leads inner names last) : Leads outer (branch.relation.name :: names) last

namespace Leads

variable {x last : Expansion catalog policy} {names : List String}

theorem concat {inner : Expansion catalog policy} {branch : Branch} (h : x.Leads names last)
    (behind : inner.Behind last branch) : x.Leads (names ++ [branch.relation.name]) inner := by
  induction h with
  | stay => exact .step behind .stay
  | step first _ ih => exact .step first (ih behind)

theorem descend_eq (h : x.Leads names last) :
    x.site.expression.descend names = some last.site.expression := by
  induction h with
  | stay => rfl
  | step behind _ ih =>
    have hstep := (Site.mem_branches.mp behind.branch_mem).2
    rw [behind.site_eq] at ih
    exact Expression.descend_cons_eq_some_iff.mpr ⟨_, hstep, ih⟩

theorem path_eq (h : x.Leads names last) :
    last.site.path = names.foldl DottedPath.extend x.site.path := by
  induction h with
  | stay => rfl
  | step behind _ ih =>
    rw [ih, behind.site_eq]
    rfl

theorem levels_eq (h : x.Leads names last) : x.levels = last.levels + names.length := by
  induction h with
  | stay => rfl
  | step behind _ ih =>
    rw [behind.levels_eq, ih, List.length_cons]
    omega

theorem remarks_subset (h : x.Leads names last) :
    last.growth.remarks ⊆ x.growth.remarks := by
  induction h with
  | stay => exact List.Subset.refl _
  | step behind _ ih => exact List.Subset.trans ih behind.remarks_subset

/-- A site was entered by a repeating relation if the path says so. -/
theorem via_eq_some_iff (h : x.Leads names last) {name : String} :
    last.site.via = some name ↔
      (names = [] ∧ x.site.via = some name) ∨ x.site.expression.EntersAgain names name := by
  induction h with
  | stay => simp [Expression.EntersAgain]
  | @step outer inner last branch names behind tail ih =>
    have hstep := (Site.mem_branches.mp behind.branch_mem).2
    have hvia : (outer.site.next branch).via = some name ↔
        outer.site.expression.repeats branch.relation.name = true ∧
          branch.relation.name = name := by
      simp [Site.next]
    rw [ih, behind.site_eq, hvia, Expression.entersAgain_cons_iff hstep]
    simp [Site.next]

theorem reaches_of_mem (h : x.Leads names last) {node : FetchNode}
    (hnode : node ∈ last.growth.nodes) :
    FetchForest.Reaches x.growth.nodes (names ++ [node.relation]) node := by
  induction h with
  | stay => exact .root hnode
  | step behind _ ih => exact .child behind.node_mem (ih hnode)

theorem mem_of_reaches (h : x.Leads names last) (hd : catalog.Distinct) {next : String}
    {node : FetchNode} (hreach : FetchForest.Reaches x.growth.nodes (names ++ [next]) node) :
    node ∈ last.growth.nodes ∧ node.relation = next := by
  induction h with
  | stay =>
    obtain ⟨-, hmem, hnext⟩ | ⟨parent, -, -, hnil⟩ := FetchForest.reaches_cons_iff.mp hreach
    · exact ⟨hmem, hnext⟩
    · exact absurd rfl hnil.ne_nil
  | @step outer inner last branch names behind _ ih =>
    obtain ⟨hnil, -⟩ | ⟨parent, hmem, hname, htail⟩ := FetchForest.reaches_cons_iff.mp hreach
    · simp at hnil
    · -- siblings differ in their names, so the way goes through the node of the branch
      have hnodup := (Site.lists_of_expand hd outer.grown).1
      have hparent : parent = outer.site.node branch inner.growth.nodes :=
        List.inj_on_of_nodup_map hnodup hmem behind.node_mem hname
      rw [hparent] at htail
      exact ih htail

/-- The names lead to a node on the entity of the expansion inside. -/
theorem exists_reaches (h : x.Leads names last) (hne : names ≠ []) :
    ∃ node, FetchForest.Reaches x.growth.nodes names node ∧ node.entity = last.site.entity := by
  induction h with
  | stay => exact absurd rfl hne
  | @step outer inner last branch names behind tail ih =>
    cases tail with
    | stay =>
      refine ⟨_, .root behind.node_mem, ?_⟩
      rw [behind.site_eq]
      rfl
    | step behind' tail' =>
      obtain ⟨node, hreach, hentity⟩ := ih (List.cons_ne_nil _ _)
      exact ⟨node, .child behind.node_mem hreach, hentity⟩

end Leads

/-- Every chain of nodes ends with the node of a branch of some expansion inside. -/
theorem exists_behind_of_reaches {x : Expansion catalog policy} {names : List String}
    {node : FetchNode} (h : FetchForest.Reaches x.growth.nodes names node) :
    ∃ front branch, ∃ outer inner : Expansion catalog policy,
      names = front ++ [branch.relation.name] ∧ x.Leads front outer ∧ inner.Behind outer branch ∧
        node = outer.site.node branch inner.growth.nodes := by
  generalize hforest : x.growth.nodes = forest at h
  induction h generalizing x with
  | root hmem =>
    subst hforest
    obtain ⟨branch, inner, behind, rfl⟩ := exists_behind_of_mem_nodes hmem
    exact ⟨[], branch, x, inner, rfl, .stay, behind, rfl⟩
  | child hmem _ ih =>
    subst hforest
    obtain ⟨first, next, behind, rfl⟩ := exists_behind_of_mem_nodes hmem
    obtain ⟨front, branch, outer, inner, rfl, hleads, hlast, rfl⟩ := ih rfl
    exact ⟨_ :: front, branch, outer, inner, rfl, .step behind hleads, hlast, rfl⟩

/-- The expansion behind that branch is on the entity of the node. -/
theorem exists_leads_of_reaches {x : Expansion catalog policy} {names : List String}
    {node : FetchNode} (h : FetchForest.Reaches x.growth.nodes names node) :
    ∃ last, x.Leads names last ∧ last.site.entity = node.entity := by
  obtain ⟨front, branch, outer, inner, rfl, hleads, behind, rfl⟩ := exists_behind_of_reaches h
  refine ⟨inner, hleads.concat behind, ?_⟩
  rw [behind.site_eq]
  rfl

/-- Every remark is made at the site of some expansion inside. -/
theorem exists_leads_of_mem_remarks {x : Expansion catalog policy} (hd : catalog.Distinct)
    {remark : Diagnostic} (h : remark ∈ x.growth.remarks) :
    ∃ names last, x.Leads names last ∧ last.Occasions remark := by
  induction hlevels : x.levels generalizing x with
  | zero =>
    obtain hhere | ⟨branch, inner, behind, -⟩ := occasions_or_exists_behind hd h
    · exact ⟨[], x, .stay, hhere⟩
    · have hinner := behind.levels_eq
      omega
  | succ levels ih =>
    obtain hhere | ⟨branch, inner, behind, hremark⟩ := occasions_or_exists_behind hd h
    · exact ⟨[], x, .stay, hhere⟩
    · have hinner : inner.levels = levels := by
        have hstep := behind.levels_eq
        omega
      obtain ⟨names, last, hleads, hlast⟩ := ih hremark hinner
      exact ⟨_, last, .step behind hleads, hlast⟩

end Expansion

/-- What came of an expansion is the plan and the report of a request. -/
structure Expansion.Yields {catalog : Catalog} {policy : Policy} (x : Expansion catalog policy)
    (request : Request) (plan : FetchPlan) (report : Report) : Prop where
  site_eq : x.site = request.site
  levels_eq : x.levels = policy.levels
  plan_eq : plan = ⟨request.rootEntity, request.wanted.text, x.growth.nodes⟩
  report_eq : report = ⟨x.growth.remarks⟩

theorem Request.exists_yields {request : Request} {catalog : Catalog} {policy : Policy}
    {plan : FetchPlan} {report : Report}
    (h : request.plan catalog policy = .ok (plan, report)) :
    ∃ x : Expansion catalog policy, x.Yields request plan report := by
  obtain ⟨entity, growth, -, hgrowth, rfl, rfl⟩ := plan_eq_ok_iff.mp h
  exact ⟨⟨request.site, policy.levels, policy.maxNodes.toNat, growth, hgrowth⟩,
    rfl, rfl, rfl, rfl⟩

namespace Expansion.Yields

variable {request : Request} {catalog : Catalog} {policy : Policy} {plan : FetchPlan}
  {report : Report} {x : Expansion catalog policy}

theorem root_eq (h : x.Yields request plan report) : plan.rootEntity = request.rootEntity := by
  rw [h.plan_eq]

theorem nodes_eq (h : x.Yields request plan report) : plan.nodes = x.growth.nodes := by
  rw [h.plan_eq]

theorem diagnostics_eq (h : x.Yields request plan report) :
    report.diagnostics = x.growth.remarks := by
  rw [h.report_eq]

theorem not_curtailed (h : x.Yields request plan report)
    (hnodes : report.withCode "max_nodes_reached" = []) : ¬ x.growth.Curtailed := by
  rw [h.report_eq] at hnodes
  exact Growth.withCode_eq_nil_iff.mp hnodes

end Expansion.Yields

end Prefetch
