import Prefetch.Proofs.InnerExpansions
import Prefetch.Proofs.ReplayOutcome
import Mathlib.Data.List.Induction

/-!
# Why a path is missing from a plan

A path that the expression admits and that is no chain of the plan leaves the plan at some place:
the plan has the path up to there, the expression asks for a next name, and there is no node for it.
Such a gap is explained by a remark. If the entity has no relation of that name, then the name is
remarked on as unknown, except where the expression does not count on it. If it has one, then the
levels or the nodes ran out, and a remark says which. In the other direction, every remark belongs
to a gap of its kind.
-/

namespace Prefetch

/-- A place of a plan, with the names that lead to it and the entity that is found there: the root,
or a node. -/
inductive FetchPlan.Place (plan : FetchPlan) : List String → String → Prop where
  | root : Place plan [] plan.rootEntity
  | node {names node} (hreach : plan.Reaches names node) : Place plan names node.entity

/-- A place of a plan, and a name that the expression asks for there and that has no node. -/
structure Gap (plan : FetchPlan) (wanted : Expression) where
  front : List String
  next : String
  entity : String
  here : Expression
  place : plan.Place front entity
  descend_eq : wanted.descend front = some here
  selected : (here.step next).isSome = true
  missing : ∀ node, ¬ plan.Reaches (front ++ [next]) node

namespace Gap

variable {plan : FetchPlan} {wanted : Expression}

def path (gap : Gap plan wanted) : String := DottedPath.ofNames gap.front

/-- The expression does not count on the name: everything is selected, the name is reserved, or it
was just entered as a relation that repeats itself. -/
def Quiet (gap : Gap plan wanted) : Prop :=
  gap.here.selectsAll = true ∨ isReserved gap.next = true ∨
    wanted.EntersAgain gap.front gap.next

end Gap

def Catalog.Offers (catalog : Catalog) (entity name : String) : Prop :=
  ∃ relation, catalog.relation entity name = .ok relation

theorem Catalog.offers_iff {catalog : Catalog} {entity name : String} :
    catalog.Offers entity name ↔ ∃ relation ∈ catalog.leaving entity, relation.name = name := by
  simp only [Offers, relation, bind_eq_ok_iff, relationsFrom_eq_ok_iff, leaving]
  cases catalog.outgoing.get? entity with
  | none => simp
  | some relations =>
    simp only [Option.some.injEq, exists_eq_left', Option.getD_some]
    cases hfind : relations.find? (·.name == name) with
    | none => simpa using hfind
    | some found =>
      have hname : found.name = name := by simpa using List.find?_some hfind
      simpa using ⟨found, List.mem_of_find?_eq_some hfind, hname⟩

theorem Catalog.Walk.offers {catalog : Catalog} {entity last name : String} {names : List String}
    (h : catalog.Walk entity (name :: names) last) : catalog.Offers entity name := by
  cases h with
  | step hfrom hmem tail =>
    rw [← leaving_eq hfrom] at hmem
    exact offers_iff.mpr ⟨_, hmem, rfl⟩

/-- A gap accounts for a remark of the kind that it calls for: on an unknown name, or at its place on
the levels or the nodes that ran out. -/
inductive Gap.AccountsFor {plan : FetchPlan} {wanted : Expression} (catalog : Catalog)
    (policy : Policy) (gap : Gap plan wanted) (remark : Diagnostic) : Prop where
  | unknown (hcode : remark.code = "unknown_relation")
      (hpath : remark.path = DottedPath.extend gap.path gap.next)
      (hmessage : remark.message =
        "relation '" ++ gap.next ++ "' is not defined on entity '" ++ gap.entity ++ "'")
      (hlacks : ¬ catalog.Offers gap.entity gap.next) (hcounts : ¬ gap.Quiet)
  | depth (hcode : remark.code = "max_depth_reached") (hpath : remark.path = gap.path)
      (hoffers : catalog.Offers gap.entity gap.next) (hlevels : policy.maxDepth ≤ gap.front.length)
  | nodes (hcode : remark.code = "max_nodes_reached") (hpath : remark.path = gap.path)
      (hoffers : catalog.Offers gap.entity gap.next) (hlevels : gap.front.length < policy.maxDepth)

theorem FetchForest.Reaches.of_append {forest : List FetchNode} {front rest : List String}
    {node : FetchNode} (h : FetchForest.Reaches forest (front ++ rest) node) (hne : front ≠ []) :
    ∃ parent, FetchForest.Reaches forest front parent := by
  induction front generalizing forest with
  | nil => exact absurd rfl hne
  | cons name front ih =>
    obtain ⟨hnil, hmem, rfl⟩ | ⟨parent, hmem, rfl, tail⟩ := FetchForest.reaches_cons_iff.mp h
    · obtain ⟨rfl, -⟩ := List.append_eq_nil_iff.mp hnil
      exact ⟨node, .root hmem⟩
    · by_cases hfront : front = []
      · subst hfront
        exact ⟨parent, .root hmem⟩
      · obtain ⟨last, hlast⟩ := ih tail hfront
        exact ⟨last, .child hmem hlast⟩

theorem FetchPlan.exists_last_place {plan : FetchPlan} {names : List String} (hne : names ≠ [])
    (h : ∀ node, ¬ plan.Reaches names node) :
    ∃ front next rest entity, names = front ++ next :: rest ∧ plan.Place front entity ∧
      ∀ node, ¬ plan.Reaches (front ++ [next]) node := by
  induction names using List.reverseRecOn with
  | nil => exact absurd rfl hne
  | append_singleton init last ih =>
    by_cases hinit : init = []
    · subst hinit
      exact ⟨[], last, [], plan.rootEntity, rfl, .root, h⟩
    · by_cases hheld : ∃ node, plan.Reaches init node
      · obtain ⟨node, hreach⟩ := hheld
        exact ⟨init, last, [], node.entity, rfl, .node hreach, h⟩
      · obtain ⟨front, next, rest, entity, rfl, hplace, hmissing⟩ :=
          ih hinit fun node hreach => hheld ⟨node, hreach⟩
        exact ⟨front, next, rest ++ [last], entity, by simp, hplace, hmissing⟩

/-- A path that is no chain leaves the plan at a gap, and no longer part of it is a chain. -/
theorem Gap.exists_of_missing {plan : FetchPlan} {wanted : Expression} {names : List String}
    (hadmits : wanted.Admits names) (hne : names ≠ []) (h : ∀ node, ¬ plan.Reaches names node) :
    ∃ gap : Gap plan wanted, (∃ rest, names = gap.front ++ gap.next :: rest) ∧
      ∀ held node, held <+: names → plan.Reaches held node → held <+: gap.front := by
  obtain ⟨front, next, rest, entity, rfl, hplace, hmissing⟩ := FetchPlan.exists_last_place hne h
  obtain ⟨here, hdescend, hrest⟩ := Expression.admits_append_iff.mp hadmits
  obtain ⟨sub, hstep, -⟩ := Expression.admits_cons_iff.mp hrest
  have hselected : (here.step next).isSome = true := by rw [hstep]; rfl
  refine ⟨⟨front, next, entity, here, hplace, hdescend, hselected, hmissing⟩, ⟨rest, rfl⟩, ?_⟩
  intro held node hheld hreach
  have hshort : front ++ [next] <+: front ++ next :: rest := ⟨rest, by simp⟩
  obtain hle | ⟨more, rfl⟩ := List.prefix_or_prefix_of_prefix hheld hshort
  · obtain rfl | hfront := List.prefix_concat_iff.mp hle
    · exact absurd hreach (hmissing node)
    · exact hfront
  · -- a chain that went on behind the gap would go through it
    obtain ⟨parent, hparent⟩ := FetchForest.Reaches.of_append hreach (by simp)
    exact absurd hparent (hmissing parent)

/-- A gap at the site of an expansion that makes part of a report. -/
structure Gap.At {plan : FetchPlan} {wanted : Expression} {catalog : Catalog} {policy : Policy}
    (gap : Gap plan wanted) (x : Expansion catalog policy) (report : Report) : Prop where
  entity_eq : x.site.entity = gap.entity
  expression_eq : x.site.expression = gap.here
  path_eq : x.site.path = gap.path
  levels_eq : policy.levels = x.levels + gap.front.length
  via_eq_iff : x.site.via = some gap.next ↔ wanted.EntersAgain gap.front gap.next
  not_mem : gap.next ∉ x.growth.nodes.map (·.relation)
  remarks_subset : x.growth.remarks ⊆ report.diagnostics

namespace Expansion.Yields

variable {catalog : Catalog} {policy : Policy} {x : Expansion catalog policy} {request : Request}
  {plan : FetchPlan} {report : Report}

theorem exists_leads (h : x.Yields request plan report) {names : List String} {entity : String}
    (hplace : plan.Place names entity) :
    ∃ last, x.Leads names last ∧ last.site.entity = entity := by
  cases hplace with
  | root =>
    refine ⟨x, .stay, ?_⟩
    rw [h.site_eq, h.root_eq]
    rfl
  | node hreach =>
    rw [FetchPlan.Reaches, h.nodes_eq] at hreach
    exact exists_leads_of_reaches hreach

theorem place (h : x.Yields request plan report) {names : List String}
    {last : Expansion catalog policy} (hleads : x.Leads names last) :
    plan.Place names last.site.entity := by
  by_cases hne : names = []
  · subst hne
    cases hleads
    have hroot : x.site.entity = plan.rootEntity := by
      rw [h.site_eq, h.root_eq]
      rfl
    rw [hroot]
    exact .root
  · obtain ⟨node, hreach, hentity⟩ := hleads.exists_reaches hne
    rw [← h.nodes_eq] at hreach
    rw [← hentity]
    exact .node hreach

/-- Where the names of a gap lead, the gap is found. -/
theorem gap_at (h : x.Yields request plan report) {last : Expansion catalog policy}
    (gap : Gap plan request.wanted) (hleads : x.Leads gap.front last)
    (hentity : last.site.entity = gap.entity) : gap.At last report where
  entity_eq := hentity
  expression_eq := by
    have hdescend := hleads.descend_eq
    rw [h.site_eq] at hdescend
    exact Option.some.inj (hdescend.symm.trans gap.descend_eq)
  path_eq := by
    rw [hleads.path_eq, h.site_eq]
    rfl
  levels_eq := by rw [← h.levels_eq, hleads.levels_eq]
  via_eq_iff := by
    rw [hleads.via_eq_some_iff, h.site_eq]
    simp [Request.site]
  not_mem := by
    intro hmem
    obtain ⟨node, hnode, hnext⟩ := List.mem_map.mp hmem
    have hreach := hleads.reaches_of_mem hnode
    rw [hnext, ← h.nodes_eq] at hreach
    exact gap.missing node hreach
  remarks_subset := by
    rw [h.diagnostics_eq]
    exact hleads.remarks_subset

theorem exists_at (h : x.Yields request plan report) (gap : Gap plan request.wanted) :
    ∃ last : Expansion catalog policy, gap.At last report := by
  obtain ⟨last, hleads, hentity⟩ := h.exists_leads gap.place
  exact ⟨last, h.gap_at gap hleads hentity⟩

/-- A name that is asked for at an expansion inside and has no node there makes a gap. -/
theorem exists_gap_at (h : x.Yields request plan report) (hd : catalog.Distinct)
    {names : List String} {last : Expansion catalog policy} (hleads : x.Leads names last)
    {next : String} (hselected : (last.site.expression.step next).isSome = true)
    (hnode : next ∉ last.growth.nodes.map (·.relation)) :
    ∃ gap : Gap plan request.wanted, gap.next = next ∧ gap.At last report := by
  have hmissing : ∀ node, ¬ plan.Reaches (names ++ [next]) node := by
    intro node hreach
    rw [FetchPlan.Reaches, h.nodes_eq] at hreach
    obtain ⟨hmem, hnext⟩ := hleads.mem_of_reaches hd hreach
    exact hnode (List.mem_map.mpr ⟨node, hmem, hnext⟩)
  have hdescend := hleads.descend_eq
  rw [h.site_eq] at hdescend
  let gap : Gap plan request.wanted :=
    ⟨names, next, last.site.entity, last.site.expression, h.place hleads, hdescend, hselected,
      hmissing⟩
  exact ⟨gap, rfl, h.gap_at gap hleads rfl⟩

end Expansion.Yields

theorem Expression.isReserved_of_selectsAll {e : Expression} (h : e.selectsAll = true)
    {name : String} (hname : name ∈ e.rootNames) : isReserved name = true := by
  rw [selectsAll] at h
  split at h
  case h_1 node hnodes =>
    have hroot : name = node.name := by simpa [rootNames, hnodes] using hname
    rw [isReserved, hroot, h, Bool.true_or]
  case h_2 => cases h

namespace Gap.At

variable {catalog : Catalog} {policy : Policy} {plan : FetchPlan} {wanted : Expression}
  {gap : Gap plan wanted} {x : Expansion catalog policy} {report : Report}

theorem levels_eq_zero_iff (h : gap.At x report) :
    x.levels = 0 ↔ policy.maxDepth ≤ gap.front.length := by
  have hlevels := h.levels_eq
  simp only [Policy.levels] at hlevels
  omega

theorem exists_branch_iff (h : gap.At x report) :
    (∃ branch ∈ x.branches, branch.relation.name = gap.next) ↔
      catalog.Offers gap.entity gap.next := by
  rw [Catalog.offers_iff, ← h.entity_eq]
  constructor
  · rintro ⟨branch, hbranch, hname⟩
    exact ⟨branch.relation, (Site.mem_branches.mp hbranch).1, hname⟩
  · rintro ⟨relation, hrelation, hname⟩
    obtain ⟨sub, hstep⟩ := Option.isSome_iff_exists.mp gap.selected
    rw [← h.expression_eq, ← hname] at hstep
    exact ⟨⟨relation, sub⟩, Site.mem_branches.mpr ⟨hrelation, hstep⟩, hname⟩

theorem mem_unknownNames_iff (h : gap.At x report) :
    gap.next ∈ x.site.unknownNames (catalog.leaving x.site.entity) ↔
      ¬ catalog.Offers gap.entity gap.next ∧ ¬ gap.Quiet := by
  rw [Site.mem_unknownNames, Catalog.offers_iff, Quiet, Ne, h.via_eq_iff, h.entity_eq,
    h.expression_eq]
  simp only [not_exists, not_and, not_or, Bool.not_eq_true]
  constructor
  · rintro ⟨hroot, hreserved, hlacks, hvia⟩
    refine ⟨hlacks, ?_, hreserved, hvia⟩
    by_contra hall
    rw [Bool.not_eq_false] at hall
    rw [Expression.isReserved_of_selectsAll hall hroot] at hreserved
    cases hreserved
  · rintro ⟨hlacks, hall, hreserved, hvia⟩
    obtain ⟨sub, hstep⟩ := Option.isSome_iff_exists.mp gap.selected
    exact ⟨Expression.mem_rootNames_of_step hall hstep, hreserved, hlacks, hvia⟩

theorem exists_unknown_remark (h : gap.At x report) (hlenient : policy.strict = false)
    (hwarn : policy.warnUnknown = true) (hlacks : ¬ catalog.Offers gap.entity gap.next)
    (hcounts : ¬ gap.Quiet) :
    ∃ remark ∈ report.withCode "unknown_relation",
      remark.path = DottedPath.extend gap.path gap.next := by
  have hname := h.mem_unknownNames_iff.mpr ⟨hlacks, hcounts⟩
  have hremark := h.remarks_subset (x.unknownRelation_mem_remarks hlenient hwarn hname)
  refine ⟨_, List.mem_filter.mpr ⟨hremark, rfl⟩, ?_⟩
  rw [← h.path_eq]
  rfl

theorem exists_depth_remark (h : gap.At x report)
    (hoffers : catalog.Offers gap.entity gap.next)
    (hlevels : policy.maxDepth ≤ gap.front.length) :
    ∃ remark ∈ report.withCode "max_depth_reached", remark.path = gap.path := by
  obtain ⟨branch, hbranch, -⟩ := h.exists_branch_iff.mpr hoffers
  have hremark := h.remarks_subset
    (x.maxDepthReached_mem_remarks (h.levels_eq_zero_iff.mpr hlevels) hbranch)
  exact ⟨_, List.mem_filter.mpr ⟨hremark, rfl⟩, h.path_eq⟩

theorem withCode_ne_nil (h : gap.At x report) (hoffers : catalog.Offers gap.entity gap.next)
    (hlevels : gap.front.length < policy.maxDepth) :
    report.withCode "max_nodes_reached" ≠ [] := by
  obtain ⟨branch, hbranch, hname⟩ := h.exists_branch_iff.mpr hoffers
  have hpos : 0 < x.levels := by
    rw [Nat.pos_iff_ne_zero, Ne, h.levels_eq_zero_iff]
    omega
  have hnode : branch.relation.name ∉ x.growth.nodes.map (·.relation) := by
    rw [hname]
    exact h.not_mem
  obtain ⟨remark, hremark, hcode⟩ := x.curtailed_of_not_mem_nodes hpos hbranch hnode
  exact List.ne_nil_of_mem (List.mem_filter.mpr ⟨h.remarks_subset hremark, by simp [hcode]⟩)

end Gap.At

theorem Expansion.Yields.exists_accountsFor {catalog : Catalog} {policy : Policy}
    {x : Expansion catalog policy} {request : Request} {plan : FetchPlan} {report : Report}
    (h : x.Yields request plan report) (hd : catalog.Distinct) {remark : Diagnostic}
    (hremark : remark ∈ report.diagnostics) :
    ∃ gap : Gap plan request.wanted, gap.AccountsFor catalog policy remark := by
  rw [h.diagnostics_eq] at hremark
  obtain ⟨names, last, hleads, hoccasion⟩ := exists_leads_of_mem_remarks hd hremark
  cases hoccasion with
  | @unknown name hname =>
    obtain ⟨hroot, -, hlacks, -⟩ := Site.mem_unknownNames.mp hname
    obtain ⟨sub, hstep⟩ := Expression.exists_step_of_mem_rootNames hroot
    have hnode : name ∉ last.growth.nodes.map (·.relation) := by
      intro hmem
      obtain ⟨node, hnode, rfl⟩ := List.mem_map.mp hmem
      obtain ⟨branch, inner, behind, rfl⟩ := exists_behind_of_mem_nodes hnode
      exact hlacks _ (Site.mem_branches.mp behind.branch_mem).1 rfl
    obtain ⟨gap, rfl, hat⟩ := h.exists_gap_at hd hleads (by rw [hstep]; rfl) hnode
    obtain ⟨hlacks, hcounts⟩ := hat.mem_unknownNames_iff.mp hname
    refine ⟨gap, .unknown rfl ?_ ?_ hlacks hcounts⟩
    · rw [← hat.path_eq]
      rfl
    · rw [← hat.entity_eq]
      rfl
  | @leftOut branch hbranch hnode =>
    have hstep := (Site.mem_branches.mp hbranch).2
    obtain ⟨gap, hnext, hat⟩ := h.exists_gap_at hd hleads (by rw [hstep]; rfl) hnode
    have hoffers := hat.exists_branch_iff.mp ⟨branch, hbranch, hnext.symm⟩
    cases hlevels : last.levels with
    | zero =>
      exact ⟨gap, .depth rfl hat.path_eq hoffers (hat.levels_eq_zero_iff.mp hlevels)⟩
    | succ lower =>
      refine ⟨gap, .nodes rfl hat.path_eq hoffers ?_⟩
      have hdeep := mt hat.levels_eq_zero_iff.mpr (by omega : ¬ last.levels = 0)
      omega

/-- A policy that warns of unknown names gives a plan for every request on a known root. A path that
the request admits and that is no chain of this plan leaves it at a gap, behind the longest part of
the path that is a chain. Every gap is explained by a remark: that the name is unknown if the entity
lacks it and the expression counts on it, and else that the levels or the nodes ran out. Every
remark is accounted for by a gap. -/
theorem Request.plan_explains_missing_paths {schema : Schema} {catalog : Catalog}
    (hcatalog : schema.catalog = .ok catalog) {request : Request}
    (hroot : catalog.hasEntity request.rootEntity = true) {policy : Policy}
    (hlenient : policy.strict = false) (hwarn : policy.warnUnknown = true) :
    ∃ plan report, request.plan catalog policy = .ok (plan, report) ∧
      (∀ names, request.wanted.Admits names → names ≠ [] →
        (∀ node, ¬ plan.Reaches names node) →
        ∃ gap : Gap plan request.wanted, (∃ rest, names = gap.front ++ gap.next :: rest) ∧
          ∀ held node, held <+: names → plan.Reaches held node → held <+: gap.front) ∧
      (∀ gap : Gap plan request.wanted,
        (¬ catalog.Offers gap.entity gap.next → ¬ gap.Quiet →
          ∃ remark ∈ report.withCode "unknown_relation",
            remark.path = DottedPath.extend gap.path gap.next) ∧
        (catalog.Offers gap.entity gap.next → policy.maxDepth ≤ gap.front.length →
          ∃ remark ∈ report.withCode "max_depth_reached", remark.path = gap.path) ∧
        (catalog.Offers gap.entity gap.next → gap.front.length < policy.maxDepth →
          report.withCode "max_nodes_reached" ≠ [])) ∧
      ∀ remark ∈ report.diagnostics,
        ∃ gap : Gap plan request.wanted, gap.AccountsFor catalog policy remark := by
  obtain ⟨plan, report, hplan, -, -⟩ :=
    exists_plan_of_lenient (Catalog.closed_of_schema hcatalog) hroot hlenient
  obtain ⟨x, hyields⟩ := exists_yields hplan
  refine ⟨plan, report, hplan, fun names => Gap.exists_of_missing, ?_, ?_⟩
  · intro gap
    obtain ⟨last, hat⟩ := hyields.exists_at gap
    exact ⟨hat.exists_unknown_remark hlenient hwarn, hat.exists_depth_remark,
      hat.withCode_ne_nil⟩
  · intro remark hremark
    exact hyields.exists_accountsFor (Catalog.distinct_of_schema hcatalog) hremark

/-- Of `[children.^, cars]` the cars are missing from the plan of a person, and a remark says that
they are unknown. -/
theorem Request.plan_explains_missing_paths_family :
    let request : Request := ⟨"person", ⟨[⟨"children", [⟨"^", []⟩]⟩, ⟨"cars", []⟩]⟩⟩
    familySchema.catalog = .ok familyCatalog ∧
    familyCatalog.hasEntity request.rootEntity = true ∧
    ∃ plan report, request.plan familyCatalog { maxDepth := 2 } = .ok (plan, report) ∧
      (∀ node, ¬ plan.Reaches ["cars"] node) ∧
      (∃ gap : Gap plan request.wanted, ∃ rest, ["cars"] = gap.front ++ gap.next :: rest) ∧
      ∃ remark ∈ report.withCode "unknown_relation", remark.path = "cars" := by
  intro request
  have hcatalog : familySchema.catalog = .ok familyCatalog := rfl
  have hroot : familyCatalog.hasEntity request.rootEntity = true := by decide
  refine ⟨hcatalog, hroot, ?_⟩
  obtain ⟨plan, report, hplan, hmissing, hgaps, -⟩ := plan_explains_missing_paths hcatalog hroot
    (show Policy.strict { maxDepth := 2 } = false from rfl) rfl
  have hentity : plan.rootEntity = "person" := by
    obtain ⟨-, -, -, -, rfl, -⟩ := plan_eq_ok_iff.mp hplan
    rfl
  have hlacks : ¬ familyCatalog.Offers "person" "cars" := by
    rintro ⟨relation, hrelation⟩
    cases hrelation
  have hlost : ∀ node, ¬ plan.Reaches ["cars"] node := by
    intro node hreach
    exact hlacks (isChain_of_reaches hplan hreach).walk.offers
  refine ⟨plan, report, hplan, hlost, ?_, ?_⟩
  · obtain ⟨gap, hrest, -⟩ := hmissing ["cars"] ⟨_, rfl⟩ (by simp) hlost
    exact ⟨gap, hrest⟩
  · rw [← hentity] at hlacks
    refine (hgaps ⟨[], "cars", _, request.wanted, .root, rfl, rfl, hlost⟩).1 hlacks ?_
    rintro (hall | hreserved | ⟨front, before, hnil, -⟩)
    · cases hall
    · exact absurd hreserved (show ¬ isReserved "cars" = true by decide)
    · simp at hnil

end Prefetch
