import Prefetch.PlanExpansion
import Prefetch.Proofs.FallibleRuns

/-!
# The steps of an expansion

A successful expansion is opened here once into its parts: the relations of the entity, the remarks
on unknown names, and the growth of the selected branches. Of a growth the lemmas say which nodes
it holds. Every node belongs to a branch and holds what the expansion behind the branch gave. The
nodes stand in the order of the branches and stop early only if the allowance ran out, and then the
remarks say so. So without such a remark every branch has its node.

An expansion that is refused is opened as well: either its own site refuses it, or the expansion
behind one of its branches.
-/

namespace Prefetch

/-- A node had to be left out, and a remark says so. -/
def Growth.Curtailed (growth : Growth) : Prop :=
  ∃ remark ∈ growth.remarks, remark.code = "max_nodes_reached"

theorem Growth.Curtailed.mono {growth larger : Growth} (h : growth.Curtailed)
    (hsub : growth.remarks ⊆ larger.remarks) : larger.Curtailed := by
  obtain ⟨remark, hmem, hcode⟩ := h
  exact ⟨remark, hsub hmem, hcode⟩

namespace Site

theorem expand_zero_eq_ok_iff {catalog : Catalog} {policy : Policy} {site : Site}
    {allowance : Allowance} {growth : Growth} :
    site.expand catalog policy 0 allowance = .ok growth ↔
      ∃ relations remarks, catalog.relationsFrom site.entity = .ok relations ∧
        site.checkNames policy relations = .ok remarks ∧
        growth = ⟨[], remarks ++ (if (site.branches relations).isEmpty then []
          else [site.maxDepthReached policy]), allowance⟩ := by
  simp only [expand, bind_eq_ok_iff]
  constructor
  · rintro ⟨relations, hfrom, remarks, hnames, h⟩
    refine ⟨relations, remarks, hfrom, hnames, ?_⟩
    split at h
    case isTrue hempty =>
      cases h
      simp [hempty]
    case isFalse hempty =>
      cases h
      simp [hempty]
  · rintro ⟨relations, remarks, hfrom, hnames, rfl⟩
    refine ⟨relations, hfrom, remarks, hnames, ?_⟩
    split <;> simp

theorem expand_succ_eq_ok_iff {catalog : Catalog} {policy : Policy} {levels : Nat} {site : Site}
    {allowance : Allowance} {growth : Growth} :
    site.expand catalog policy (levels + 1) allowance = .ok growth ↔
      ∃ relations remarks grown, catalog.relationsFrom site.entity = .ok relations ∧
        site.checkNames policy relations = .ok remarks ∧
        site.grow policy (expand catalog policy levels) (site.branches relations) allowance =
          .ok grown ∧
        growth = { grown with remarks := remarks ++ grown.remarks } := by
  simp only [expand, bind_eq_ok_iff]
  constructor
  · rintro ⟨relations, hfrom, remarks, hnames, grown, hgrow, h⟩
    cases h
    exact ⟨relations, remarks, grown, hfrom, hnames, hgrow, rfl⟩
  · rintro ⟨relations, remarks, grown, hfrom, hnames, hgrow, rfl⟩
    exact ⟨relations, hfrom, remarks, hnames, grown, hgrow, rfl⟩

theorem mem_branches {site : Site} {relations : List Relation} {branch : Branch} :
    branch ∈ site.branches relations ↔
      branch.relation ∈ relations ∧
        site.expression.step branch.relation.name = some branch.expression := by
  simp only [branches, List.mem_filterMap, Option.map_eq_some_iff]
  constructor
  · rintro ⟨relation, hmem, sub, hstep, rfl⟩
    exact ⟨hmem, hstep⟩
  · rintro ⟨hmem, hstep⟩
    exact ⟨branch.relation, hmem, branch.expression, hstep, rfl⟩

theorem branches_relation_sublist (site : Site) (relations : List Relation) :
    ((site.branches relations).map (·.relation)).Sublist relations := by
  induction relations with
  | nil => exact List.Sublist.slnil
  | cons relation rest ih =>
    simp only [branches, List.filterMap_cons]
    cases site.expression.step relation.name with
    | none => exact ih.cons relation
    | some sub => exact ih.cons_cons relation

theorem mem_unknownNames {site : Site} {relations : List Relation} {name : String} :
    name ∈ site.unknownNames relations ↔
      name ∈ site.expression.rootNames ∧ isReserved name = false ∧
        (∀ relation ∈ relations, relation.name ≠ name) ∧ site.via ≠ some name := by
  simp only [unknownNames, List.mem_filter, Bool.and_eq_true, Bool.not_eq_true', bne_iff_ne,
    List.any_eq_false, beq_iff_eq, and_assoc]

theorem exists_unknownName_of_checkNames {site : Site} {policy : Policy}
    {relations : List Relation} {e : LookupError}
    (h : site.checkNames policy relations = .error e) :
    policy.strict = true ∧
      ∃ name ∈ site.unknownNames relations, e = .unknownRelation name site.entity := by
  rw [checkNames] at h
  split at h
  case h_1 name names hstrict hnames =>
    cases h
    refine ⟨hstrict, name, ?_, rfl⟩
    rw [hnames]
    exact List.mem_cons_self
  case h_2 => cases h

theorem checkNames_of_warns {site : Site} {policy : Policy} {relations : List Relation}
    (hlenient : policy.strict = false) (hwarn : policy.warnUnknown = true) :
    site.checkNames policy relations =
      .ok ((site.unknownNames relations).map site.unknownRelation) := by
  simp [checkNames, hlenient, hwarn]

theorem exists_unknownName_of_mem_remarks {site : Site} {policy : Policy}
    {relations : List Relation} {remarks : List Diagnostic}
    (h : site.checkNames policy relations = .ok remarks) {remark : Diagnostic}
    (hremark : remark ∈ remarks) :
    ∃ name ∈ site.unknownNames relations, site.unknownRelation name = remark := by
  rw [checkNames] at h
  split at h
  case h_1 => cases h
  case h_2 =>
    cases h
    split at hremark
    case isTrue => exact List.mem_map.mp hremark
    case isFalse => cases hremark

/-- What can refuse an expansion: the look-up of the relations, the check of the names, or the
growth of the branches. -/
theorem expand_error_cases {catalog : Catalog} {policy : Policy} {levels : Nat} {site : Site}
    {allowance : Allowance} {e : LookupError}
    (h : site.expand catalog policy levels allowance = .error e) :
    catalog.relationsFrom site.entity = .error e ∨
      ∃ relations, catalog.relationsFrom site.entity = .ok relations ∧
        (site.checkNames policy relations = .error e ∨
          ∃ lower, levels = lower + 1 ∧
            site.grow policy (expand catalog policy lower) (site.branches relations) allowance =
              .error e) := by
  cases levels with
  | zero =>
    simp only [expand, bind_eq_error_iff] at h
    obtain hfrom | ⟨relations, hfrom, hnames | ⟨remarks, -, hlast⟩⟩ := h
    · exact .inl hfrom
    · exact .inr ⟨relations, hfrom, .inl hnames⟩
    · split at hlast <;> cases hlast
  | succ lower =>
    simp only [expand, bind_eq_error_iff] at h
    obtain hfrom | ⟨relations, hfrom, hnames | ⟨remarks, -, hgrow | ⟨growth, -, hlast⟩⟩⟩ := h
    · exact .inl hfrom
    · exact .inr ⟨relations, hfrom, .inl hnames⟩
    · exact .inr ⟨relations, hfrom, .inr ⟨lower, rfl, hgrow⟩⟩
    · cases hlast

section Grow

variable {site : Site} {policy : Policy} {expandNext : Site → Allowance → Except LookupError Growth}

theorem grow_cons_eq_ok_iff {branch : Branch} {rest : List Branch} {nodes : Nat} {growth : Growth} :
    site.grow policy expandNext (branch :: rest) (.left (nodes + 1)) = .ok growth ↔
      ∃ inner outer, expandNext (site.next branch) (.left nodes) = .ok inner ∧
        site.grow policy expandNext rest inner.allowance = .ok outer ∧
        growth = ⟨site.node branch inner.nodes :: outer.nodes, inner.remarks ++ outer.remarks,
          outer.allowance⟩ := by
  simp only [grow, bind_eq_ok_iff]
  constructor
  · rintro ⟨inner, hinner, outer, houter, h⟩
    cases h
    exact ⟨inner, outer, hinner, houter, rfl⟩
  · rintro ⟨inner, outer, hinner, houter, rfl⟩
    exact ⟨inner, hinner, outer, houter, rfl⟩

/-- What growing can do: stop at the end of the branches, stop before a branch for want of an
allowance, or add the node of a branch and go on with the rest. -/
theorem grow_cases {branches : List Branch} {allowance : Allowance} {growth : Growth}
    (h : site.grow policy expandNext branches allowance = .ok growth) :
    (branches = [] ∧ growth = ⟨[], [], allowance⟩) ∨
    (allowance = .spent ∧ growth = ⟨[], [], .spent⟩) ∨
    (allowance = .left 0 ∧ growth = ⟨[], [site.maxNodesReached policy], .spent⟩) ∨
    ∃ branch rest nodes inner outer, branches = branch :: rest ∧ allowance = .left (nodes + 1) ∧
      expandNext (site.next branch) (.left nodes) = .ok inner ∧
      site.grow policy expandNext rest inner.allowance = .ok outer ∧
      growth = ⟨site.node branch inner.nodes :: outer.nodes, inner.remarks ++ outer.remarks,
        outer.allowance⟩ := by
  cases branches with
  | nil =>
    cases h
    exact .inl ⟨rfl, rfl⟩
  | cons branch rest =>
    match allowance with
    | .spent =>
      cases h
      exact .inr (.inl ⟨rfl, rfl⟩)
    | .left 0 =>
      cases h
      exact .inr (.inr (.inl ⟨rfl, rfl⟩))
    | .left (nodes + 1) =>
      obtain ⟨inner, outer, hinner, houter, rfl⟩ := grow_cons_eq_ok_iff.mp h
      exact .inr (.inr (.inr ⟨branch, rest, nodes, inner, outer, rfl, rfl, hinner, houter, rfl⟩))

theorem exists_branch_of_grow_error {branches : List Branch} {allowance : Allowance}
    {e : LookupError} (h : site.grow policy expandNext branches allowance = .error e) :
    ∃ branch ∈ branches, ∃ nodes, expandNext (site.next branch) (.left nodes) = .error e := by
  induction branches generalizing allowance with
  | nil => cases h
  | cons branch rest ih =>
    match allowance with
    | .spent => cases h
    | .left 0 => cases h
    | .left (nodes + 1) =>
      simp only [grow, bind_eq_error_iff] at h
      obtain hinner | ⟨inner, -, houter | ⟨outer, -, hlast⟩⟩ := h
      · exact ⟨branch, List.mem_cons_self, nodes, hinner⟩
      · obtain ⟨other, hother, hrefused⟩ := ih houter
        exact ⟨other, List.mem_cons_of_mem _ hother, hrefused⟩
      · cases hlast

/-- Every node belongs to a branch and holds what the expansion behind the branch gave. -/
theorem exists_branch_of_mem_grow {branches : List Branch} {allowance : Allowance}
    {growth : Growth} (h : site.grow policy expandNext branches allowance = .ok growth)
    {node : FetchNode} (hnode : node ∈ growth.nodes) :
    ∃ branch ∈ branches, ∃ left inner, expandNext (site.next branch) left = .ok inner ∧
      node = site.node branch inner.nodes := by
  induction branches generalizing allowance growth with
  | nil =>
    cases h
    cases hnode
  | cons first rest ih =>
    rcases grow_cases h with ⟨hnil, -⟩ | ⟨-, rfl⟩ | ⟨-, rfl⟩ |
      ⟨branch, rest', left, inner, outer, hcons, -, hinner, houter, rfl⟩
    · cases hnil
    · cases hnode
    · cases hnode
    · cases hcons
      rcases List.mem_cons.mp hnode with rfl | hnode
      · exact ⟨first, List.mem_cons_self, .left left, inner, hinner, rfl⟩
      · obtain ⟨branch, hbranch, hfound⟩ := ih houter hnode
        exact ⟨branch, List.mem_cons_of_mem _ hbranch, hfound⟩

theorem grow_isPrefix {branches : List Branch} {allowance : Allowance} {growth : Growth}
    (h : site.grow policy expandNext branches allowance = .ok growth) :
    growth.nodes.map (fun node => (node.relation, node.entity)) <+:
      branches.map fun branch => (branch.relation.name, branch.relation.target) := by
  induction branches generalizing allowance growth with
  | nil =>
    cases h
    exact List.prefix_rfl
  | cons first rest ih =>
    rcases grow_cases h with ⟨hnil, -⟩ | ⟨-, rfl⟩ | ⟨-, rfl⟩ |
      ⟨branch, rest', left, inner, outer, hcons, -, -, houter, rfl⟩
    · cases hnil
    · exact List.nil_prefix
    · exact List.nil_prefix
    · cases hcons
      simp only [List.map_cons, node]
      exact (List.prefix_cons_inj _).mpr (ih houter)

theorem curtailed_of_grow_spent
    (hnext : ∀ next nodes inner, expandNext next (.left nodes) = .ok inner →
      inner.allowance = .spent → inner.Curtailed)
    {branches : List Branch} {nodes : Nat} {growth : Growth}
    (h : site.grow policy expandNext branches (.left nodes) = .ok growth)
    (hspent : growth.allowance = .spent) : growth.Curtailed := by
  induction branches generalizing nodes growth with
  | nil =>
    cases h
    cases hspent
  | cons first rest ih =>
    rcases grow_cases h with ⟨hnil, -⟩ | ⟨hleft, -⟩ | ⟨-, rfl⟩ |
      ⟨branch, rest', left, inner, outer, hcons, -, hinner, houter, rfl⟩
    · cases hnil
    · cases hleft
    · exact ⟨site.maxNodesReached policy, List.mem_singleton_self _, rfl⟩
    · cases hcons
      cases hallowance : inner.allowance with
      | spent =>
        exact (hnext _ _ _ hinner hallowance).mono (List.subset_append_left _ _)
      | left m =>
        rw [hallowance] at houter
        exact (ih houter hspent).mono (List.subset_append_right _ _)

theorem exists_node_of_mem_branches
    (hnext : ∀ next nodes inner, expandNext next (.left nodes) = .ok inner →
      inner.allowance = .spent → inner.Curtailed)
    {branches : List Branch} {nodes : Nat} {growth : Growth}
    (h : site.grow policy expandNext branches (.left nodes) = .ok growth)
    (hfull : ¬ growth.Curtailed) {branch : Branch} (hbranch : branch ∈ branches) :
    ∃ left inner, expandNext (site.next branch) (.left left) = .ok inner ∧
      ¬ inner.Curtailed ∧ site.node branch inner.nodes ∈ growth.nodes := by
  induction branches generalizing nodes growth with
  | nil => cases hbranch
  | cons first rest ih =>
    rcases grow_cases h with ⟨hnil, -⟩ | ⟨hleft, -⟩ | ⟨-, rfl⟩ |
      ⟨first', rest', left, inner, outer, hcons, -, hinner, houter, rfl⟩
    · cases hnil
    · cases hleft
    · exact absurd ⟨site.maxNodesReached policy, List.mem_singleton_self _, rfl⟩ hfull
    · cases hcons
      have hinnerFull : ¬ inner.Curtailed := by
        intro hinnerCut
        exact hfull (hinnerCut.mono (List.subset_append_left _ _))
      have houterFull : ¬ outer.Curtailed := by
        intro houterCut
        exact hfull (houterCut.mono (List.subset_append_right _ _))
      rcases List.mem_cons.mp hbranch with rfl | hbranch
      · exact ⟨left, inner, hinner, hinnerFull, List.mem_cons_self⟩
      · cases hallowance : inner.allowance with
        | spent => exact absurd (hnext _ _ _ hinner hallowance) hinnerFull
        | left m =>
          rw [hallowance] at houter
          obtain ⟨left', inner', hinner', hfull', hmem⟩ := ih houter houterFull hbranch
          exact ⟨left', inner', hinner', hfull', List.mem_cons_of_mem _ hmem⟩

end Grow

/-- An allowance is never spent without a remark. -/
theorem curtailed_of_expand_spent {catalog : Catalog} {policy : Policy} {levels : Nat} :
    ∀ {site : Site} {nodes : Nat} {growth : Growth},
      site.expand catalog policy levels (.left nodes) = .ok growth →
      growth.allowance = .spent → growth.Curtailed := by
  induction levels with
  | zero =>
    intro site nodes growth h hspent
    obtain ⟨relations, remarks, -, -, rfl⟩ := expand_zero_eq_ok_iff.mp h
    cases hspent
  | succ levels ih =>
    intro site nodes growth h hspent
    obtain ⟨relations, remarks, grown, -, -, hgrow, rfl⟩ := expand_succ_eq_ok_iff.mp h
    have hgrown := curtailed_of_grow_spent (fun _ _ _ => ih) hgrow hspent
    exact hgrown.mono (List.subset_append_right _ _)

end Site

theorem Request.plan_eq_ok_iff {request : Request} {catalog : Catalog} {policy : Policy}
    {plan : FetchPlan} {report : Report} :
    request.plan catalog policy = .ok (plan, report) ↔
      ∃ entity growth, catalog.entity request.rootEntity = .ok entity ∧
        request.site.expand catalog policy policy.levels policy.allowance = .ok growth ∧
        plan = ⟨request.rootEntity, request.wanted.text, growth.nodes⟩ ∧
        report = ⟨growth.remarks⟩ := by
  simp only [Request.plan, bind_eq_ok_iff]
  constructor
  · rintro ⟨entity, hentity, growth, hgrowth, h⟩
    cases h
    exact ⟨entity, growth, hentity, hgrowth, rfl, rfl⟩
  · rintro ⟨entity, growth, hentity, hgrowth, rfl, rfl⟩
    exact ⟨entity, hentity, growth, hgrowth, rfl⟩

theorem Growth.withCode_eq_nil_iff {growth : Growth} :
    (⟨growth.remarks⟩ : Report).withCode "max_nodes_reached" = [] ↔ ¬ growth.Curtailed := by
  simp [Report.withCode, Growth.Curtailed, List.filter_eq_nil_iff]

end Prefetch
