import Prefetch.Proofs.InnerExpansions
import Prefetch.Proofs.PlanRefusals

/-!
# The limit on depth

As long as no node is left out for want of nodes, a plan with fewer levels is a plan with more
levels cut off at the limit. The remarks that the levels ran out say where it was cut: there is one
for every place on the last level below which the larger plan goes on, in preorder, and no other.

Two expansions of one site with different limits on depth are put beside each other. They follow the
same branches, and what follows each branch stands beside each other again, with one level less on
either side. So both statements are inductions on the smaller number of levels.
-/

namespace Prefetch

/-- A place of a forest: the names that lead to it, and what stands below it. -/
structure Position where
  names : List String
  below : List FetchNode
  deriving Repr

namespace Position

def behind (name : String) (position : Position) : Position :=
  { position with names := name :: position.names }

def pathFrom (start : String) (position : Position) : String :=
  position.names.foldl DottedPath.extend start

def path (position : Position) : String := DottedPath.ofNames position.names

def hasChild (position : Position) : Bool := !position.below.isEmpty

end Position

/-- The forest without the nodes that stand below the given level. Its roots are level one. -/
def FetchForest.upTo : (level : Nat) → List FetchNode → List FetchNode
  | 0, _ => []
  | level + 1, forest =>
    forest.map fun node => { node with children := FetchForest.upTo level node.children }

/-- The places of a forest on the given level, from left to right. The only place on level zero is
the one above the roots. -/
def FetchForest.positions : (level : Nat) → List FetchNode → List Position
  | 0, forest => [⟨[], forest⟩]
  | level + 1, forest => forest.flatMap fun node =>
      (FetchForest.positions level node.children).map (.behind node.relation)

def FetchPlan.upTo (plan : FetchPlan) (level : Nat) : FetchPlan :=
  { plan with nodes := FetchForest.upTo level plan.nodes }

def FetchPlan.positions (plan : FetchPlan) (level : Nat) : List Position :=
  FetchForest.positions level plan.nodes

theorem FetchForest.upTo_succ (level : Nat) (forest : List FetchNode) :
    FetchForest.upTo (level + 1) forest =
      forest.map fun node => { node with children := FetchForest.upTo level node.children } := rfl

theorem FetchForest.positions_succ (level : Nat) (forest : List FetchNode) :
    FetchForest.positions (level + 1) forest = forest.flatMap fun node =>
      (FetchForest.positions level node.children).map (.behind node.relation) := rfl

theorem Site.filter_code_checkNames {site : Site} {policy : Policy} {relations : List Relation}
    {remarks : List Diagnostic} (h : site.checkNames policy relations = .ok remarks) :
    remarks.filter (·.code == "max_depth_reached") = [] := by
  apply List.filter_eq_nil_iff.mpr
  intro remark hremark
  obtain ⟨name, -, rfl⟩ := exists_unknownName_of_mem_remarks h hremark
  simp [unknownRelation]

theorem exists_zip_of_map_fst_eq {α β γ : Type} {xs : List (α × β)} {ys : List (α × γ)}
    (h : xs.map Prod.fst = ys.map Prod.fst) :
    ∃ zs : List (α × β × γ), xs = zs.map (fun z => (z.1, z.2.1)) ∧
      ys = zs.map fun z => (z.1, z.2.2) := by
  induction xs generalizing ys with
  | nil =>
    rw [List.map_nil, eq_comm, List.map_eq_nil_iff] at h
    exact ⟨[], rfl, h⟩
  | cons x xs ih =>
    cases ys with
    | nil => cases h
    | cons y ys =>
      obtain ⟨hfirst, hrest⟩ := List.cons.inj h
      obtain ⟨zs, rfl, rfl⟩ := ih hrest
      refine ⟨(x.1, x.2, y.2) :: zs, rfl, ?_⟩
      rw [hfirst]
      rfl

namespace Expansion

variable {catalog : Catalog} {policy policy' : Policy}

def depthRemarks (x : Expansion catalog policy) : List Diagnostic :=
  x.growth.remarks.filter (·.code == "max_depth_reached")

theorem Parts.leftOut_eq_nil {x : Expansion catalog policy} (parts : x.Parts)
    (hd : catalog.Distinct) (hlevels : 0 < x.levels) (hfull : ¬ x.growth.Curtailed) :
    parts.leftOut = [] := by
  apply List.eq_nil_iff_forall_not_mem.mpr
  intro branch hbranch
  have hmem : branch ∈ x.branches := by
    rw [parts.branches_eq]
    exact List.mem_append_right _ hbranch
  exact hfull (x.curtailed_of_not_mem_nodes hlevels hmem (parts.not_mem_nodes hd hbranch))

/-- If no node is left out, then every branch is followed by an expansion with one level less, of
which the same holds, and nothing is added to what these expansions say of the levels. -/
theorem exists_inner_of_full (hd : catalog.Distinct) {x : Expansion catalog policy} {levels : Nat}
    (hlevels : x.levels = levels + 1) (hfull : ¬ x.growth.Curtailed) :
    ∃ inner : List (Branch × Expansion catalog policy), x.branches = inner.map Prod.fst ∧
      (∀ part ∈ inner, part.2.site = x.site.next part.1 ∧ part.2.levels = levels ∧
        ¬ part.2.growth.Curtailed) ∧
      x.growth.nodes = inner.map (fun part => x.site.node part.1 part.2.growth.nodes) ∧
      x.depthRemarks = inner.flatMap (·.2.depthRemarks) := by
  obtain ⟨parts⟩ := x.exists_parts
  have hnone := parts.leftOut_eq_nil hd (by omega) hfull
  refine ⟨parts.inner, ?_, ?_, parts.nodes_eq, ?_⟩
  · rw [parts.branches_eq, hnone, List.append_nil]
  · intro part hpart
    have behind := parts.behind hpart
    have hpartLevels := behind.levels_eq
    refine ⟨behind.site_eq, by omega, ?_⟩
    intro hpartCut
    exact hfull (hpartCut.mono behind.remarks_subset)
  · have hclosing : parts.closing = [] := by
      rcases parts.closing_eq with ⟨hclosing, -⟩ | ⟨-, hne⟩
      · exact hclosing
      · exact absurd hnone hne
    rw [depthRemarks, parts.remarks_eq, hclosing, List.append_nil, List.filter_append,
      Site.filter_code_checkNames parts.naming_eq, List.nil_append, List.filter_flatMap]
    rfl

/-- Two expansions of one site, the second with at least as many levels. No node is left out in
either of them. -/
structure Beside (x : Expansion catalog policy) (y : Expansion catalog policy') : Prop where
  site_eq : y.site = x.site
  levels_le : x.levels ≤ y.levels
  full : ¬ x.growth.Curtailed
  full' : ¬ y.growth.Curtailed

/-- Expansions beside each other follow the same branches, each by expansions beside each other. -/
theorem Beside.exists_inner {x : Expansion catalog policy} {y : Expansion catalog policy'}
    (h : x.Beside y) (hd : catalog.Distinct) {levels : Nat} (hlevels : x.levels = levels + 1) :
    ∃ inner : List (Branch × Expansion catalog policy × Expansion catalog policy'),
      (∀ part ∈ inner, part.2.1.site = x.site.next part.1 ∧ part.2.1.levels = levels ∧
        part.2.2.levels + 1 = y.levels ∧ part.2.1.Beside part.2.2) ∧
      x.growth.nodes = inner.map (fun part => x.site.node part.1 part.2.1.growth.nodes) ∧
      y.growth.nodes = inner.map (fun part => x.site.node part.1 part.2.2.growth.nodes) ∧
      x.depthRemarks = inner.flatMap (·.2.1.depthRemarks) := by
  obtain ⟨levels', hlevels'⟩ : ∃ levels', y.levels = levels' + 1 :=
    Nat.exists_eq_succ_of_ne_zero (by have hle := h.levels_le; omega)
  obtain ⟨front, hbranches, hfront, hnodes, hremarks⟩ := exists_inner_of_full hd hlevels h.full
  obtain ⟨back, hbranches', hback, hnodes', -⟩ := exists_inner_of_full hd hlevels' h.full'
  have hsame : front.map Prod.fst = back.map Prod.fst := by
    rw [← hbranches, ← hbranches', branches, branches, h.site_eq]
  obtain ⟨inner, rfl, rfl⟩ := exists_zip_of_map_fst_eq hsame
  rw [h.site_eq] at hnodes' hback
  rw [List.map_map] at hnodes hnodes'
  rw [List.flatMap_map] at hremarks
  refine ⟨inner, ?_, hnodes, hnodes', hremarks⟩
  intro part hpart
  obtain ⟨hsite, (hpartLevels : part.2.1.levels = levels), hfull⟩ :=
    hfront _ (List.mem_map_of_mem hpart)
  obtain ⟨hsite', (hpartLevels' : part.2.2.levels = levels'), hfull'⟩ :=
    hback _ (List.mem_map_of_mem hpart)
  have hle := h.levels_le
  have hbeside : part.2.1.Beside part.2.2 :=
    ⟨hsite'.trans hsite.symm, by omega, hfull, hfull'⟩
  exact ⟨hsite, hpartLevels, by omega, hbeside⟩

theorem Beside.upTo_nodes {x : Expansion catalog policy} {y : Expansion catalog policy'}
    (h : x.Beside y) (hd : catalog.Distinct) :
    FetchForest.upTo x.levels y.growth.nodes = x.growth.nodes := by
  induction hlevels : x.levels generalizing x y with
  | zero =>
    have hgrown := x.grown
    rw [hlevels] at hgrown
    obtain ⟨relations, remarks, -, -, hgrowth⟩ := Site.expand_zero_eq_ok_iff.mp hgrown
    rw [hgrowth]
    rfl
  | succ levels ih =>
    obtain ⟨inner, hinner, hnodes, hnodes', -⟩ := h.exists_inner hd hlevels
    rw [hnodes, hnodes', FetchForest.upTo_succ, List.map_map]
    apply List.map_congr_left
    intro part hpart
    obtain ⟨-, hpartLevels, -, hbeside⟩ := hinner part hpart
    exact congrArg (x.site.node part.1) (ih hbeside hpartLevels)

theorem depthRemarks_of_levels_eq_zero {x : Expansion catalog policy} (hlevels : x.levels = 0) :
    x.depthRemarks = if x.branches.isEmpty then [] else [x.site.maxDepthReached policy] := by
  have hgrown := x.grown
  rw [hlevels] at hgrown
  obtain ⟨relations, remarks, hfrom, hnames, hgrowth⟩ := Site.expand_zero_eq_ok_iff.mp hgrown
  rw [depthRemarks, hgrowth, List.filter_append, Site.filter_code_checkNames hnames,
    List.nil_append, branches, Catalog.leaving_eq hfrom]
  split
  case isTrue => rfl
  case isFalse => rfl

/-- The levels run out exactly at the places below which more levels go on. -/
theorem Beside.map_path_depthRemarks {x : Expansion catalog policy}
    {y : Expansion catalog policy'} (h : x.Beside y) (hd : catalog.Distinct)
    (hlt : x.levels < y.levels) :
    x.depthRemarks.map (·.path) =
      ((FetchForest.positions x.levels y.growth.nodes).filter (·.hasChild)).map
        (·.pathFrom x.site.path) := by
  induction hlevels : x.levels generalizing x y with
  | zero =>
    obtain ⟨levels', hlevels'⟩ : ∃ levels', y.levels = levels' + 1 := ⟨y.levels - 1, by omega⟩
    obtain ⟨inner, hbranches, -, hnodes, -⟩ := exists_inner_of_full hd hlevels' h.full'
    have hsame : x.branches = y.branches := by rw [branches, branches, h.site_eq]
    rw [depthRemarks_of_levels_eq_zero hlevels, hsame, hbranches, hnodes, FetchForest.positions]
    cases inner with
    | nil => rfl
    | cons part rest => rfl
  | succ levels ih =>
    obtain ⟨inner, hinner, -, hnodes', hremarks⟩ := h.exists_inner hd hlevels
    rw [hremarks, hnodes', FetchForest.positions_succ, List.flatMap_map, List.map_flatMap,
      List.filter_flatMap, List.map_flatMap]
    apply List.flatMap_congr
    intro part hpart
    obtain ⟨hsite, hpartLevels, hpartLevels', hbeside⟩ := hinner part hpart
    -- the first name of a place behind the branch is already in the path of the next site
    rw [ih hbeside (by omega) hpartLevels, List.filter_map, List.map_map, hsite]
    rfl

end Expansion

namespace Request

theorem exists_plan_of_strict_eq_false {catalog : Catalog} (hc : catalog.Closed)
    {request : Request} (hroot : catalog.hasEntity request.rootEntity = true) {policy : Policy}
    (hlenient : policy.strict = false) :
    ∃ plan report, request.plan catalog policy = .ok (plan, report) := by
  rcases exists_plan_or_refused hc hroot policy with hplan | ⟨hstrict, -⟩
  · exact hplan
  · rw [hlenient] at hstrict
    cases hstrict

/-- Under a lenient policy a request for a known root has a plan for either limit on depth. If in
neither of them a node is left out, then the plan with fewer levels is the other one without the
nodes below the smaller limit. The levels are remarked on at the paths of those places on the last
level that have a child in the larger plan, in preorder. -/
theorem plan_within_maxDepth {schema : Schema} {catalog : Catalog}
    (hcatalog : schema.catalog = .ok catalog) {request : Request}
    (hroot : catalog.hasEntity request.rootEntity = true) {policy : Policy}
    (hlenient : policy.strict = false) {fewer more : Int} (hnonneg : 0 ≤ fewer)
    (hlt : fewer < more) :
    ∃ plan report plan' report',
      request.plan catalog { policy with maxDepth := fewer } = .ok (plan, report) ∧
      request.plan catalog { policy with maxDepth := more } = .ok (plan', report') ∧
      (report.withCode "max_nodes_reached" = [] → report'.withCode "max_nodes_reached" = [] →
        plan = plan'.upTo fewer.toNat ∧
        (report.withCode "max_depth_reached").map (·.path) =
          ((plan'.positions fewer.toNat).filter (·.hasChild)).map (·.path)) := by
  have hc := Catalog.closed_of_schema hcatalog
  have hd := Catalog.distinct_of_schema hcatalog
  obtain ⟨plan, report, hplan⟩ := exists_plan_of_strict_eq_false hc hroot
    (show Policy.strict { policy with maxDepth := fewer } = false from hlenient)
  obtain ⟨plan', report', hplan'⟩ := exists_plan_of_strict_eq_false hc hroot
    (show Policy.strict { policy with maxDepth := more } = false from hlenient)
  refine ⟨plan, report, plan', report', hplan, hplan', ?_⟩
  intro hnodes hnodes'
  obtain ⟨x, hx⟩ := exists_yields hplan
  obtain ⟨y, hy⟩ := exists_yields hplan'
  have hlt : x.levels < y.levels := by
    rw [hx.levels_eq, hy.levels_eq]
    simp only [Policy.levels]
    omega
  have hbeside : x.Beside y := ⟨hy.site_eq.trans hx.site_eq.symm, Nat.le_of_lt hlt,
    hx.not_curtailed hnodes, hy.not_curtailed hnodes'⟩
  have hlevels : fewer.toNat = x.levels := hx.levels_eq.symm
  constructor
  · rw [hx.plan_eq, hy.plan_eq, FetchPlan.upTo, hlevels, hbeside.upTo_nodes hd]
  · have hpath := hbeside.map_path_depthRemarks hd hlt
    rw [hx.site_eq] at hpath
    rw [hx.report_eq, hy.plan_eq, hlevels]
    exact hpath

/-- Of `[pets.owner, children.^]` two levels are planned. On the second one, only the children have
children again. -/
theorem plan_within_maxDepth_family :
    familySchema.catalog = .ok familyCatalog ∧
    familyCatalog.hasEntity familyRequest.rootEntity = true ∧
    ∃ plan report plan' report',
      familyRequest.plan familyCatalog { maxDepth := 2 } = .ok (plan, report) ∧
      familyRequest.plan familyCatalog { maxDepth := 4 } = .ok (plan', report') ∧
      report.withCode "max_nodes_reached" = [] ∧ report'.withCode "max_nodes_reached" = [] ∧
      plan = plan'.upTo 2 ∧
      (report.withCode "max_depth_reached").map (·.path) = ["children.children"] ∧
      ((plan'.positions 2).filter (·.hasChild)).map (·.path) = ["children.children"] := by
  have hcatalog : familySchema.catalog = .ok familyCatalog := rfl
  have hroot : familyCatalog.hasEntity familyRequest.rootEntity = true := by decide
  refine ⟨hcatalog, hroot, ?_⟩
  obtain ⟨plan, report, plan', report', hplan, hplan', hlevels⟩ :=
    plan_within_maxDepth hcatalog hroot (show Policy.strict {} = false from rfl)
      (show (0 : Int) ≤ 2 by decide) (show (2 : Int) < 4 by decide)
  have hrun : ∃ plan report, familyRequest.plan familyCatalog { maxDepth := 2 } =
      .ok (plan, report) ∧ report.withCode "max_nodes_reached" = [] ∧
      (report.withCode "max_depth_reached").map (·.path) = ["children.children"] :=
    ⟨_, _, rfl, rfl, rfl⟩
  have hrun' : ∃ plan report, familyRequest.plan familyCatalog { maxDepth := 4 } =
      .ok (plan, report) ∧ report.withCode "max_nodes_reached" = [] := ⟨_, _, rfl, rfl⟩
  obtain ⟨_, _, hsame, hnodes, hpaths⟩ := hrun
  obtain ⟨_, _, hsame', hnodes'⟩ := hrun'
  cases hplan.symm.trans hsame
  cases hplan'.symm.trans hsame'
  obtain ⟨hupTo, hpositions⟩ := hlevels hnodes hnodes'
  exact ⟨plan, report, plan', report', hplan, hplan', hnodes, hnodes', hupTo, hpaths,
    hpositions.symm.trans hpaths⟩

end Request

end Prefetch
