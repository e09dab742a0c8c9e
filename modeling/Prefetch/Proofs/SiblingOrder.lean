import Prefetch.Proofs.AdmittedPaths
import Prefetch.Proofs.DistinctSiblings
import Prefetch.Proofs.PlanChains
import Prefetch.Proofs.ReplayOutcome

/-!
# The order of siblings in an expression

Two expressions may differ in nothing but the order of siblings, at any number of levels. If no two
siblings share a name, then every step leads both to expressions that again differ in nothing else.
So planning visits the same sites in the same order for both, and the plans have the same nodes.
Only the remarks on unknown names at one site come in the order of the expression. The reports hold
the same remarks.
-/

namespace Prefetch

/-- The forests differ only in the order of siblings, at any number of levels. -/
inductive Forest.Reordered : List Node → List Node → Prop where
  | nil : Reordered [] []
  | cons {name children children' rest rest'} (below : Reordered children children')
      (tail : Reordered rest rest') :
      Reordered (⟨name, children⟩ :: rest) (⟨name, children'⟩ :: rest')
  | swap {first second rest} : Reordered (first :: second :: rest) (second :: first :: rest)
  | trans {forest middle last} (front : Reordered forest middle) (back : Reordered middle last) :
      Reordered forest last

namespace Forest.Reordered

variable {forest other : List Node}

theorem refl (forest : List Node) : Forest.Reordered forest forest := by
  induction forest using Forest.inductionOn with
  | nil => exact .nil
  | cons name children rest hchildren hrest => exact .cons hchildren hrest

theorem symm (h : Forest.Reordered forest other) : Forest.Reordered other forest := by
  induction h with
  | nil => exact .nil
  | cons _ _ hbelow htail => exact .cons hbelow htail
  | swap => exact .swap
  | trans _ _ hfront hback => exact .trans hback hfront

theorem of_perm (h : forest.Perm other) : Forest.Reordered forest other := by
  induction h with
  | nil => exact .nil
  | cons node _ ih =>
    cases node
    exact .cons (.refl _) ih
  | swap first second rest => exact .swap
  | trans _ _ hfront hback => exact .trans hfront hback

theorem perm_names (h : Forest.Reordered forest other) :
    (forest.map (·.name)).Perm (other.map (·.name)) := by
  induction h with
  | nil => exact .refl _
  | cons _ _ _ htail => exact htail.cons _
  | swap => exact .swap _ _ _
  | trans _ _ hfront hback => exact hfront.trans hback

theorem distinctNames (h : Forest.Reordered forest other)
    (hdistinct : Forest.distinctNames forest = true) : Forest.distinctNames other = true := by
  induction h with
  | nil => exact hdistinct
  | cons below tail hbelow htail =>
    obtain ⟨hname, hchildren, hrest⟩ := Forest.distinctNames_cons_iff.mp hdistinct
    rw [tail.perm_names.mem_iff] at hname
    exact Forest.distinctNames_cons_iff.mpr ⟨hname, hbelow hchildren, htail hrest⟩
  | @swap first second rest =>
    obtain ⟨hnames, hchildren⟩ := Forest.distinctNames_iff.mp hdistinct
    have hperm : (first :: second :: rest).Perm (second :: first :: rest) := .swap _ _ _
    refine Forest.distinctNames_iff.mpr ⟨(hperm.map _).nodup hnames, ?_⟩
    intro node hnode
    exact hchildren node (hperm.mem_iff.mpr hnode)
  | trans _ _ hfront hback => exact hback (hfront hdistinct)

theorem exists_mem (h : Forest.Reordered forest other) {node : Node} (hmem : node ∈ forest) :
    ∃ node' ∈ other, node'.name = node.name ∧
      Forest.Reordered node.children node'.children := by
  induction h generalizing node with
  | nil => cases hmem
  | cons below _ _ htail =>
    rcases List.mem_cons.mp hmem with rfl | hmem
    · exact ⟨_, List.mem_cons_self, rfl, below⟩
    · obtain ⟨node', hmem', hname, hchildren⟩ := htail hmem
      exact ⟨node', List.mem_cons_of_mem _ hmem', hname, hchildren⟩
  | @swap first second rest =>
    have hperm : (first :: second :: rest).Perm (second :: first :: rest) := .swap _ _ _
    exact ⟨node, hperm.mem_iff.mp hmem, rfl, .refl _⟩
  | trans _ _ hfront hback =>
    obtain ⟨middle, hmiddle, hname, hchildren⟩ := hfront hmem
    obtain ⟨last, hlast, hname', hchildren'⟩ := hback hmiddle
    exact ⟨last, hlast, hname'.trans hname, hchildren.trans hchildren'⟩

theorem map_name_eq_singleton_iff (h : Forest.Reordered forest other) (name : String) :
    forest.map (·.name) = [name] ↔ other.map (·.name) = [name] := by
  have hperm := h.perm_names
  constructor
  · intro hforest
    rw [hforest] at hperm
    exact (List.singleton_perm.mp hperm).symm
  · intro hother
    rw [hother] at hperm
    exact List.perm_singleton.mp hperm

end Forest.Reordered

theorem Node.repeats_iff {node : Node} :
    node.repeats = true ↔ node.children.map (·.name) = [againName] := by
  obtain ⟨name, children⟩ := node
  match children with
  | [] => simp [repeats]
  | [child] => simp [repeats]
  | first :: second :: rest => simp [repeats]

namespace Expression

theorem selectsAll_iff {e : Expression} : e.selectsAll = true ↔ e.rootNames = [everyName] := by
  obtain ⟨nodes⟩ := e
  match nodes with
  | [] => simp [selectsAll, rootNames]
  | [node] => simp [selectsAll, rootNames]
  | first :: second :: rest => simp [selectsAll, rootNames]

/-- No two siblings share a name, and the other expression has the same siblings in some order. -/
structure Reordered (e other : Expression) : Prop where
  distinct : e.distinctNames = true
  nodes : Forest.Reordered e.nodes other.nodes

namespace Reordered

variable {e other : Expression}

theorem symm (h : e.Reordered other) : other.Reordered e where
  distinct := h.nodes.distinctNames h.distinct
  nodes := h.nodes.symm

theorem selectsAll_eq (h : e.Reordered other) : e.selectsAll = other.selectsAll := by
  apply Bool.eq_iff_iff.mpr
  rw [selectsAll_iff, selectsAll_iff]
  exact h.nodes.map_name_eq_singleton_iff everyName

theorem exists_root (h : e.Reordered other) {name : String} {node : Node}
    (hroot : e.root? name = some node) :
    ∃ node', other.root? name = some node' ∧ node.repeats = node'.repeats ∧
      node'.name = node.name ∧ Forest.Reordered node.children node'.children := by
  obtain ⟨hmem, hname⟩ := (root?_eq_some_iff h.distinct).mp hroot
  obtain ⟨node', hmem', hname', hchildren⟩ := h.nodes.exists_mem hmem
  refine ⟨node', (root?_eq_some_iff h.symm.distinct).mpr ⟨hmem', hname'.trans hname⟩, ?_, hname',
    hchildren⟩
  apply Bool.eq_iff_iff.mpr
  rw [Node.repeats_iff, Node.repeats_iff]
  exact hchildren.map_name_eq_singleton_iff againName

theorem repeats_eq (h : e.Reordered other) (name : String) :
    e.repeats name = other.repeats name := by
  rw [repeats, repeats]
  cases hroot : e.root? name with
  | some node =>
    obtain ⟨node', hroot', hrepeats, -⟩ := h.exists_root hroot
    simp only [hroot', hrepeats]
  | none =>
    cases hroot' : other.root? name with
    | none => rfl
    | some node' =>
      obtain ⟨node, hfound, -⟩ := h.symm.exists_root hroot'
      rw [hroot] at hfound
      cases hfound

theorem exists_step (h : e.Reordered other) {name : String} {sub : Expression}
    (hstep : e.step name = some sub) :
    ∃ sub', other.step name = some sub' ∧ sub.Reordered sub' := by
  obtain ⟨hall, rfl⟩ | ⟨hall, node, hroot, hsub⟩ := step_cases hstep
  · rw [h.selectsAll_eq] at hall
    exact ⟨other, step_of_selectsAll hall name, h⟩
  · obtain ⟨node', hroot', hrepeats, hname, hchildren⟩ := h.exists_root hroot
    have hdistinct : Forest.distinctNames node.children = true :=
      (Forest.distinctNames_iff.mp h.distinct).2 node (mem_of_root? hroot)
    rw [h.selectsAll_eq] at hall
    refine ⟨_, (step_eq_some_iff hall).mpr ⟨node', hroot', rfl⟩, ?_⟩
    rw [← hrepeats]
    -- the rest is the repeating node itself, or the trees below the node
    rcases hsub with ⟨hagain, rfl⟩ | ⟨hagain, rfl⟩
    · obtain ⟨first, children⟩ := node
      obtain ⟨first', children'⟩ := node'
      obtain rfl : first' = first := hname
      rw [if_pos hagain]
      refine ⟨?_, .cons hchildren .nil⟩
      exact Forest.distinctNames_cons_iff.mpr ⟨List.not_mem_nil, hdistinct, rfl⟩
    · rw [hagain]
      exact ⟨hdistinct, hchildren⟩

theorem step_eq_none (h : e.Reordered other) {name : String} (hnone : e.step name = none) :
    other.step name = none := by
  cases hstep : other.step name with
  | none => rfl
  | some sub =>
    obtain ⟨sub', hstep', -⟩ := h.symm.exists_step hstep
    rw [hnone] at hstep'
    cases hstep'

end Reordered

end Expression

structure Growth.Reordered (growth other : Growth) : Prop where
  nodes_eq : growth.nodes = other.nodes
  remarks_perm : growth.remarks.Perm other.remarks
  allowance_eq : growth.allowance = other.allowance

namespace Site

structure Reordered (site other : Site) : Prop where
  entity_eq : site.entity = other.entity
  expression : site.expression.Reordered other.expression
  path_eq : site.path = other.path
  via_eq : site.via = other.via

def BranchReordered (branch other : Branch) : Prop :=
  branch.relation = other.relation ∧ branch.expression.Reordered other.expression

namespace Reordered

variable {site other : Site} {policy : Policy}

theorem perm_unknownNames (h : site.Reordered other) (relations : List Relation) :
    (site.unknownNames relations).Perm (other.unknownNames relations) := by
  rw [unknownNames, unknownNames, h.via_eq]
  exact h.expression.nodes.perm_names.filter _

theorem unknownRelation_eq (h : site.Reordered other) :
    site.unknownRelation = other.unknownRelation := by
  funext name
  simp only [unknownRelation, h.entity_eq, h.path_eq]

theorem exists_checkNames (h : site.Reordered other) (hlenient : policy.strict = false)
    {relations : List Relation} {remarks : List Diagnostic}
    (hnames : site.checkNames policy relations = .ok remarks) :
    ∃ remarks', other.checkNames policy relations = .ok remarks' ∧ remarks.Perm remarks' := by
  simp only [checkNames, hlenient, Except.ok.injEq] at hnames
  refine ⟨_, by simp only [checkNames, hlenient]; rfl, ?_⟩
  rw [← hnames, h.unknownRelation_eq]
  split
  case isTrue => exact (h.perm_unknownNames relations).map _
  case isFalse => exact .refl _

theorem maxDepthReached_eq (h : site.Reordered other) :
    site.maxDepthReached policy = other.maxDepthReached policy := by
  simp only [maxDepthReached, h.path_eq]

theorem maxNodesReached_eq (h : site.Reordered other) :
    site.maxNodesReached policy = other.maxNodesReached policy := by
  simp only [maxNodesReached, h.path_eq]

theorem branches (h : site.Reordered other) (relations : List Relation) :
    List.Forall₂ BranchReordered (site.branches relations) (other.branches relations) := by
  induction relations with
  | nil => exact .nil
  | cons relation rest ih =>
    simp only [Site.branches, List.filterMap_cons]
    cases hstep : site.expression.step relation.name with
    | none =>
      rw [h.expression.step_eq_none hstep]
      exact ih
    | some sub =>
      obtain ⟨sub', hstep', hsub⟩ := h.expression.exists_step hstep
      rw [hstep']
      exact .cons ⟨rfl, hsub⟩ ih

theorem next (h : site.Reordered other) {branch branch' : Branch}
    (hbranch : BranchReordered branch branch') :
    (site.next branch).Reordered (other.next branch') := by
  obtain ⟨hrelation, hexpression⟩ := hbranch
  refine ⟨?_, hexpression, ?_, ?_⟩
  · simp only [Site.next, hrelation]
  · simp only [Site.next, hrelation, h.path_eq]
  · simp only [Site.next, hrelation, h.expression.repeats_eq]

theorem node_eq (h : site.Reordered other) {branch branch' : Branch}
    (hbranch : BranchReordered branch branch') (children : List FetchNode) :
    site.node branch children = other.node branch' children := by
  simp only [node, hbranch.1, h.expression.repeats_eq, h.expression.selectsAll_eq]

/-- Growing the branches gives the same, up to the order of remarks, if the expansions behind them
do. -/
theorem exists_grow (h : site.Reordered other)
    {expandNext : Site → Allowance → Except LookupError Growth}
    (hnext : ∀ {next next' : Site}, next.Reordered next' → ∀ {allowance growth},
      expandNext next allowance = .ok growth →
        ∃ growth', expandNext next' allowance = .ok growth' ∧ growth.Reordered growth')
    {branches branches' : List Branch} (hbranches : List.Forall₂ BranchReordered branches branches')
    {allowance : Allowance} {growth : Growth}
    (hgrow : site.grow policy expandNext branches allowance = .ok growth) :
    ∃ growth', other.grow policy expandNext branches' allowance = .ok growth' ∧
      growth.Reordered growth' := by
  induction hbranches generalizing allowance growth with
  | nil =>
    cases hgrow
    exact ⟨_, rfl, rfl, .refl _, rfl⟩
  | @cons branch branch' rest rest' hbranch _ ih =>
    match allowance with
    | .spent =>
      cases hgrow
      exact ⟨_, rfl, rfl, .refl _, rfl⟩
    | .left 0 =>
      cases hgrow
      refine ⟨_, rfl, rfl, ?_, rfl⟩
      rw [h.maxNodesReached_eq]
    | .left (nodes + 1) =>
      obtain ⟨inner, outer, hinner, houter, rfl⟩ := grow_cons_eq_ok_iff.mp hgrow
      obtain ⟨inner', hinner', hsame⟩ := hnext (h.next hbranch) hinner
      rw [hsame.allowance_eq] at houter
      obtain ⟨outer', houter', hrest⟩ := ih houter
      refine ⟨_, grow_cons_eq_ok_iff.mpr ⟨inner', outer', hinner', houter', rfl⟩, ?_⟩
      constructor
      · simp only [h.node_eq hbranch, hsame.nodes_eq, hrest.nodes_eq]
      · exact hsame.remarks_perm.append hrest.remarks_perm
      · exact hrest.allowance_eq

theorem exists_expand {catalog : Catalog} (hlenient : policy.strict = false) {levels : Nat}
    (h : site.Reordered other) {allowance : Allowance} {growth : Growth}
    (hexpand : site.expand catalog policy levels allowance = .ok growth) :
    ∃ growth', other.expand catalog policy levels allowance = .ok growth' ∧
      growth.Reordered growth' := by
  induction levels generalizing site other allowance growth with
  | zero =>
    obtain ⟨relations, remarks, hfrom, hnames, rfl⟩ := expand_zero_eq_ok_iff.mp hexpand
    obtain ⟨remarks', hnames', hperm⟩ := h.exists_checkNames hlenient hnames
    rw [h.entity_eq] at hfrom
    refine ⟨_, expand_zero_eq_ok_iff.mpr ⟨relations, remarks', hfrom, hnames', rfl⟩, rfl, ?_, rfl⟩
    have hempty : (site.branches relations).isEmpty = (other.branches relations).isEmpty := by
      apply Bool.eq_iff_iff.mpr
      rw [List.isEmpty_iff_length_eq_zero, List.isEmpty_iff_length_eq_zero,
        (h.branches relations).length_eq]
    rw [h.maxDepthReached_eq, hempty]
    exact hperm.append_right _
  | succ levels ih =>
    obtain ⟨relations, remarks, grown, hfrom, hnames, hgrow, rfl⟩ :=
      expand_succ_eq_ok_iff.mp hexpand
    obtain ⟨remarks', hnames', hperm⟩ := h.exists_checkNames hlenient hnames
    obtain ⟨grown', hgrow', hsame⟩ := h.exists_grow ih (h.branches relations) hgrow
    rw [h.entity_eq] at hfrom
    refine ⟨_, expand_succ_eq_ok_iff.mpr
      ⟨relations, remarks', grown', hfrom, hnames', hgrow', rfl⟩, ?_⟩
    exact ⟨hsame.nodes_eq, hperm.append hsame.remarks_perm, hsame.allowance_eq⟩

end Reordered

end Site

/-- Under a lenient policy the plan of a request has the same nodes in whatever order the expression
lists siblings of distinct names, and its report holds the same diagnostics in some order. Without a
known root both requests are refused alike. -/
theorem Request.plan_of_reordered_siblings {schema : Schema} {catalog : Catalog}
    (hcatalog : schema.catalog = .ok catalog) {e other : Expression} (h : e.Reordered other)
    {policy : Policy} (hlenient : policy.strict = false) (root : String) :
    (catalog.hasEntity root = true → ∃ plan report plan' report',
      (Request.mk root e).plan catalog policy = .ok (plan, report) ∧
      (Request.mk root other).plan catalog policy = .ok (plan', report') ∧
      plan.nodes = plan'.nodes ∧ report.diagnostics.Perm report'.diagnostics) ∧
    (catalog.hasEntity root = false →
      (Request.mk root e).plan catalog policy = .error (.unknownEntity root) ∧
      (Request.mk root other).plan catalog policy = .error (.unknownEntity root)) := by
  have hc := Catalog.closed_of_schema hcatalog
  constructor
  · intro hroot
    obtain ⟨plan, report, hplan, -⟩ := exists_plan_of_lenient hc
      (show catalog.hasEntity (Request.mk root e).rootEntity = true from hroot) hlenient
    obtain ⟨entity, growth, hentity, hgrowth, rfl, rfl⟩ := plan_eq_ok_iff.mp hplan
    have hsite : (Request.mk root e).site.Reordered (Request.mk root other).site :=
      ⟨rfl, h, rfl, rfl⟩
    obtain ⟨growth', hgrowth', hsame⟩ := hsite.exists_expand hlenient hgrowth
    exact ⟨_, _, _, _, hplan, plan_eq_ok_iff.mpr ⟨entity, growth', hentity, hgrowth', rfl, rfl⟩,
      hsame.nodes_eq, hsame.remarks_perm⟩
  · intro hroot
    exact ⟨plan_eq_error_of_hasEntity hroot, plan_eq_error_of_hasEntity hroot⟩

/-- Siblings change places on two levels. The plan stays, while the cars and the toys, which a
person lacks, are remarked on in the order of the expression. -/
theorem Request.plan_of_reordered_siblings_family :
    let e : Expression := ⟨[⟨"cars", []⟩, ⟨"pets", [⟨"owner", []⟩, ⟨"vet", []⟩]⟩, ⟨"toys", []⟩]⟩
    let other : Expression :=
      ⟨[⟨"toys", []⟩, ⟨"pets", [⟨"vet", []⟩, ⟨"owner", []⟩]⟩, ⟨"cars", []⟩]⟩
    e.Reordered other ∧ familySchema.catalog = .ok familyCatalog ∧
      ∃ plan report plan' report',
        (Request.mk "person" e).plan familyCatalog {} = .ok (plan, report) ∧
        (Request.mk "person" other).plan familyCatalog {} = .ok (plan', report') ∧
        plan.nodes = plan'.nodes ∧ report.diagnostics.Perm report'.diagnostics ∧
        report.diagnostics.map (·.path) = ["cars", "toys", "pets.vet"] ∧
        report'.diagnostics.map (·.path) = ["toys", "cars", "pets.vet"] := by
  intro e other
  have hnodes : Forest.Reordered e.nodes other.nodes := by
    have hbelow : Forest.Reordered e.nodes
        [⟨"cars", []⟩, ⟨"pets", [⟨"vet", []⟩, ⟨"owner", []⟩]⟩, ⟨"toys", []⟩] :=
      .cons .nil (.cons .swap (.refl _))
    exact hbelow.trans (.of_perm (List.reverse_perm _).symm)
  have hreordered : e.Reordered other := ⟨by decide, hnodes⟩
  have hcatalog : familySchema.catalog = .ok familyCatalog := rfl
  have hroot : familyCatalog.hasEntity "person" = true := by decide
  have hlenient : Policy.strict {} = false := rfl
  obtain ⟨plan, report, plan', report', hplan, hplan', hsame, hperm⟩ :=
    (plan_of_reordered_siblings hcatalog hreordered hlenient "person").1 hroot
  refine ⟨hreordered, hcatalog, plan, report, plan', report', hplan, hplan', hsame, hperm, ?_, ?_⟩
  · have hrun : ∃ plan report, (Request.mk "person" e).plan familyCatalog {} = .ok (plan, report) ∧
        report.diagnostics.map (·.path) = ["cars", "toys", "pets.vet"] := ⟨_, _, rfl, rfl⟩
    obtain ⟨_, _, hrun, hpaths⟩ := hrun
    cases hplan.symm.trans hrun
    exact hpaths
  · have hrun : ∃ plan report,
        (Request.mk "person" other).plan familyCatalog {} = .ok (plan, report) ∧
          report.diagnostics.map (·.path) = ["toys", "cars", "pets.vet"] := ⟨_, _, rfl, rfl⟩
    obtain ⟨_, _, hrun, hpaths⟩ := hrun
    cases hplan'.symm.trans hrun
    exact hpaths

end Prefetch
