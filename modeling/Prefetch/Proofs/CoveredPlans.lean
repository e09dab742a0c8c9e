import Prefetch.Proofs.CoveragePaths
import Prefetch.Proofs.PlanChains

/-!
# Plans of covered expressions

Data fetched for one expression can be used for another one that it covers. A chain of the plan of
the covered expression is a walk of the catalog that this expression admits, so the covering one
admits it as well, and a plan from which nothing was left out has it. Both plans are made on the
same catalog to the same depth. Otherwise the policies may differ.
-/

namespace Prefetch

theorem FetchPlan.Reaches.entity_unique {catalog : Catalog} (hd : catalog.Distinct)
    {request : Request} {policy : Policy} {plan : FetchPlan} {report : Report}
    (h : request.plan catalog policy = .ok (plan, report)) {names : List String} {last : String}
    (hwalk : catalog.Walk request.rootEntity names last) {node : FetchNode}
    (hreach : plan.Reaches names node) : node.entity = last :=
  (Request.isChain_of_reaches h hreach).walk.last_unique hd hwalk

/-- If `f` covers `r` and nothing was left out of the plan of `f`, then the plan of `f` holds every
chain of the plan of `r`, and it ends on the same entity. -/
theorem plan_chains_of_covers {schema : Schema} {catalog : Catalog}
    (hcatalog : schema.catalog = .ok catalog) {root : String} {f r : Expression}
    (hlast : r.repeatsLast = true) (hcovers : f.covers r = true) {policy policy' : Policy}
    (hdepth : policy.maxDepth = policy'.maxDepth) {plan plan' : FetchPlan}
    {report report' : Report}
    (hf : (Request.mk root f).plan catalog policy = .ok (plan, report))
    (hr : (Request.mk root r).plan catalog policy' = .ok (plan', report'))
    (hfull : report.withCode "max_nodes_reached" = []) {names : List String} {node : FetchNode}
    (hreach : plan'.Reaches names node) :
    (∃ own, plan.Reaches names own) ∧ ∀ own, plan.Reaches names own → own.entity = node.entity := by
  have hchain := Request.isChain_of_reaches hr hreach
  have hlength : names.length ≤ policy.levels := by
    rw [Policy.levels, hdepth]
    exact hchain.length_le
  have hne : names ≠ [] := by
    obtain ⟨front, name, -, rfl, -, -⟩ := hchain.flag
    simp
  have hadmits : f.Admits names := Expression.admits_of_covers hlast hcovers hchain.admitted
  constructor
  · obtain ⟨own, hown, -⟩ :=
      Request.exists_reaches_of_walk hf hfull hchain.walk hne hlength hadmits
    exact ⟨own, hown⟩
  · intro own hown
    exact hown.entity_unique (Catalog.distinct_of_schema hcatalog) hf hchain.walk

/-- The plan of `*` holds the chains of the plan of `[pets, children.^]`. -/
theorem plan_chains_of_covers_family :
    let f : Expression := ⟨[⟨"*", []⟩]⟩
    let r : Expression := ⟨[⟨"pets", []⟩, ⟨"children", [⟨"^", []⟩]⟩]⟩
    r.repeatsLast = true ∧ f.covers r = true ∧
      ∃ plan report, (Request.mk "person" f).plan familyCatalog { maxDepth := 2 } =
          .ok (plan, report) ∧ report.withCode "max_nodes_reached" = [] ∧
        (∃ own, plan.Reaches ["children", "children"] own) ∧
        ∀ own, plan.Reaches ["children", "children"] own → own.entity = "person" := by
  intro f r
  have hcatalog : familySchema.catalog = .ok familyCatalog := rfl
  have hlast : r.repeatsLast = true := by decide
  have hcovers : f.covers r = true := by cbv
  have hdepth : Policy.maxDepth { maxDepth := 2 } =
      Policy.maxDepth { maxDepth := 2, maxNodes := 3 } := rfl
  have hf : ∃ plan report, (Request.mk "person" f).plan familyCatalog { maxDepth := 2 } =
      .ok (plan, report) ∧ report.withCode "max_nodes_reached" = [] := ⟨_, _, rfl, rfl⟩
  have hr : ∃ text report', (Request.mk "person" r).plan familyCatalog
      { maxDepth := 2, maxNodes := 3 } = .ok (⟨"person", text, [⟨"children", "person", true,
        [⟨"children", "person", true, []⟩]⟩, ⟨"pets", "pet", false, []⟩]⟩, report') :=
    ⟨_, _, rfl⟩
  obtain ⟨plan, report, hplan, hfull⟩ := hf
  obtain ⟨text, report', hr⟩ := hr
  refine ⟨hlast, hcovers, plan, report, hplan, hfull, ?_⟩
  exact plan_chains_of_covers hcatalog hlast hcovers hdepth hplan hr hfull
    (.child List.mem_cons_self (.root List.mem_cons_self))

end Prefetch
