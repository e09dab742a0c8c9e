import Prefetch.Proofs.PlanChains
import Prefetch.Proofs.ReplayOutcome
import Mathlib.Tactic.Choose

/-!
# The limit on nodes

The rows of a plan with fewer nodes are the first rows of a plan with more. The remarks, apart from
the one that nodes were left out, are the first remarks. That one is made at most once and last. It
is made if and only if a larger limit gives more nodes, and it names the node below which the first
node was left out.

All runs of a request that differ only in the limit on nodes follow the same trace and stop before
the visit that the limit does not allow. So each of these facts is read off the trace.
-/

namespace Prefetch

theorem code_ne_of_mem_remarks {policy : Policy} {events : List Event} {remark : Diagnostic}
    (h : remark ∈ events.filterMap (Event.remark? policy)) :
    remark.code ≠ "max_nodes_reached" := by
  obtain ⟨event, -, hevent⟩ := List.mem_filterMap.mp h
  cases event with
  | unknown site name =>
    simp only [Event.remark?] at hevent
    split at hevent
    case isTrue =>
      cases hevent
      simp [Site.unknownRelation]
    case isFalse => cases hevent
  | bottom site =>
    cases hevent
    simp [Site.maxDepthReached]
  | visit v => cases hevent

theorem Event.remark?_maxNodes (policy : Policy) (nodes : Int) :
    Event.remark? { policy with maxNodes := nodes } = Event.remark? policy := by
  funext event
  cases event <;> rfl

/-- The results of planning on one trace, one for every limit on nodes. -/
structure FollowsTrace (events : List Event) (policy : Policy) (run : Int → FetchPlan × Report) :
    Prop where
  rows : ∀ nodes, (run nodes).1.placedRows =
    ((visits events).take nodes.toNat).map Visit.placedRow
  remarks : ∀ nodes, (run nodes).2.diagnostics =
    (beforeVisit nodes.toNat events).filterMap (Event.remark? policy) ++
      (visits events)[nodes.toNat]?.toList.map
        (·.site.maxNodesReached { policy with maxNodes := nodes })

namespace FollowsTrace

variable {events : List Event} {policy : Policy} {run : Int → FetchPlan × Report}

theorem rows_eq (h : FollowsTrace events policy run) (nodes : Int) :
    (run nodes).1.rows = ((visits events).take nodes.toNat).map Visit.row := by
  rw [← FetchPlan.map_snd_placedRows, h.rows, List.map_map]
  rfl

theorem length_rows (h : FollowsTrace events policy run) (nodes : Int) :
    (run nodes).1.rows.length = min nodes.toNat (visits events).length := by
  rw [h.rows_eq, List.length_map, List.length_take]

theorem rows_eq_take (h : FollowsTrace events policy run) {fewer more : Int}
    (hle : fewer ≤ more) : (run fewer).1.rows = (run more).1.rows.take fewer.toNat := by
  have hmin : min fewer.toNat more.toNat = fewer.toNat := by omega
  rw [h.rows_eq, h.rows_eq, ← List.map_take, List.take_take, hmin]

theorem filter_code_ne (h : FollowsTrace events policy run) (nodes : Int) :
    (run nodes).2.diagnostics.filter (·.code != "max_nodes_reached") =
      (beforeVisit nodes.toNat events).filterMap (Event.remark? policy) := by
  rw [h.remarks, List.filter_append, List.filter_eq_self.mpr, List.filter_eq_nil_iff.mpr,
    List.append_nil]
  · intro remark hremark
    simp [code_eq_of_mem_leftOut hremark]
  · intro remark hremark
    simpa using code_ne_of_mem_remarks hremark

theorem remarks_isPrefix (h : FollowsTrace events policy run) {fewer more : Int}
    (hle : fewer ≤ more) :
    (run fewer).2.diagnostics.filter (·.code != "max_nodes_reached") <+:
      (run more).2.diagnostics.filter (·.code != "max_nodes_reached") := by
  rw [h.filter_code_ne, h.filter_code_ne]
  exact (beforeVisit_isPrefix (by omega) events).filterMap _

theorem withCode_eq (h : FollowsTrace events policy run) (nodes : Int) :
    (run nodes).2.withCode "max_nodes_reached" =
      (visits events)[nodes.toNat]?.toList.map
        (·.site.maxNodesReached { policy with maxNodes := nodes }) := by
  rw [Report.withCode, h.remarks, List.filter_append, List.filter_eq_nil_iff.mpr,
    List.filter_eq_self.mpr, List.nil_append]
  · intro remark hremark
    simp [code_eq_of_mem_leftOut hremark]
  · intro remark hremark
    simpa using code_ne_of_mem_remarks hremark

/-- Nodes were left out if and only if a larger limit gives more of them. -/
theorem withCode_ne_nil_iff (h : FollowsTrace events policy run) (nodes : Int) :
    (run nodes).2.withCode "max_nodes_reached" ≠ [] ↔
      ∃ larger, nodes ≤ larger ∧ (run nodes).1.rows.length < (run larger).1.rows.length := by
  have hleftOut : (run nodes).2.withCode "max_nodes_reached" ≠ [] ↔
      nodes.toNat < (visits events).length := by
    rw [h.withCode_eq, Ne, List.map_eq_nil_iff, Option.toList_eq_nil_iff,
      List.getElem?_eq_none_iff, Nat.not_le]
  simp only [hleftOut, h.length_rows]
  constructor
  · intro hlt
    exact ⟨nodes.toNat + 1, by omega, by omega⟩
  · rintro ⟨larger, -, hlt⟩
    omega

theorem length_withCode_le (h : FollowsTrace events policy run) (nodes : Int) :
    ((run nodes).2.withCode "max_nodes_reached").length ≤ 1 := by
  rw [h.withCode_eq, List.length_map]
  cases (visits events)[nodes.toNat]? with
  | none => exact Nat.zero_le 1
  | some v => exact Nat.le_refl 1

theorem exists_visit_of_mem (h : FollowsTrace events policy run) {nodes : Int}
    {remark : Diagnostic} (hremark : remark ∈ (run nodes).2.withCode "max_nodes_reached") :
    ∃ v, (visits events)[nodes.toNat]? = some v ∧
      remark = v.site.maxNodesReached { policy with maxNodes := nodes } := by
  rw [h.withCode_eq] at hremark
  obtain ⟨v, hv, rfl⟩ := List.mem_map.mp hremark
  exact ⟨v, Option.mem_toList.mp hv, rfl⟩

theorem getLast?_eq (h : FollowsTrace events policy run) {nodes : Int} {remark : Diagnostic}
    (hremark : remark ∈ (run nodes).2.withCode "max_nodes_reached") :
    (run nodes).2.diagnostics.getLast? = some remark := by
  obtain ⟨v, hv, rfl⟩ := h.exists_visit_of_mem hremark
  rw [h.remarks, hv]
  exact List.getLast?_concat

/-- The path of the remark is that of the node above the first node that was left out. -/
theorem exists_placedRow (h : FollowsTrace events policy run) {nodes larger : Int}
    {remark : Diagnostic} (hremark : remark ∈ (run nodes).2.withCode "max_nodes_reached")
    (hmore : nodes.toNat < (run larger).1.rows.length) :
    ∃ row, (run larger).1.rows[nodes.toNat]? = some row ∧
      (run larger).1.placedRows[nodes.toNat]? = some (remark.path, row) := by
  obtain ⟨v, hv, rfl⟩ := h.exists_visit_of_mem hremark
  have hplaced : (run larger).1.placedRows[nodes.toNat]? = some v.placedRow := by
    rw [h.length_rows] at hmore
    rw [h.rows, List.getElem?_map, List.getElem?_take_of_lt (by omega), hv]
    rfl
  refine ⟨v.row, ?_, hplaced⟩
  rw [← FetchPlan.map_snd_placedRows, List.getElem?_map, hplaced]
  rfl

end FollowsTrace

/-- For every limit on nodes there is a plan, and all these plans follow one trace. -/
theorem Request.exists_run {catalog : Catalog} (hc : catalog.Closed) {request : Request}
    (hroot : catalog.hasEntity request.rootEntity = true) {policy : Policy}
    (hlenient : policy.strict = false) :
    ∃ run : Int → FetchPlan × Report,
      (∀ nodes, request.plan catalog { policy with maxNodes := nodes } = .ok (run nodes)) ∧
      FollowsTrace (request.trace catalog policy.levels) policy run := by
  have hplans := fun nodes : Int => Request.exists_plan_of_lenient hc hroot
    (show Policy.strict { policy with maxNodes := nodes } = false from hlenient)
  choose plan report hplan hrows hremarks using hplans
  refine ⟨fun nodes => (plan nodes, report nodes), hplan, hrows, ?_⟩
  intro nodes
  have hdiagnostics := hremarks nodes
  rw [Event.remark?_maxNodes] at hdiagnostics
  exact hdiagnostics

/-- Whatever the limit on nodes, a request for an unknown root is refused. Otherwise every limit has
its plan, and the plans are related as the limits are. A smaller limit keeps the first rows and the
first remarks. That nodes were left out is remarked at most once, as the last remark, and exactly if
some larger limit gives more nodes. The remark is made at the path of the node above the first one
that was left out. -/
theorem Request.plan_within_maxNodes {schema : Schema} {catalog : Catalog}
    (hcatalog : schema.catalog = .ok catalog) (request : Request) {policy : Policy}
    (hlenient : policy.strict = false) :
    (catalog.hasEntity request.rootEntity = false ∧
      ∀ nodes : Int, request.plan catalog { policy with maxNodes := nodes } =
        .error (.unknownEntity request.rootEntity)) ∨
    ∃ run : Int → FetchPlan × Report,
      (∀ nodes, request.plan catalog { policy with maxNodes := nodes } = .ok (run nodes)) ∧
      (∀ fewer more, fewer ≤ more →
        (run fewer).1.rows = (run more).1.rows.take fewer.toNat ∧
        (run fewer).2.diagnostics.filter (·.code != "max_nodes_reached") <+:
          (run more).2.diagnostics.filter (·.code != "max_nodes_reached")) ∧
      ∀ nodes,
        ((run nodes).2.withCode "max_nodes_reached" ≠ [] ↔
          ∃ larger, nodes ≤ larger ∧ (run nodes).1.rows.length < (run larger).1.rows.length) ∧
        ((run nodes).2.withCode "max_nodes_reached").length ≤ 1 ∧
        ∀ remark ∈ (run nodes).2.withCode "max_nodes_reached",
          (run nodes).2.diagnostics.getLast? = some remark ∧
          ∀ larger, nodes ≤ larger → nodes.toNat < (run larger).1.rows.length →
            ∃ row, (run larger).1.rows[nodes.toNat]? = some row ∧
              (run larger).1.placedRows[nodes.toNat]? = some (remark.path, row) := by
  cases hroot : catalog.hasEntity request.rootEntity with
  | false =>
    refine .inl ⟨rfl, fun nodes => ?_⟩
    exact Request.plan_eq_error_of_hasEntity hroot
  | true =>
    obtain ⟨run, hrun, htrace⟩ :=
      Request.exists_run (Catalog.closed_of_schema hcatalog) hroot hlenient
    refine .inr ⟨run, hrun, ?_, ?_⟩
    · intro fewer more hle
      exact ⟨htrace.rows_eq_take hle, htrace.remarks_isPrefix hle⟩
    · intro nodes
      refine ⟨htrace.withCode_ne_nil_iff nodes, htrace.length_withCode_le nodes, ?_⟩
      intro remark hremark
      exact ⟨htrace.getLast?_eq hremark,
        fun larger _ hmore => htrace.exists_placedRow hremark hmore⟩

/-- One node of `[pets.owner, children.^]` is a child. The next one, left out by the limit, is a
child of that child. -/
theorem Request.plan_within_maxNodes_family :
    familySchema.catalog = .ok familyCatalog ∧
    ∃ run : Int → FetchPlan × Report,
      (∀ nodes, familyRequest.plan familyCatalog { maxDepth := 2, maxNodes := nodes } =
        .ok (run nodes)) ∧
      (run 1).1.rows = (run 3).1.rows.take 1 ∧
      ∃ remark ∈ (run 1).2.withCode "max_nodes_reached",
        (run 1).2.diagnostics.getLast? = some remark ∧ remark.path = "children" := by
  have hcatalog : familySchema.catalog = .ok familyCatalog := rfl
  refine ⟨hcatalog, ?_⟩
  rcases Request.plan_within_maxNodes hcatalog familyRequest
    (show Policy.strict { maxDepth := 2 } = false from rfl) with
    ⟨hunknown, -⟩ | ⟨run, hrun, hpair, hsingle⟩
  · exact absurd hunknown (by decide)
  · refine ⟨run, hrun, (hpair 1 3 (by decide)).1, ?_⟩
    have hone : ∃ plan remark, familyRequest.plan familyCatalog { maxDepth := 2, maxNodes := 1 } =
        .ok (plan, ⟨[remark]⟩) ∧ remark.code = "max_nodes_reached" ∧ remark.path = "children" :=
      ⟨_, _, rfl, rfl, rfl⟩
    obtain ⟨plan, remark, hplan, hcode, hpath⟩ := hone
    have hreport : (run 1).2 = ⟨[remark]⟩ := by
      have hsame := (hrun 1).symm.trans hplan
      rw [Except.ok.inj hsame]
    have hmem : remark ∈ (run 1).2.withCode "max_nodes_reached" := by
      simp [hreport, Report.withCode, hcode]
    exact ⟨remark, hmem, ((hsingle 1).2.2 remark hmem).1, hpath⟩

end Prefetch
