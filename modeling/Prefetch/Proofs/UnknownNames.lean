import Prefetch.Proofs.PlanChains
import Prefetch.Proofs.ReplayOutcome

/-!
# Unknown names under different policies

Policies with the same limits differ only in how they report a name that an entity lacks. A lenient
policy either warns of every such name or passes over it in silence, and plans the same either way.
A strict policy refuses the first name of which the lenient one warns. If there is none to warn of,
then it gives the same plan and the same remarks.
-/

namespace Prefetch

section Remarks

variable {policy other : Policy}

theorem filter_code_eq_unknown (hwarn : policy.warnUnknown = true) (events : List Event) :
    (events.filterMap (Event.remark? policy)).filter (·.code == "unknown_relation") =
      (events.filterMap Event.unknown?).map fun found => found.1.unknownRelation found.2 := by
  induction events with
  | nil => rfl
  | cons event events ih =>
    cases event with
    | unknown site name =>
      simp only [List.filterMap_cons, Event.remark?, hwarn, if_true, Event.unknown?,
        List.map_cons, ← ih]
      exact List.filter_cons_of_pos rfl
    | bottom site =>
      simp only [List.filterMap_cons, Event.remark?, Event.unknown?, ← ih]
      exact List.filter_cons_of_neg (by simp [Site.maxDepthReached])
    | visit v => exact ih

theorem filter_code_ne_unknown (hdepth : policy.maxDepth = other.maxDepth)
    (hwarn : policy.warnUnknown = true) (hsilent : other.warnUnknown = false)
    (events : List Event) :
    (events.filterMap (Event.remark? policy)).filter (·.code != "unknown_relation") =
      events.filterMap (Event.remark? other) := by
  induction events with
  | nil => rfl
  | cons event events ih =>
    cases event with
    | unknown site name =>
      simp only [List.filterMap_cons, Event.remark?, hwarn, hsilent, if_true, Bool.false_eq_true,
        if_false, ← ih]
      exact List.filter_cons_of_neg (by simp [Site.unknownRelation])
    | bottom site =>
      have hsame : site.maxDepthReached policy = site.maxDepthReached other := by
        simp only [Site.maxDepthReached, hdepth]
      simp only [List.filterMap_cons, Event.remark?, ← ih, ← hsame]
      exact List.filter_cons_of_pos (by simp [Site.maxDepthReached])
    | visit v => exact ih

theorem filterMap_remark?_congr (hdepth : policy.maxDepth = other.maxDepth) {events : List Event}
    (h : events.filterMap Event.unknown? = []) :
    events.filterMap (Event.remark? policy) = events.filterMap (Event.remark? other) := by
  rw [List.filterMap_eq_nil_iff] at h
  apply List.filterMap_congr
  intro event hevent
  cases event with
  | unknown site name => cases h _ hevent
  | bottom site => simp only [Event.remark?, Site.maxDepthReached, hdepth]
  | visit v => rfl

end Remarks

namespace Request

variable {catalog : Catalog} {request : Request} {policy other : Policy} {plan : FetchPlan}
  {report : Report}

theorem plan_eq_of_replay (hc : catalog.Closed)
    (hroot : catalog.hasEntity request.rootEntity = true)
    (hplan : request.plan catalog policy = .ok (plan, report)) {summary : Summary}
    (hreplay : replay other other.allowance (request.trace catalog other.levels) = .ok summary)
    (hrows : summary.rows = plan.placedRows) {diagnostics : List Diagnostic}
    (hremarks : summary.remarks = diagnostics) :
    request.plan catalog other = .ok (plan, ⟨diagnostics⟩) := by
  obtain ⟨plan', hplan', hrows'⟩ := exists_plan_of_replay hc hroot hreplay
  rw [plan_ext hplan hplan' (by rw [hrows', hrows]), ← hremarks]
  exact hplan'

def met (request : Request) (catalog : Catalog) (policy : Policy) : List Event :=
  beforeVisit policy.maxNodes.toNat (request.trace catalog policy.levels)

def leftOut (request : Request) (catalog : Catalog) (policy : Policy) : Option Visit :=
  (visits (request.trace catalog policy.levels))[policy.maxNodes.toNat]?

/-- What comes of planning with warnings of unknown names, read off the trace. -/
structure Warned (catalog : Catalog) (request : Request) (policy : Policy) (plan : FetchPlan)
    (report : Report) : Prop where
  plan_eq : request.plan catalog { policy with strict := false, warnUnknown := true } =
    .ok (plan, report)
  rows : plan.placedRows = ((visits (request.trace catalog policy.levels)).take
    policy.maxNodes.toNat).map Visit.placedRow
  remarks : report.diagnostics =
    (request.met catalog policy).filterMap
      (Event.remark? { policy with strict := false, warnUnknown := true }) ++
    (request.leftOut catalog policy).toList.map (·.site.maxNodesReached policy)

theorem exists_warned (hc : catalog.Closed) (hroot : catalog.hasEntity request.rootEntity = true)
    (policy : Policy) : ∃ plan report, Warned catalog request policy plan report := by
  obtain ⟨plan, report, hplan, hrows, hremarks⟩ := exists_plan_of_lenient hc hroot
    (show Policy.strict { policy with strict := false, warnUnknown := true } = false from rfl)
  exact ⟨plan, report, hplan, hrows, hremarks⟩

theorem plan_of_strict_of_met (hc : catalog.Closed)
    (hroot : catalog.hasEntity request.rootEntity = true) {site : Site} {name : String}
    {rest : List (Site × String)}
    (hunknown : (request.met catalog policy).filterMap Event.unknown? = (site, name) :: rest)
    (warn : Bool) :
    request.plan catalog { policy with strict := true, warnUnknown := warn } =
      .error (.unknownRelation name site.entity) := by
  apply plan_eq_error_of_replay hc hroot
  have hreplay := replay_of_strict
    (show Policy.strict { policy with strict := true, warnUnknown := warn } = true from rfl)
    policy.maxNodes.toNat (request.trace catalog policy.levels)
  rw [met] at hunknown
  rw [hunknown] at hreplay
  exact hreplay

namespace Warned

theorem withCode_eq (h : Warned catalog request policy plan report) :
    report.withCode "unknown_relation" =
      ((request.met catalog policy).filterMap Event.unknown?).map
        fun found => found.1.unknownRelation found.2 := by
  rw [Report.withCode, h.remarks, List.filter_append, filter_code_eq_unknown rfl,
    List.filter_eq_nil_iff.mpr, List.append_nil]
  intro remark hremark
  simp [code_eq_of_mem_leftOut hremark]

theorem plan_of_strict (h : Warned catalog request policy plan report) (hc : catalog.Closed)
    (hroot : catalog.hasEntity request.rootEntity = true)
    (hunknown : (request.met catalog policy).filterMap Event.unknown? = []) (warn : Bool) :
    request.plan catalog { policy with strict := true, warnUnknown := warn } =
      .ok (plan, report) := by
  have hreplay := replay_of_strict
    (show Policy.strict { policy with strict := true, warnUnknown := warn } = true from rfl)
    policy.maxNodes.toNat (request.trace catalog policy.levels)
  obtain ⟨allowance, hlenient⟩ := replay_of_lenient
    (show Policy.strict { policy with strict := false, warnUnknown := warn } = false from rfl)
    policy.maxNodes.toNat (request.trace catalog policy.levels)
  have hsame : (request.met catalog policy).filterMap
        (Event.remark? { policy with strict := false, warnUnknown := true }) =
      (request.met catalog policy).filterMap
        (Event.remark? { policy with strict := false, warnUnknown := warn }) := by
    apply filterMap_remark?_congr _ hunknown
    rfl
  have hremarks := h.remarks
  rw [hsame] at hremarks
  rw [met] at hunknown
  rw [hunknown] at hreplay
  exact plan_eq_of_replay hc hroot h.plan_eq (hreplay.trans hlenient) h.rows.symm hremarks.symm

theorem plan_of_silent (h : Warned catalog request policy plan report) (hc : catalog.Closed)
    (hroot : catalog.hasEntity request.rootEntity = true) :
    request.plan catalog { policy with strict := false, warnUnknown := false } =
      .ok (plan, ⟨report.diagnostics.filter (·.code != "unknown_relation")⟩) := by
  obtain ⟨allowance, hlenient⟩ := replay_of_lenient
    (show Policy.strict { policy with strict := false, warnUnknown := false } = false from rfl)
    policy.maxNodes.toNat (request.trace catalog policy.levels)
  have hfilter : ((request.met catalog policy).filterMap
        (Event.remark? { policy with strict := false, warnUnknown := true })).filter
          (·.code != "unknown_relation") =
      (request.met catalog policy).filterMap
        (Event.remark? { policy with strict := false, warnUnknown := false }) := by
    apply filter_code_ne_unknown <;> rfl
  apply plan_eq_of_replay hc hroot h.plan_eq hlenient h.rows.symm
  rw [h.remarks, List.filter_append, hfilter, List.filter_eq_self.mpr]
  · rfl
  · intro remark hremark
    simp [code_eq_of_mem_leftOut hremark]

end Warned

end Request

/-- Three ways to treat unknown names, with the same limits. A policy that warns always gives a
plan. A strict one refuses exactly if it warns of a name, and names what the first warning is about.
Otherwise it gives the same plan and the same remarks. A silent one gives the same plan, and the
remarks that are no warnings of unknown names. -/
theorem Request.plan_of_unknown_names {schema : Schema} {catalog : Catalog}
    (hcatalog : schema.catalog = .ok catalog) {request : Request}
    (hroot : catalog.hasEntity request.rootEntity = true) (policy : Policy) :
    ∃ plan report,
      request.plan catalog { policy with strict := false, warnUnknown := true } =
        .ok (plan, report) ∧
      (∀ warn,
        ((∃ name entity,
            request.plan catalog { policy with strict := true, warnUnknown := warn } =
              .error (.unknownRelation name entity)) ↔
          report.withCode "unknown_relation" ≠ []) ∧
        (∀ name entity,
          request.plan catalog { policy with strict := true, warnUnknown := warn } =
              .error (.unknownRelation name entity) →
            ∃ first, (report.withCode "unknown_relation").head? = some first ∧
              first.message =
                "relation '" ++ name ++ "' is not defined on entity '" ++ entity ++ "'" ∧
              ∃ site : Site, site.entity = entity ∧ first = site.unknownRelation name) ∧
        (report.withCode "unknown_relation" = [] →
          request.plan catalog { policy with strict := true, warnUnknown := warn } =
            .ok (plan, report))) ∧
      request.plan catalog { policy with strict := false, warnUnknown := false } =
        .ok (plan, ⟨report.diagnostics.filter (·.code != "unknown_relation")⟩) := by
  have hc := Catalog.closed_of_schema hcatalog
  obtain ⟨plan, report, hwarned⟩ := Request.exists_warned hc hroot policy
  refine ⟨plan, report, hwarned.plan_eq, ?_, hwarned.plan_of_silent hc hroot⟩
  intro warn
  cases hunknown : (request.met catalog policy).filterMap Event.unknown? with
  | nil =>
    have hnone : report.withCode "unknown_relation" = [] := by
      rw [hwarned.withCode_eq, hunknown, List.map_nil]
    have haccepted := hwarned.plan_of_strict hc hroot hunknown warn
    refine ⟨⟨?_, fun hne => absurd hnone hne⟩, ?_, fun _ => haccepted⟩
    · rintro ⟨name, entity, hrefused⟩
      rw [haccepted] at hrefused
      cases hrefused
    · intro name entity hrefused
      rw [haccepted] at hrefused
      cases hrefused
  | cons found rest =>
    obtain ⟨site, name⟩ := found
    have hfirst : (report.withCode "unknown_relation").head? =
        some (site.unknownRelation name) := by
      rw [hwarned.withCode_eq, hunknown, List.map_cons, List.head?_cons]
    have hsome : report.withCode "unknown_relation" ≠ [] := by
      intro hnone
      rw [hnone] at hfirst
      cases hfirst
    have hrefused := Request.plan_of_strict_of_met hc hroot hunknown warn
    refine ⟨⟨fun _ => hsome, fun _ => ⟨name, site.entity, hrefused⟩⟩, ?_,
      fun hnone => absurd hnone hsome⟩
    intro name' entity hrefused'
    rw [hrefused] at hrefused'
    cases hrefused'
    exact ⟨site.unknownRelation name, hfirst, rfl, site, rfl, rfl⟩

/-- A person has neither cars nor, as a child, toys. The strict policy names the cars, which are met
before any child is visited. -/
theorem Request.plan_of_unknown_names_family :
    let request : Request := ⟨"person", ⟨[⟨"children", [⟨"toys", []⟩]⟩, ⟨"cars", []⟩]⟩⟩
    familySchema.catalog = .ok familyCatalog ∧
    familyCatalog.hasEntity request.rootEntity = true ∧
    ∃ plan report, request.plan familyCatalog {} = .ok (plan, report) ∧
      request.plan familyCatalog { strict := true } =
        .error (.unknownRelation "cars" "person") ∧
      ∃ first, (report.withCode "unknown_relation").head? = some first ∧
        first.message = "relation 'cars' is not defined on entity 'person'" := by
  intro request
  have hcatalog : familySchema.catalog = .ok familyCatalog := rfl
  have hroot : familyCatalog.hasEntity request.rootEntity = true := by decide
  refine ⟨hcatalog, hroot, ?_⟩
  obtain ⟨plan, report, hplan, hstrict, -⟩ := Request.plan_of_unknown_names hcatalog hroot {}
  have hrefused : request.plan familyCatalog { strict := true } =
      .error (.unknownRelation "cars" "person") := rfl
  obtain ⟨first, hfirst, hmessage, -⟩ := (hstrict true).2.1 "cars" "person" hrefused
  exact ⟨plan, report, hplan, hrefused, first, hfirst, hmessage⟩

end Prefetch
