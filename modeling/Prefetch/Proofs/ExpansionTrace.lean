import Prefetch.PlanExpansion
import Prefetch.Proofs.ExpansionSteps
import Prefetch.Proofs.KnownEntities
import Prefetch.Proofs.PlacedRows

/-!
# The trace of an expansion

What happens in an expansion, and in which order, depends on the catalog, the site and the number of
levels: unknown names are met, branches are visited, and the levels run out. The trace lists these
events as if there were nodes without end. What a policy makes of them is said by a replay, which
goes through the trace event by event with the allowance that is left. A strict policy refuses at
the first unknown name. Once a visit has to be left out, nothing that comes later matters.

The main statement is that expanding a site of a catalog and replaying its trace come to the same:
the same refusal, or the same rows, remarks and allowance. So two runs under different policies can
be compared on one trace.
-/

namespace Prefetch

structure Visit where
  site : Site
  depth : Nat
  branch : Branch
  deriving Repr

/-- Something that happens in an expansion: the expression names a relation that the entity of a
site lacks, the levels run out at a site with branches, or a branch is visited. -/
inductive Event where
  | unknown (site : Site) (name : String)
  | bottom (site : Site)
  | visit (v : Visit)
  deriving Repr

def Visit.row (v : Visit) : FetchRow where
  depth := v.depth
  relation := v.branch.relation.name
  entity := v.branch.relation.target
  recursive := v.site.expression.repeats v.branch.relation.name || v.site.expression.selectsAll

def Visit.placedRow (v : Visit) : String × FetchRow := (v.site.path, v.row)

namespace Site

def unknownEvents (catalog : Catalog) (site : Site) : List Event :=
  (site.unknownNames (catalog.leaving site.entity)).map (.unknown site)

/-- The events of an expansion by the given number of levels, the nodes of the site standing at the
given depth. -/
def trace (catalog : Catalog) : (levels depth : Nat) → Site → List Event
  | 0, _, site =>
    site.unknownEvents catalog ++
      if (site.branches (catalog.leaving site.entity)).isEmpty then [] else [.bottom site]
  | levels + 1, depth, site =>
    site.unknownEvents catalog ++
      (site.branches (catalog.leaving site.entity)).flatMap fun branch =>
        .visit ⟨site, depth, branch⟩ :: trace catalog levels (depth + 1) (site.next branch)

end Site

/-- What is left of a growth when only the rows of its nodes are kept. -/
structure Summary where
  rows : List (String × FetchRow)
  remarks : List Diagnostic
  allowance : Allowance
  deriving Repr

def Summary.append (first second : Summary) : Summary :=
  ⟨first.rows ++ second.rows, first.remarks ++ second.remarks, second.allowance⟩

@[simp] theorem Summary.allowance_append (first second : Summary) :
    (first.append second).allowance = second.allowance := rfl

def Growth.summary (path : String) (depth : Nat) (growth : Growth) : Summary :=
  ⟨FetchForest.placedRows path depth growth.nodes, growth.remarks, growth.allowance⟩

/-- What a policy makes of one event. -/
def Event.replay (policy : Policy) : Allowance → Event → Except LookupError Summary
  | .spent, _ => .ok ⟨[], [], .spent⟩
  | .left nodes, .unknown site name =>
    if policy.strict then .error (.unknownRelation name site.entity)
    else .ok ⟨[], if policy.warnUnknown then [site.unknownRelation name] else [], .left nodes⟩
  | .left nodes, .bottom site => .ok ⟨[], [site.maxDepthReached policy], .left nodes⟩
  | .left 0, .visit v => .ok ⟨[], [v.site.maxNodesReached policy], .spent⟩
  | .left (nodes + 1), .visit v => .ok ⟨[v.placedRow], [], .left nodes⟩

def replay (policy : Policy) : Allowance → List Event → Except LookupError Summary
  | allowance, [] => .ok ⟨[], [], allowance⟩
  | allowance, event :: events => do
    let first ← event.replay policy allowance
    let rest ← replay policy first.allowance events
    .ok (first.append rest)

section Replay

variable {policy : Policy}

theorem replay_spent (events : List Event) :
    replay policy .spent events = .ok ⟨[], [], .spent⟩ := by
  induction events with
  | nil => rfl
  | cons event events ih =>
    simp only [replay, Event.replay, bind, Except.bind, ih]
    rfl

theorem replay_append (allowance : Allowance) (events later : List Event) :
    replay policy allowance (events ++ later) = (do
      let first ← replay policy allowance events
      let rest ← replay policy first.allowance later
      .ok (first.append rest)) := by
  induction events generalizing allowance with
  | nil =>
    simp only [List.nil_append, replay, bind, Except.bind]
    cases replay policy allowance later with
    | error e => rfl
    | ok rest => rfl
  | cons event events ih =>
    simp only [List.cons_append, replay]
    cases event.replay policy allowance with
    | error e => rfl
    | ok first =>
      simp only [ih, bind, Except.bind]
      cases replay policy first.allowance events with
      | error e => rfl
      | ok middle =>
        simp only [Summary.allowance_append]
        cases replay policy middle.allowance later with
        | error e => rfl
        | ok rest => simp [Summary.append]

/-- Replaying the unknown names of a site is checking its names. -/
theorem replay_unknownNames (site : Site) (relations : List Relation) (nodes : Nat) :
    replay policy (.left nodes) ((site.unknownNames relations).map (.unknown site)) =
      (site.checkNames policy relations).map fun remarks => ⟨[], remarks, .left nodes⟩ := by
  generalize hnames : site.unknownNames relations = names
  cases hstrict : policy.strict with
  | true =>
    cases names with
    | nil => simp [Site.checkNames, hstrict, hnames, replay, Except.map]
    | cons name names =>
      simp [Site.checkNames, hstrict, hnames, replay, Event.replay, Except.map, bind, Except.bind]
  | false =>
    have hlenient : replay policy (.left nodes) (names.map (.unknown site)) =
        .ok ⟨[], if policy.warnUnknown then names.map site.unknownRelation else [],
          .left nodes⟩ := by
      clear hnames
      induction names with
      | nil => simp [replay]
      | cons name names ih =>
        simp only [List.map_cons, replay, Event.replay, hstrict, Bool.false_eq_true, if_false,
          bind, Except.bind, ih, Summary.append]
        split <;> rfl
    rw [hlenient, Site.checkNames, hstrict, hnames]
    rfl

end Replay

namespace Site

variable {catalog : Catalog} {policy : Policy}

/-- Growing branches is replaying their visits, each followed by what happens behind the branch, if
this holds of the expansions behind them. -/
theorem grow_summary {site : Site} {expandNext : Site → Allowance → Except LookupError Growth}
    {traceNext : Site → List Event} {depth : Nat} {branches : List Branch}
    (hnext : ∀ branch ∈ branches, ∀ nodes,
      (expandNext (site.next branch) (.left nodes)).map
          (Growth.summary (site.next branch).path (depth + 1)) =
        replay policy (.left nodes) (traceNext (site.next branch)))
    (allowance : Allowance) :
    (site.grow policy expandNext branches allowance).map (Growth.summary site.path depth) =
      replay policy allowance (branches.flatMap fun branch =>
        .visit ⟨site, depth, branch⟩ :: traceNext (site.next branch)) := by
  induction branches generalizing allowance with
  | nil => rfl
  | cons branch rest ih =>
    have hrest := ih fun other hother => hnext other (List.mem_cons_of_mem _ hother)
    match allowance with
    | .spent =>
      rw [replay_spent]
      rfl
    | .left 0 =>
      simp only [List.flatMap_cons, List.cons_append, replay, Event.replay, bind, Except.bind,
        replay_spent]
      rfl
    | .left (nodes + 1) =>
      have hbranch := hnext branch List.mem_cons_self nodes
      simp only [List.flatMap_cons, List.cons_append, replay, Event.replay, replay_append,
        ← hbranch, grow, bind, Except.bind]
      cases expandNext (site.next branch) (.left nodes) with
      | error e => rfl
      | ok inner =>
        have houter := hrest inner.allowance
        simp only [Except.map, Growth.summary] at houter ⊢
        rw [← houter]
        cases site.grow policy expandNext rest inner.allowance with
        | error e => rfl
        | ok outer =>
          simp only [Summary.append, FetchForest.placedRows_cons]
          rfl

/-- Expanding a site on a known entity is replaying its trace. -/
theorem expand_summary (hc : catalog.Closed) {levels depth : Nat} {site : Site}
    (hknown : catalog.hasEntity site.entity = true) (nodes : Nat) :
    (site.expand catalog policy levels (.left nodes)).map (Growth.summary site.path depth) =
      replay policy (.left nodes) (site.trace catalog levels depth) := by
  induction levels generalizing depth site nodes with
  | zero =>
    simp only [expand, trace, hc.relationsFrom_eq hknown, bind, Except.bind, replay_append,
      unknownEvents, replay_unknownNames]
    cases site.checkNames policy (catalog.leaving site.entity) with
    | error e => rfl
    | ok remarks =>
      cases (site.branches (catalog.leaving site.entity)).isEmpty with
      | true => simp [replay, Growth.summary, Summary.append, Except.map]
      | false =>
        simp [replay, Event.replay, Growth.summary, Summary.append, Except.map, bind, Except.bind]
  | succ levels ih =>
    have hgrow : ∀ allowance,
        (site.grow policy (expand catalog policy levels)
          (site.branches (catalog.leaving site.entity)) allowance).map
            (Growth.summary site.path depth) =
          replay policy allowance ((site.branches (catalog.leaving site.entity)).flatMap
            fun branch => .visit ⟨site, depth, branch⟩ ::
              trace catalog levels (depth + 1) (site.next branch)) := by
      refine grow_summary ?_
      intro branch hbranch nodes
      have htarget := hc.hasEntity_target (mem_branches.mp hbranch).1
      exact ih htarget nodes
    simp only [expand, trace, hc.relationsFrom_eq hknown, bind, Except.bind, replay_append,
      unknownEvents, replay_unknownNames]
    cases site.checkNames policy (catalog.leaving site.entity) with
    | error e => rfl
    | ok remarks =>
      simp only [Except.map, ← hgrow]
      cases site.grow policy (expand catalog policy levels)
          (site.branches (catalog.leaving site.entity)) (.left nodes) with
      | error e => rfl
      | ok grown => simp [Growth.summary, Summary.append]

end Site

namespace Request

variable {catalog : Catalog} {request : Request} {policy : Policy}

def trace (request : Request) (catalog : Catalog) (levels : Nat) : List Event :=
  request.site.trace catalog levels 0

theorem expand_summary (hc : catalog.Closed) (hroot : catalog.hasEntity request.rootEntity = true) :
    (request.site.expand catalog policy policy.levels policy.allowance).map
        (Growth.summary "" 0) =
      replay policy policy.allowance (request.trace catalog policy.levels) :=
  Site.expand_summary hc hroot policy.maxNodes.toNat

theorem exists_plan_of_replay (hc : catalog.Closed)
    (hroot : catalog.hasEntity request.rootEntity = true) {summary : Summary}
    (h : replay policy policy.allowance (request.trace catalog policy.levels) = .ok summary) :
    ∃ plan, request.plan catalog policy = .ok (plan, ⟨summary.remarks⟩) ∧
      plan.placedRows = summary.rows := by
  rw [← expand_summary hc hroot, map_eq_ok_iff] at h
  obtain ⟨growth, hgrowth, rfl⟩ := h
  obtain ⟨entity, hentity⟩ := Catalog.entity_eq_ok_iff.mpr hroot
  exact ⟨⟨request.rootEntity, request.wanted.text, growth.nodes⟩,
    plan_eq_ok_iff.mpr ⟨entity, growth, hentity, hgrowth, rfl, rfl⟩, rfl⟩

theorem plan_eq_error_of_replay (hc : catalog.Closed)
    (hroot : catalog.hasEntity request.rootEntity = true) {e : LookupError}
    (h : replay policy policy.allowance (request.trace catalog policy.levels) = .error e) :
    request.plan catalog policy = .error e := by
  rw [← expand_summary hc hroot] at h
  obtain ⟨entity, hentity⟩ := Catalog.entity_eq_ok_iff.mpr hroot
  simp only [plan, hentity, bind, Except.bind]
  cases hexpand : request.site.expand catalog policy policy.levels policy.allowance with
  | error e' =>
    rw [hexpand] at h
    cases h
    rfl
  | ok growth =>
    rw [hexpand] at h
    cases h

theorem plan_eq_error_of_hasEntity (hroot : catalog.hasEntity request.rootEntity = false) :
    request.plan catalog policy = .error (.unknownEntity request.rootEntity) := by
  simp only [Catalog.hasEntity, Index.contains, Option.isSome_eq_false_iff,
    Option.isNone_iff_eq_none] at hroot
  simp only [plan, Catalog.entity, hroot]
  rfl

theorem plan_ext {policy' : Policy} {plan plan' : FetchPlan} {report report' : Report}
    (h : request.plan catalog policy = .ok (plan, report))
    (h' : request.plan catalog policy' = .ok (plan', report'))
    (hrows : plan.placedRows = plan'.placedRows) : plan = plan' := by
  obtain ⟨-, growth, -, -, rfl, -⟩ := plan_eq_ok_iff.mp h
  obtain ⟨-, growth', -, -, rfl, -⟩ := plan_eq_ok_iff.mp h'
  have hmap := congrArg (List.map Prod.snd) hrows
  rw [FetchPlan.map_snd_placedRows, FetchPlan.map_snd_placedRows] at hmap
  have hnodes : growth.nodes = growth'.nodes := FetchForest.rows_injective hmap
  rw [hnodes]

end Request

end Prefetch
