import Prefetch.Proofs.ExpansionTrace

/-!
# What a replay comes to

A lenient policy makes the first visits of a trace, as many as it allows nodes. The remarks are
those on the events before the first visit that is left out, and a last one on that visit. A strict
policy does the same, unless one of these events is an unknown name. Then it refuses the first.
-/

namespace Prefetch

namespace Event

def visit? : Event → Option Visit
  | .visit v => some v
  | _ => none

def unknown? : Event → Option (Site × String)
  | .unknown site name => some (site, name)
  | _ => none

/-- The remark that a lenient policy makes on an event. Visits are not remarked on. -/
def remark? (policy : Policy) : Event → Option Diagnostic
  | .unknown site name => if policy.warnUnknown then some (site.unknownRelation name) else none
  | .bottom site => some (site.maxDepthReached policy)
  | .visit _ => none

end Event

def visits (events : List Event) : List Visit := events.filterMap Event.visit?

/-- The events before the visit of the given number, all events if there are not so many visits. -/
def beforeVisit : Nat → List Event → List Event
  | _, [] => []
  | 0, .visit _ :: _ => []
  | number + 1, .visit v :: events => .visit v :: beforeVisit number events
  | number, .unknown site name :: events => .unknown site name :: beforeVisit number events
  | number, .bottom site :: events => .bottom site :: beforeVisit number events

theorem beforeVisit_isPrefix {number later : Nat} (h : number ≤ later) (events : List Event) :
    beforeVisit number events <+: beforeVisit later events := by
  induction events generalizing number later with
  | nil => exact List.prefix_rfl
  | cons event events ih =>
    cases event with
    | unknown site name => exact (List.prefix_cons_inj _).mpr (ih h)
    | bottom site => exact (List.prefix_cons_inj _).mpr (ih h)
    | visit v =>
      cases number with
      | zero => exact List.nil_prefix
      | succ number =>
        obtain ⟨later, rfl⟩ : ∃ rest, later = rest + 1 := ⟨later - 1, by omega⟩
        exact (List.prefix_cons_inj _).mpr (ih (by omega))

/-- A lenient policy makes the first visits, and remarks on what comes before the first visit that
is left out and on that visit. -/
theorem replay_of_lenient {policy : Policy} (hlenient : policy.strict = false) (nodes : Nat)
    (events : List Event) :
    ∃ allowance, replay policy (.left nodes) events =
      .ok ⟨((visits events).take nodes).map Visit.placedRow,
        (beforeVisit nodes events).filterMap (Event.remark? policy) ++
          (visits events)[nodes]?.toList.map (·.site.maxNodesReached policy), allowance⟩ := by
  induction events generalizing nodes with
  | nil => exact ⟨.left nodes, by simp [replay, visits, beforeVisit]⟩
  | cons event events ih =>
    cases event with
    | unknown site name =>
      obtain ⟨allowance, hreplay⟩ := ih nodes
      refine ⟨allowance, ?_⟩
      simp only [replay, Event.replay, hlenient, Bool.false_eq_true, if_false, bind, Except.bind,
        hreplay, Summary.append, visits, List.filterMap_cons, Event.visit?, beforeVisit,
        Event.remark?]
      split <;> rfl
    | bottom site =>
      obtain ⟨allowance, hreplay⟩ := ih nodes
      refine ⟨allowance, ?_⟩
      simp only [replay, Event.replay, bind, Except.bind, hreplay, Summary.append, visits,
        List.filterMap_cons, Event.visit?, beforeVisit, Event.remark?]
      rfl
    | visit v =>
      cases nodes with
      | zero =>
        refine ⟨.spent, ?_⟩
        simp only [replay, Event.replay, bind, Except.bind, replay_spent, Summary.append, visits,
          List.filterMap_cons, Event.visit?, beforeVisit]
        rfl
      | succ nodes =>
        obtain ⟨allowance, hreplay⟩ := ih nodes
        refine ⟨allowance, ?_⟩
        simp only [replay, Event.replay, bind, Except.bind, hreplay, Summary.append, visits,
          List.filterMap_cons, Event.visit?, beforeVisit, Event.remark?, List.take_succ_cons,
          List.getElem?_cons_succ]
        rfl

/-- A strict policy refuses the first unknown name before the first visit that is left out. If there
is none, then it does what a lenient one does. -/
theorem replay_of_strict {policy : Policy} (hstrict : policy.strict = true) (nodes : Nat)
    (events : List Event) :
    replay policy (.left nodes) events =
      match (beforeVisit nodes events).filterMap Event.unknown? with
      | (site, name) :: _ => .error (.unknownRelation name site.entity)
      | [] => replay { policy with strict := false } (.left nodes) events := by
  induction events generalizing nodes with
  | nil => rfl
  | cons event events ih =>
    cases event with
    | unknown site name =>
      simp only [replay, Event.replay, hstrict, if_true, beforeVisit, List.filterMap_cons,
        Event.unknown?]
      rfl
    | bottom site =>
      simp only [replay, Event.replay, ih, beforeVisit, List.filterMap_cons, Event.unknown?, bind,
        Except.bind]
      cases (beforeVisit nodes events).filterMap Event.unknown? with
      | nil => rfl
      | cons first rest => rfl
    | visit v =>
      cases nodes with
      | zero => simp only [replay, Event.replay, bind, Except.bind, replay_spent]; rfl
      | succ nodes =>
        simp only [replay, Event.replay, ih, beforeVisit, List.filterMap_cons, Event.unknown?,
          bind, Except.bind]
        cases (beforeVisit nodes events).filterMap Event.unknown? with
        | nil => rfl
        | cons first rest => rfl

theorem code_eq_of_mem_leftOut {policy : Policy} {leftOut : Option Visit}
    {remark : Diagnostic} (h : remark ∈ leftOut.toList.map (·.site.maxNodesReached policy)) :
    remark.code = "max_nodes_reached" := by
  obtain ⟨v, -, rfl⟩ := List.mem_map.mp h
  rfl

theorem Request.exists_plan_of_lenient {catalog : Catalog} (hc : catalog.Closed)
    {request : Request} (hroot : catalog.hasEntity request.rootEntity = true) {policy : Policy}
    (hlenient : policy.strict = false) :
    ∃ plan report, request.plan catalog policy = .ok (plan, report) ∧
      plan.placedRows = ((visits (request.trace catalog policy.levels)).take
        policy.maxNodes.toNat).map Visit.placedRow ∧
      report.diagnostics =
        (beforeVisit policy.maxNodes.toNat (request.trace catalog policy.levels)).filterMap
          (Event.remark? policy) ++
        (visits (request.trace catalog policy.levels))[policy.maxNodes.toNat]?.toList.map
          (·.site.maxNodesReached policy) := by
  obtain ⟨allowance, hreplay⟩ := replay_of_lenient hlenient policy.maxNodes.toNat
    (request.trace catalog policy.levels)
  obtain ⟨plan, hplan, hrows⟩ := Request.exists_plan_of_replay hc hroot hreplay
  exact ⟨plan, _, hplan, hrows, rfl⟩

end Prefetch
