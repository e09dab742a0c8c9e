import Prefetch.Proofs.InnerExpansions
import Prefetch.Proofs.ReachedNodes
import Mathlib.Algebra.Order.BigOperators.Group.List
import Mathlib.Algebra.Order.Ring.Nat
import Mathlib.Data.List.Perm.Subperm

/-!
# Bounded and unbounded parts of a plan

A node is flagged if a part of the expression without end led to it: an expression that selects
everything, or a relation that repeats itself. Such a part is handed down whole, so whatever is
reached below a flagged node is flagged as well. The other nodes use the expression up. Each of them
takes a node of the expression, and siblings take different ones, so there are no more of them than
the expression has nodes, whatever the limits are and however often the schema goes around in a
cycle.
-/

namespace Prefetch

theorem Forest.size_eq_sum (forest : List Node) :
    Forest.size forest = (forest.map Node.size).sum := by
  induction forest with
  | nil => rfl
  | cons node rest ih => rw [Forest.size, ih, List.map_cons, List.sum_cons]

namespace Expression

def flags (e : Expression) (name : String) : Bool := e.repeats name || e.selectsAll

/-- Whatever the expression selects goes on without end. -/
inductive Unbounded (e : Expression) : Prop where
  | every (hall : e.selectsAll = true)
  | again {node} (hnodes : e.nodes = [node]) (hrepeats : node.repeats = true)

theorem unbounded_of_flags {e sub : Expression} {name : String} (hflags : e.flags name = true)
    (hstep : e.step name = some sub) : sub.Unbounded := by
  obtain ⟨hall, rfl⟩ | ⟨hall, node, hroot, ⟨hrepeats, rfl⟩ | ⟨hrepeats, -⟩⟩ := step_cases hstep
  · exact .every hall
  · exact .again rfl hrepeats
  · simp [flags, hall, repeats, hroot, hrepeats] at hflags

theorem Unbounded.flags {e sub : Expression} {name : String} (h : e.Unbounded)
    (hstep : e.step name = some sub) : e.flags name = true := by
  cases h with
  | every hall => rw [Expression.flags, hall, Bool.or_true]
  | @again only hnodes hrepeats =>
    -- the repeating node may itself be named `*`
    obtain ⟨hall, -⟩ | ⟨-, node, hroot, -⟩ := step_cases hstep
    · rw [Expression.flags, hall, Bool.or_true]
    · have hnode : node = only := by
        have hmem := mem_of_root? hroot
        rw [hnodes] at hmem
        exact List.mem_singleton.mp hmem
      rw [← hnode] at hrepeats
      simp [Expression.flags, repeats, hroot, hrepeats]

theorem Unbounded.step {e sub : Expression} {name : String} (h : e.Unbounded)
    (hstep : e.step name = some sub) : sub.Unbounded :=
  unbounded_of_flags (h.flags hstep) hstep

def rootSize (e : Expression) (name : String) : Nat := ((e.root? name).map Node.size).getD 0

/-- A relation whose node is not flagged takes the root of its name, and leaves what is below. -/
theorem rootSize_of_step {e sub : Expression} {name : String} (hflags : e.flags name = false)
    (hstep : e.step name = some sub) : e.rootSize name = sub.size + 1 := by
  obtain ⟨hnone, hbounded⟩ := Bool.or_eq_false_iff.mp hflags
  obtain ⟨hall, -⟩ | ⟨-, node, hroot, ⟨hrepeats, -⟩ | ⟨-, rfl⟩⟩ := step_cases hstep
  · simp [hbounded] at hall
  · simp [repeats, hroot, hrepeats] at hnone
  · rw [rootSize, hroot]
    cases node
    rfl

theorem sum_rootSize_eq (e : Expression) (names : List String) :
    (names.map e.rootSize).sum = ((names.filterMap e.root?).map Node.size).sum := by
  induction names with
  | nil => rfl
  | cons name names ih =>
    rw [List.map_cons, List.sum_cons, ih, List.filterMap_cons, rootSize]
    cases e.root? name with
    | none => exact Nat.zero_add _
    | some node => rfl

theorem map_name_roots_sublist (e : Expression) (names : List String) :
    ((names.filterMap e.root?).map (·.name)).Sublist names := by
  induction names with
  | nil => exact List.Sublist.slnil
  | cons name names ih =>
    rw [List.filterMap_cons]
    cases hroot : e.root? name with
    | none => exact ih.cons name
    | some node =>
      rw [List.map_cons, name_of_root? hroot]
      exact ih.cons_cons name

theorem sum_rootSize_le {e : Expression} {names : List String} (hnodup : names.Nodup) :
    (names.map e.rootSize).sum ≤ e.size := by
  have hsubset : names.filterMap e.root? ⊆ e.nodes := by
    intro node hnode
    obtain ⟨name, -, hroot⟩ := List.mem_filterMap.mp hnode
    exact mem_of_root? hroot
  have hdistinct : (names.filterMap e.root?).Nodup :=
    ((e.map_name_roots_sublist names).nodup hnodup).of_map
  obtain ⟨trees, hperm, hsublist⟩ := hdistinct.subperm hsubset
  rw [sum_rootSize_eq, ← (hperm.map Node.size).sum_eq, size, Forest.size_eq_sum]
  exact (hsublist.map Node.size).sum_le_sum fun _ _ => Nat.zero_le _

end Expression

/-- The number of nodes of a forest that are not flagged. -/
def FetchForest.countBounded (forest : List FetchNode) : Nat :=
  (FetchForest.reached forest).countP (!·.node.recursive)

def FetchNode.countBounded (node : FetchNode) : Nat :=
  FetchForest.countBounded node.children + if node.recursive then 0 else 1

namespace FetchForest

theorem countBounded_eq_sum (forest : List FetchNode) :
    FetchForest.countBounded forest = (forest.map FetchNode.countBounded).sum := by
  induction forest with
  | nil => rfl
  | cons node rest ih =>
    rw [List.map_cons, List.sum_cons, ← ih, countBounded, reached_cons, List.countP_cons,
      List.countP_append, List.countP_map, FetchNode.countBounded, countBounded, countBounded]
    cases node.recursive with
    | true => simp [Function.comp_def, ReachedNode.behind]
    | false =>
      simp only [Function.comp_def, ReachedNode.behind, Bool.not_false, if_true, if_false,
        Bool.false_eq_true]
      omega

theorem countP_rows (depth : Nat) (forest : List FetchNode) :
    (FetchForest.rows depth forest).countP (!·.recursive) = FetchForest.countBounded forest := by
  rw [← map_row_reached, List.countP_map]
  rfl

end FetchForest

namespace Expansion

variable {catalog : Catalog} {policy : Policy}

theorem Leads.unbounded {x last : Expansion catalog policy} {names : List String}
    (h : x.Leads names last) (hunbounded : x.site.expression.Unbounded) :
    last.site.expression.Unbounded := by
  induction h with
  | stay => exact hunbounded
  | step behind _ ih =>
    apply ih
    rw [behind.site_eq]
    exact hunbounded.step (Site.mem_branches.mp behind.branch_mem).2

theorem recursive_of_unbounded {x : Expansion catalog policy} (h : x.site.expression.Unbounded)
    {names : List String} {node : FetchNode}
    (hreach : FetchForest.Reaches x.growth.nodes names node) : node.recursive = true := by
  obtain ⟨front, branch, outer, inner, -, hleads, behind, rfl⟩ := exists_behind_of_reaches hreach
  exact (hleads.unbounded h).flags (Site.mem_branches.mp behind.branch_mem).2

theorem recursive_of_reaches {x : Expansion catalog policy} {names : List String} {node : FetchNode}
    (hreach : FetchForest.Reaches x.growth.nodes names node) (hflagged : node.recursive = true)
    {further : List String} {below : FetchNode}
    (hbelow : FetchForest.Reaches node.children further below) : below.recursive = true := by
  obtain ⟨front, branch, outer, inner, -, -, behind, rfl⟩ := exists_behind_of_reaches hreach
  apply recursive_of_unbounded (x := inner) _ hbelow
  rw [behind.site_eq]
  exact Expression.unbounded_of_flags hflagged (Site.mem_branches.mp behind.branch_mem).2

theorem countBounded_of_unbounded {x : Expansion catalog policy}
    (h : x.site.expression.Unbounded) : FetchForest.countBounded x.growth.nodes = 0 := by
  apply List.countP_eq_zero.mpr
  intro found hfound
  have hflagged := recursive_of_unbounded h (FetchForest.mem_reached_iff.mp hfound)
  simp [hflagged]

/-- A node and those below it take at most as many nodes of the expression as the root of its name
has. -/
theorem countBounded_le_rootSize {x inner : Expansion catalog policy} {branch : Branch}
    (behind : inner.Behind x branch)
    (hinner : FetchForest.countBounded inner.growth.nodes ≤ inner.site.expression.size) :
    (x.site.node branch inner.growth.nodes).countBounded ≤
      x.site.expression.rootSize branch.relation.name := by
  have hstep := (Site.mem_branches.mp behind.branch_mem).2
  have hsite : inner.site.expression = branch.expression := by
    rw [behind.site_eq]
    rfl
  have hnode : (x.site.node branch inner.growth.nodes).recursive =
    x.site.expression.flags branch.relation.name := rfl
  rw [FetchNode.countBounded, hnode]
  cases hflags : x.site.expression.flags branch.relation.name with
  | true =>
    have hunbounded : inner.site.expression.Unbounded := by
      rw [hsite]
      exact Expression.unbounded_of_flags hflags hstep
    have hnone : FetchForest.countBounded inner.growth.nodes = 0 :=
      countBounded_of_unbounded hunbounded
    simp [Site.node, hnone]
  | false =>
    rw [hsite] at hinner
    rw [Expression.rootSize_of_step hflags hstep]
    exact Nat.add_le_add_right hinner 1

theorem countBounded_le_size (hd : catalog.Distinct) (x : Expansion catalog policy) :
    FetchForest.countBounded x.growth.nodes ≤ x.site.expression.size := by
  induction hlevels : x.levels using Nat.strongRecOn generalizing x with
  | _ levels ih =>
    obtain ⟨parts⟩ := x.exists_parts
    have hpart : ∀ part ∈ parts.inner,
        (x.site.node part.1 part.2.growth.nodes).countBounded ≤
          x.site.expression.rootSize part.1.relation.name := by
      intro part hpart
      have behind := parts.behind hpart
      apply countBounded_le_rootSize behind
      have hfewer := behind.levels_eq
      exact ih part.2.levels (by omega) part.2 rfl
    -- a catalog has no relation twice, so siblings take different trees of the expression
    have hnodup : (parts.inner.map fun part => part.1.relation.name).Nodup := by
      have hbranches := x.nodup_branches hd
      rw [parts.branches_eq, List.map_append, List.map_map] at hbranches
      exact (List.nodup_append.mp hbranches).1
    calc FetchForest.countBounded x.growth.nodes
        = (parts.inner.map fun part =>
            (x.site.node part.1 part.2.growth.nodes).countBounded).sum := by
          rw [FetchForest.countBounded_eq_sum, parts.nodes_eq, List.map_map]
          rfl
      _ ≤ (parts.inner.map fun part => x.site.expression.rootSize part.1.relation.name).sum :=
          List.sum_le_sum hpart
      _ ≤ x.site.expression.size := by
          have htrees := Expression.sum_rootSize_le (e := x.site.expression) hnodup
          rwa [List.map_map] at htrees

end Expansion

/-- Whatever is reached below a flagged node of a plan is flagged, and the plan has at most as many
nodes without a flag as the expression has nodes. -/
theorem Request.plan_flags {schema : Schema} {catalog : Catalog}
    (hcatalog : schema.catalog = .ok catalog) {request : Request} {policy : Policy}
    {plan : FetchPlan} {report : Report}
    (hplan : request.plan catalog policy = .ok (plan, report)) :
    (∀ names node, plan.Reaches names node → node.recursive = true →
      ∀ further below, FetchForest.Reaches node.children further below →
        below.recursive = true) ∧
    plan.rows.countP (!·.recursive) ≤ request.wanted.size := by
  obtain ⟨entity, growth, -, hgrowth, rfl, -⟩ := plan_eq_ok_iff.mp hplan
  let x : Expansion catalog policy :=
    ⟨request.site, policy.levels, policy.maxNodes.toNat, growth, hgrowth⟩
  constructor
  · intro names node hreach hflagged further below hbelow
    exact Expansion.recursive_of_reaches (x := x) hreach hflagged hbelow
  · rw [FetchPlan.rows, FetchForest.countP_rows]
    exact x.countBounded_le_size (Catalog.distinct_of_schema hcatalog)

/-- Of `[pets.owner, children.^]` the children and their children are flagged. The pets and their
owners are not, and take two of the four nodes of the expression. -/
theorem Request.plan_flags_family :
    ∃ plan report, familySchema.catalog = .ok familyCatalog ∧
      familyRequest.plan familyCatalog { maxDepth := 3 } = .ok (plan, report) ∧
      (∃ node, plan.Reaches ["children"] node ∧ node.recursive = true ∧ node.children ≠ [] ∧
        ∀ further below, FetchForest.Reaches node.children further below →
          below.recursive = true) ∧
      plan.rows.countP (!·.recursive) = 2 ∧ plan.rows.countP (!·.recursive) ≤ 4 := by
  have hcatalog : familySchema.catalog = .ok familyCatalog := rfl
  have hplan : ∃ text report, familyRequest.plan familyCatalog { maxDepth := 3 } =
      .ok (⟨"person", text, [
        ⟨"children", "person", true, [⟨"children", "person", true,
          [⟨"children", "person", true, []⟩]⟩]⟩,
        ⟨"pets", "pet", false, [⟨"owner", "person", false, []⟩]⟩]⟩, report) := ⟨_, _, rfl⟩
  obtain ⟨text, report, hplan⟩ := hplan
  obtain ⟨hbelow, hcount⟩ := plan_flags hcatalog hplan
  refine ⟨_, report, hcatalog, hplan, ⟨_, .root List.mem_cons_self, rfl, by simp, ?_⟩, rfl, hcount⟩
  exact hbelow _ _ (.root List.mem_cons_self) rfl

end Prefetch
