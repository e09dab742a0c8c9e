import Mathlib.Data.List.Pairwise
import Prefetch.Proofs.InnerExpansions
import Prefetch.Proofs.LeafChains
import Prefetch.Proofs.PathSegments
import Prefetch.Proofs.ReachedNodes

/-!
# The paths to the leaves of a plan

The paths of a plan are those to its leaves, in preorder and one for each leaf. A path is written
with dots between the names, without the empty names at its front. So it can be split into its names
again if these are neither empty nor divided by a dot.

In a plan no two siblings share a name. Then two leaves always differ at some name that both of them
have, and no path is the front of another. The names on the way to the leaves determine the forest:
the leaves below the first root are those whose names start with its name.
-/

namespace Prefetch

mutual

def FetchNode.relations : FetchNode → Node
  | ⟨relation, _, _, children⟩ => ⟨relation, FetchForest.relations children⟩

def FetchForest.relations : List FetchNode → List Node
  | [] => []
  | node :: rest => node.relations :: FetchForest.relations rest

end

/-- The relation names of a plan, nested and ordered as its nodes are. -/
def FetchPlan.relations (plan : FetchPlan) : List Node := FetchForest.relations plan.nodes

namespace FetchNode

@[simp]
theorem name_relations (node : FetchNode) : node.relations.name = node.relation := by
  cases node
  rfl

@[simp]
theorem children_relations (node : FetchNode) :
    node.relations.children = FetchForest.relations node.children := by
  cases node
  rfl

end FetchNode

namespace FetchForest

theorem relations_eq_map (forest : List FetchNode) :
    FetchForest.relations forest = forest.map FetchNode.relations := by
  induction forest with
  | nil => rfl
  | cons node rest ih => rw [relations, ih, List.map_cons]

theorem leafPaths_cons (path relation entity : String) (recursive : Bool)
    (children rest : List FetchNode) :
    FetchForest.leafPaths path (⟨relation, entity, recursive, children⟩ :: rest) =
      (if children.isEmpty then [DottedPath.extend path relation]
        else FetchForest.leafPaths (DottedPath.extend path relation) children) ++
      FetchForest.leafPaths path rest := rfl

def leaves (forest : List FetchNode) : List ReachedNode :=
  (FetchForest.reached forest).filter (·.isLeaf)

theorem leaves_cons (node : FetchNode) (rest : List FetchNode) :
    leaves (node :: rest) =
      (if node.children.isEmpty then [⟨[], node⟩]
        else (leaves node.children).map (.behind node.relation)) ++ leaves rest := by
  obtain ⟨relation, entity, recursive, children⟩ := node
  rw [leaves, reached_cons, List.filter_cons, List.filter_append, List.filter_map]
  simp only [Function.comp_def, ReachedNode.isLeaf_behind]
  cases children with
  | nil => rfl
  | cons child others => rfl

/-- The paths to the leaves are made of the names on the way to them. -/
theorem leafPaths_eq (path : String) (forest : List FetchNode) :
    FetchForest.leafPaths path forest =
      (leaves forest).map fun leaf => leaf.names.foldl DottedPath.extend path := by
  induction forest using FetchForest.inductionOn generalizing path with
  | nil => rfl
  | cons relation entity recursive children rest hchildren hrest =>
    rw [leafPaths_cons, leaves_cons, List.map_append, hrest]
    congr 1
    cases children with
    | nil => rfl
    | cons child others =>
      simp only [List.isEmpty_cons, Bool.false_eq_true, if_false, hchildren, List.map_map,
        Function.comp_def, ReachedNode.names_behind, List.foldl_cons]

theorem map_names_leaves (forest : List FetchNode) :
    (leaves forest).map ReachedNode.names = Forest.leafChains (FetchForest.relations forest) := by
  induction forest using FetchForest.inductionOn with
  | nil => rfl
  | cons relation entity recursive children rest hchildren hrest =>
    rw [leaves_cons, List.map_append, hrest, relations, FetchNode.relations,
      Forest.leafChains_cons, Node.leafChains, ← hchildren]
    congr 1
    cases children with
    | nil => rfl
    | cons child others =>
      simp only [List.isEmpty_cons, Bool.false_eq_true, if_false, List.map_map, relations,
        Function.comp_def, ReachedNode.names_behind]

end FetchForest

theorem Catalog.Walk.declared {schema : Schema} {catalog : Catalog}
    (hcatalog : schema.catalog = .ok catalog) {entity last : String} {names : List String}
    (hwalk : catalog.Walk entity names last) {name : String} (hname : name ∈ names) :
    ∃ relation ∈ schema.relations, relation.name = name := by
  induction hwalk with
  | stay => cases hname
  | step hfrom hmem _ ih =>
    rcases List.mem_cons.mp hname with rfl | hname
    · rw [relationsFrom_of_schema hcatalog hfrom] at hmem
      exact ⟨_, (List.mem_filter.mp hmem).1, rfl⟩
    · exact ih hname

theorem Expansion.distinctNames_relations {catalog : Catalog} {policy : Policy}
    (hd : catalog.Distinct) (x : Expansion catalog policy) :
    Forest.distinctNames (FetchForest.relations x.growth.nodes) = true := by
  induction hlevels : x.levels using Nat.strongRecOn generalizing x with
  | _ levels ih =>
    rw [Forest.distinctNames_iff, FetchForest.relations_eq_map]
    constructor
    · simp only [List.map_map, Function.comp_def, FetchNode.name_relations]
      exact (Site.lists_of_expand hd x.grown).1
    · intro tree htree
      obtain ⟨node, hnode, rfl⟩ := List.mem_map.mp htree
      obtain ⟨branch, inner, behind, rfl⟩ := exists_behind_of_mem_nodes hnode
      have hfewer := behind.levels_eq
      rw [FetchNode.children_relations]
      exact ih inner.levels (by omega) inner rfl

namespace FetchPlan

/-- The leaves of a plan in preorder, each with the names above it. -/
def leaves (plan : FetchPlan) : List ReachedNode := FetchForest.leaves plan.nodes

/-- The plan was made on the catalog of a schema in which every relation name is a segment. -/
def IsSegmented (plan : FetchPlan) : Prop :=
  ∃ (schema : Schema) (catalog : Catalog) (request : Request) (policy : Policy) (report : Report),
    schema.catalog = .ok catalog ∧
    (∀ relation ∈ schema.relations, DottedPath.IsSegment relation.name) ∧
    request.plan catalog policy = .ok (plan, report)

theorem paths_eq (plan : FetchPlan) :
    plan.paths = plan.leaves.map fun leaf => DottedPath.ofNames leaf.names :=
  FetchForest.leafPaths_eq "" plan.nodes

theorem map_names_leaves (plan : FetchPlan) :
    plan.leaves.map ReachedNode.names = Forest.leafChains plan.relations :=
  FetchForest.map_names_leaves plan.nodes

namespace IsSegmented

variable {plan : FetchPlan}

theorem distinctNames (h : plan.IsSegmented) : Forest.distinctNames plan.relations = true := by
  obtain ⟨schema, catalog, request, policy, report, hcatalog, -, hplan⟩ := h
  obtain ⟨entity, growth, -, hgrowth, rfl, -⟩ := Request.plan_eq_ok_iff.mp hplan
  let x : Expansion catalog policy :=
    ⟨request.site, policy.levels, policy.maxNodes.toNat, growth, hgrowth⟩
  exact x.distinctNames_relations (Catalog.distinct_of_schema hcatalog)

theorem isSegment (h : plan.IsSegmented) {leaf : ReachedNode} (hleaf : leaf ∈ plan.leaves)
    {name : String} (hname : name ∈ leaf.names) : DottedPath.IsSegment name := by
  obtain ⟨schema, catalog, request, policy, report, hcatalog, hsegments, hplan⟩ := h
  have hreach : plan.Reaches leaf.names leaf.node :=
    FetchForest.mem_reached_iff.mp (List.mem_filter.mp hleaf).1
  have hwalk := (Request.isChain_of_reaches hplan hreach).walk
  obtain ⟨relation, hrelation, rfl⟩ := hwalk.declared hcatalog hname
  exact hsegments relation hrelation

theorem map_segments_paths (h : plan.IsSegmented) :
    plan.paths.map DottedPath.segments = Forest.leafChains plan.relations := by
  rw [paths_eq, ← map_names_leaves, List.map_map]
  apply List.map_congr_left
  intro leaf hleaf
  have hne : leaf.names ≠ [] := by simp [ReachedNode.names]
  exact DottedPath.segments_ofNames hne fun name hname => h.isSegment hleaf hname

theorem pairwise_paths (h : plan.IsSegmented) :
    plan.paths.Pairwise fun path other =>
      Diverge (DottedPath.segments path) (DottedPath.segments other) := by
  have hchains := Forest.pairwise_leafChains h.distinctNames
  rwa [← h.map_segments_paths, List.pairwise_map] at hchains

theorem diverge_of_ne (h : plan.IsSegmented) {path other : String} (hpath : path ∈ plan.paths)
    (hother : other ∈ plan.paths) (hne : path ≠ other) :
    Diverge (DottedPath.segments path) (DottedPath.segments other) :=
  have : Std.Symm fun path other =>
      Diverge (DottedPath.segments path) (DottedPath.segments other) :=
    ⟨fun _ _ hdiverge => hdiverge.symm⟩
  h.pairwise_paths.forall hpath hother hne

end IsSegmented

/-- The paths of a plan are those to its nodes without children, in preorder: the names on the way,
joined by dots and without the empty ones at the front. If no relation name is empty or holds a dot,
then the paths are distinct and none is the front of another. Split at the dots they give the names
on the way to the leaves, and these say which relations the plan has, how they are nested and in
which order. -/
theorem paths_identify_leaves :
    (∀ plan : FetchPlan,
      plan.reached.map (ReachedNode.row 0) = plan.rows ∧
      (∀ found : ReachedNode, found ∈ plan.reached ↔ plan.Reaches found.names found.node) ∧
      plan.paths = (plan.reached.filter (·.node.children.isEmpty)).map fun leaf =>
        ".".intercalate (leaf.names.dropWhile (· == ""))) ∧
    (∀ plan : FetchPlan, plan.IsSegmented →
      plan.paths.Nodup ∧
      (∀ path ∈ plan.paths, ∀ other ∈ plan.paths,
        DottedPath.segments path <+: DottedPath.segments other → path = other) ∧
      plan.paths.map DottedPath.segments =
        (plan.reached.filter (·.node.children.isEmpty)).map ReachedNode.names) ∧
    (∀ plan plan' : FetchPlan, plan.IsSegmented → plan'.IsSegmented →
      plan.paths = plan'.paths → plan.relations = plan'.relations) := by
  refine ⟨?_, ?_, ?_⟩
  · intro plan
    refine ⟨?_, ?_, ?_⟩
    · exact FetchForest.map_row_reached 0 plan.nodes
    · intro found
      exact FetchForest.mem_reached_iff
    · simp only [paths_eq, DottedPath.ofNames_eq]
      rfl
  · intro plan h
    refine ⟨?_, ?_, ?_⟩
    · apply h.pairwise_paths.imp
      intro path other hdiverge hsame
      rw [hsame] at hdiverge
      exact hdiverge.1 List.prefix_rfl
    · intro path hpath other hother hprefix
      by_contra hne
      exact (h.diverge_of_ne hpath hother hne).1 hprefix
    · rw [h.map_segments_paths, ← map_names_leaves]
      rfl
  · intro plan plan' h h' hpaths
    apply Forest.leafChains_injective h.distinctNames h'.distinctNames
    rw [← h.map_segments_paths, ← h'.map_segments_paths, hpaths]

/-- The children of the children and the owners of the pets, once by `[pets.owner, children.^]` and
once by `[pets.owner, children.children]`. Only the former flags the children, so the plans differ,
but their paths are the same. -/
theorem paths_identify_leaves_family :
    let plain : Request :=
      ⟨"person", ⟨[⟨"pets", [⟨"owner", []⟩]⟩, ⟨"children", [⟨"children", []⟩]⟩]⟩⟩
    ∃ plan report plan' report',
      familyRequest.plan familyCatalog { maxDepth := 2 } = .ok (plan, report) ∧
      plain.plan familyCatalog { maxDepth := 2 } = .ok (plan', report') ∧
      plan.IsSegmented ∧ plan'.IsSegmented ∧ plan ≠ plan' ∧
      plan.paths = ["children.children", "pets.owner"] ∧ plan'.paths = plan.paths ∧
      plan.paths.Nodup ∧ plan.relations = plan'.relations := by
  intro plain
  have hcatalog : familySchema.catalog = .ok familyCatalog := rfl
  have hsegments : ∀ relation ∈ familySchema.relations, DottedPath.IsSegment relation.name := by
    decide
  have hruns : ∃ text report text' report',
      familyRequest.plan familyCatalog { maxDepth := 2 } = .ok (⟨"person", text, [
        ⟨"children", "person", true, [⟨"children", "person", true, []⟩]⟩,
        ⟨"pets", "pet", false, [⟨"owner", "person", false, []⟩]⟩]⟩, report) ∧
      plain.plan familyCatalog { maxDepth := 2 } = .ok (⟨"person", text', [
        ⟨"children", "person", false, [⟨"children", "person", false, []⟩]⟩,
        ⟨"pets", "pet", false, [⟨"owner", "person", false, []⟩]⟩]⟩, report') :=
    ⟨_, _, _, _, rfl, rfl⟩
  obtain ⟨text, report, text', report', hplan, hplan'⟩ := hruns
  have h : IsSegmented _ :=
    ⟨familySchema, familyCatalog, _, _, _, hcatalog, hsegments, hplan⟩
  have h' : IsSegmented _ :=
    ⟨familySchema, familyCatalog, _, _, _, hcatalog, hsegments, hplan'⟩
  obtain ⟨-, hsingle, hpair⟩ := paths_identify_leaves
  refine ⟨_, report, _, report', hplan, hplan', h, h', by simp, rfl, rfl, ?_, ?_⟩
  · exact (hsingle _ h).1
  · exact hpair _ _ h h' rfl

end FetchPlan

end Prefetch
