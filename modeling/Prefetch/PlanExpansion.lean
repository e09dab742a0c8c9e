import Prefetch.Diagnostic
import Prefetch.EntityCatalog
import Prefetch.ExpressionText
import Prefetch.FetchPlan
import Prefetch.FetchPolicy
import Prefetch.FetchRequest

/-!
# Planning a fetch

At every entity the outgoing relations are offered to the expression in the order of the catalog.
Those that it selects become nodes, and each of them is expanded on its target with what the
expression asks for there. Nodes are counted depth first: once the allowance of the policy runs
out, the plan stops growing everywhere. Names of the expression that the entity lacks are looked
at before the relations are. Expansion is by recursion on the levels that remain.
-/

namespace Prefetch

/-- Where expansion stands: an entity, the expression to apply to it, the path to it, and the
relation that led to it if that relation repeats itself. -/
structure Site where
  entity : String
  expression : Expression
  path : String
  via : Option String
  deriving Repr

/-- A relation that the expression selects, with what it asks for behind it. -/
structure Branch where
  relation : Relation
  expression : Expression
  deriving Repr

/-- What came of expanding a site: nodes, remarks, and what is left of the allowance. -/
structure Growth where
  nodes : List FetchNode
  remarks : List Diagnostic
  allowance : Allowance
  deriving Repr

namespace Site

def branches (site : Site) (relations : List Relation) : List Branch :=
  relations.filterMap fun relation =>
    (site.expression.step relation.name).map (⟨relation, ·⟩)

/-- The root names of the expression that the entity lacks. Reserved names are never missed, and
neither is a repeating relation that ends here. -/
def unknownNames (site : Site) (relations : List Relation) : List String :=
  site.expression.rootNames.filter fun name =>
    !isReserved name && !relations.any (·.name == name) && site.via != some name

def next (site : Site) (branch : Branch) : Site where
  entity := branch.relation.target
  expression := branch.expression
  path := DottedPath.extend site.path branch.relation.name
  via := if site.expression.repeats branch.relation.name then some branch.relation.name else none

def node (site : Site) (branch : Branch) (children : List FetchNode) : FetchNode where
  relation := branch.relation.name
  entity := branch.relation.target
  recursive := site.expression.repeats branch.relation.name || site.expression.selectsAll
  children := children

def unknownRelation (site : Site) (name : String) : Diagnostic where
  code := "unknown_relation"
  message := "relation '" ++ name ++ "' is not defined on entity '" ++ site.entity ++ "'"
  path := DottedPath.extend site.path name
  severity := .warning

def maxDepthReached (site : Site) (policy : Policy) : Diagnostic where
  code := "max_depth_reached"
  message := "expansion stopped after " ++ toString policy.maxDepth ++ " level(s)"
  path := site.path
  severity := .info

def maxNodesReached (site : Site) (policy : Policy) : Diagnostic where
  code := "max_nodes_reached"
  message := "plan truncated after " ++ toString policy.maxNodes ++ " relation node(s)"
  path := site.path
  severity := .warning

/-- The remarks on the names that the entity lacks, unless a strict policy refuses the first. -/
def checkNames (site : Site) (policy : Policy) (relations : List Relation) :
    Except LookupError (List Diagnostic) :=
  match policy.strict, site.unknownNames relations with
  | true, name :: _ => .error (.unknownRelation name site.entity)
  | _, names => .ok (if policy.warnUnknown then names.map site.unknownRelation else [])

/-- Grows the branches of a site one after the other, each behind the first with what the ones
before it left of the allowance. -/
def grow (site : Site) (policy : Policy)
    (expandNext : Site → Allowance → Except LookupError Growth) :
    List Branch → Allowance → Except LookupError Growth
  | [], allowance => .ok ⟨[], [], allowance⟩
  | _ :: _, .spent => .ok ⟨[], [], .spent⟩
  | _ :: _, .left 0 => .ok ⟨[], [site.maxNodesReached policy], .spent⟩
  | branch :: rest, .left (nodes + 1) => do
    let inner ← expandNext (site.next branch) (.left nodes)
    let outer ← site.grow policy expandNext rest inner.allowance
    .ok ⟨site.node branch inner.nodes :: outer.nodes, inner.remarks ++ outer.remarks,
      outer.allowance⟩

def expand (catalog : Catalog) (policy : Policy) :
    (levels : Nat) → Site → Allowance → Except LookupError Growth
  | 0, site, allowance => do
    let relations ← catalog.relationsFrom site.entity
    let remarks ← site.checkNames policy relations
    if (site.branches relations).isEmpty then .ok ⟨[], remarks, allowance⟩
    else .ok ⟨[], remarks ++ [site.maxDepthReached policy], allowance⟩
  | levels + 1, site, allowance => do
    let relations ← catalog.relationsFrom site.entity
    let remarks ← site.checkNames policy relations
    let growth ← site.grow policy (expand catalog policy levels) (site.branches relations) allowance
    .ok { growth with remarks := remarks ++ growth.remarks }

end Site

def Request.site (request : Request) : Site := ⟨request.rootEntity, request.wanted, "", none⟩

/-- The plan of a request with the remarks made on the way. The root entity has to be known. -/
def Request.plan (request : Request) (catalog : Catalog) (policy : Policy) :
    Except LookupError (FetchPlan × Report) := do
  let _ ← catalog.entity request.rootEntity
  let growth ← request.site.expand catalog policy policy.levels policy.allowance
  .ok (⟨request.rootEntity, request.wanted.text, growth.nodes⟩, ⟨growth.remarks⟩)

end Prefetch
