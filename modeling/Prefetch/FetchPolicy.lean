/-!
# Limits on planning

A policy bounds a plan in depth and in number of nodes, and says what happens to a name that the
schema does not know: a strict policy refuses the request, a lenient one remarks on it or passes
over it. Limits below zero act as zero.
-/

namespace Prefetch

/-- The limits of a plan and the treatment of unknown names. -/
structure Policy where
  maxDepth : Int := 10
  maxNodes : Int := 500
  strict : Bool := false
  warnUnknown : Bool := true
  deriving DecidableEq, Repr

/-- The nodes that may still be added to a plan. Once a node had to be left out the allowance is
spent, and this has been reported. -/
inductive Allowance where
  | left (nodes : Nat)
  | spent
  deriving DecidableEq, Repr

def Policy.levels (policy : Policy) : Nat := policy.maxDepth.toNat

def Policy.allowance (policy : Policy) : Allowance := .left policy.maxNodes.toNat

end Prefetch
