import Prefetch.FieldFault

/-!
# Requests

A request names a root entity and the relations to fetch from it on. The relations are given as an
expression or its text, and may be left out.
-/

namespace Prefetch

/-- A root entity and the relations asked for behind it. -/
structure Request where
  rootEntity : String
  wanted : Expression := .empty
  deriving DecidableEq, Repr

def Request.ofValue : Value → Checked FaultKind Request
  | .record fields =>
    ((fields.required .missing "root_entity" Value.readText).map Request.mk).ap
      (fields.optional "eager" .empty Value.readExpression)
  | _ => .fault (.notRecord .request)

end Prefetch
