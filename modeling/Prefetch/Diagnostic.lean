import Prefetch.DottedPath
import Prefetch.QuotedText

/-!
# Diagnostics

A diagnostic remarks on something at a path of relation names. A report keeps its diagnostics in
the order in which they were made.
-/

namespace Prefetch

inductive Severity where
  | error
  | warning
  | info
  deriving DecidableEq, Repr

namespace Severity

def name : Severity → String
  | error => "error"
  | warning => "warning"
  | info => "info"

structure Unknown where
  text : String
  deriving DecidableEq, Repr

def Unknown.message (e : Unknown) : String := quoted e.text ++ " is not a valid Severity"

def ofName (text : String) : Except Unknown Severity :=
  match [error, warning, info].find? (·.name == text) with
  | some severity => .ok severity
  | none => .error ⟨text⟩

theorem ofName_name (severity : Severity) : ofName severity.name = .ok severity := by
  cases severity <;> rfl

end Severity

/-- A remark on a path of relations. The empty path stands for the root entity. -/
structure Diagnostic where
  code : String
  message : String
  path : String
  severity : Severity
  deriving DecidableEq, Repr

structure Report where
  diagnostics : List Diagnostic
  deriving DecidableEq, Repr

namespace Report

def empty : Report := ⟨[]⟩

def add (report : Report) (diagnostic : Diagnostic) : Report :=
  ⟨report.diagnostics ++ [diagnostic]⟩

def hasErrors (report : Report) : Bool := report.diagnostics.any (·.severity == .error)

def warnings (report : Report) : List Diagnostic :=
  report.diagnostics.filter (·.severity == .warning)

def withCode (report : Report) (code : String) : List Diagnostic :=
  report.diagnostics.filter (·.code == code)

/-- The diagnostics at a path and below it. -/
def under (report : Report) (path : String) : List Diagnostic :=
  report.diagnostics.filter (DottedPath.isWithin path ·.path)

end Report

end Prefetch
