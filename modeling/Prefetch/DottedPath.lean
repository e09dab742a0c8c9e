/-!
# Dotted paths

A path of relation names is written with dots between the names. The path of the root is empty,
so a name that follows the empty text starts a path, and empty names at the front leave no trace.
-/

namespace Prefetch

namespace DottedPath

def extend (path name : String) : String :=
  if path = "" then name else path ++ "." ++ name

def ofNames (names : List String) : String := names.foldl extend ""

/-- Whether a path is the given one or leads on from it. Every path leads on from the root. -/
def isWithin (ancestor path : String) : Bool :=
  ancestor == "" || path == ancestor || (ancestor ++ ".").toList.isPrefixOf path.toList

end DottedPath

end Prefetch
