import Prefetch.Expression

/-!
# The canonical text of an expression

A node is written as its name, followed by a dot and its children if it has any. A single sibling
stands by itself, and several are written between brackets, divided by a comma and a space.
-/

namespace Prefetch

def bundle : List String → String
  | [] => ""
  | [text] => text
  | texts => "[" ++ ", ".intercalate texts ++ "]"

def linkText (name : String) : List String → String
  | [] => name
  | texts => name ++ "." ++ bundle texts

mutual

def Node.text : Node → String
  | ⟨name, children⟩ => linkText name (Forest.texts children)

def Forest.texts : List Node → List String
  | [] => []
  | node :: rest => node.text :: Forest.texts rest

end

/-- The canonical text of an expression. The empty expression has the empty text. -/
def Expression.text (e : Expression) : String := bundle (Forest.texts e.nodes)

theorem Forest.texts_eq_map (forest : List Node) : Forest.texts forest = forest.map Node.text := by
  induction forest with
  | nil => simp [Forest.texts]
  | cons node rest ih => simp [Forest.texts, ih]

end Prefetch
