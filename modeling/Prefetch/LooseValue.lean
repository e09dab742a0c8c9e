import Prefetch.ExpressionParser

/-!
# Values of no fixed shape

Requests and plans arrive as values whose shape is not known beforehand: the kinds of values of a
plain data notation and, besides them, expressions that have been built already. Where an
expression is wanted, a text is parsed and a value of any other kind asks for nothing.
-/

namespace Prefetch

mutual

/-- A value of no fixed shape. A number is an integer or a binary fraction. A decimal notation has
been rounded to such a number before. -/
inductive Value where
  | null
  | truth (value : Bool)
  | integer (value : Int)
  | float (value : Dyadic)
  | text (value : String)
  | list (items : List Value)
  | record (fields : Record)
  | expression (value : Expression)

inductive Record where
  | empty
  | field (key : String) (value : Value) (rest : Record)

end

instance : Inhabited Value := ⟨.null⟩

namespace Record

def get? (key : String) : Record → Option Value
  | empty => none
  | field k value rest => if k = key then some value else get? key rest

def ofList : List (String × Value) → Record
  | [] => empty
  | (key, value) :: rest => field key value (ofList rest)

end Record

def Expression.ofValue : Value → Except InvalidExpression Expression
  | .expression value => .ok value
  | .text value => Expression.parse value
  | _ => .ok .empty

end Prefetch
