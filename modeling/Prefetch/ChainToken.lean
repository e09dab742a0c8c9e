import Prefetch.QuotedText

/-!
# Tokens of a chain

A chain is split at its dots into tokens. A token that starts with an opening bracket and ends
with a closing one is an array, every other token is plain. Only the two outer characters decide,
so `[a][b]` is an array as well.
-/

namespace Prefetch

inductive Token.Kind where
  | plain
  | array
  deriving DecidableEq, Repr

/-- A piece of a chain together with the way it is read. -/
structure Token where
  kind : Token.Kind
  text : String
  deriving DecidableEq, Repr

namespace Token

/-- The kind of a token by its first and last character. -/
def kindOf (text : List Char) : Kind :=
  if 2 ≤ text.length ∧ text.head? = some '[' ∧ text.getLast? = some ']' then .array else .plain

def classify (text : String) : Token := ⟨kindOf text.toList, text⟩

/-- The members of a plain token were asked for. -/
structure NotArray where
  text : String
  deriving DecidableEq, Repr

def NotArray.message (e : NotArray) : String :=
  "Token " ++ quoted e.text ++ " is not an array token"

def interior (text : String) : String := String.ofList text.toList.tail.dropLast

def content (token : Token) : Except NotArray String :=
  match token.kind with
  | .array => .ok (interior token.text)
  | .plain => .error ⟨token.text⟩

@[simp] theorem classify_text (text : String) : (classify text).text = text := rfl

theorem length_interior {text : String} (h : (classify text).kind = .array) :
    (interior text).length + 2 = text.length := by
  simp only [classify, kindOf] at h
  split at h
  case isTrue harray =>
    have hlen := harray.1
    simp only [String.length_toList] at hlen
    simp only [interior, String.length_ofList, List.length_dropLast, List.length_tail,
      String.length_toList]
    omega
  case isFalse => cases h

end Token

end Prefetch
