import Prefetch.BracketSplit
import Prefetch.ChainToken
import Prefetch.Expression

/-!
# Reading an expression

A chain is split at its dots. A plain token names a node, and everything after it in the chain
belongs to the children of that node. An array is split at its commas, every part is read as a
chain of its own, and the trees found there join the siblings among which the array stands; so do
the links after it. Thus `a.[b, c].d` gives `a` the children `b`, `c` and `d`.

The parts of an array are shorter than the text in which the array was found, which is why reading
ends.
-/

namespace Prefetch

inductive Link where
  | name (name : String)
  | group (members : List Node)
  deriving Repr

/-- A name whose children are still being collected, with the siblings that stand before it. -/
structure OpenLevel where
  name : String
  before : List Node
  deriving Repr

/-- Closes the open levels, innermost first, around the siblings collected last. -/
def closeLevels : List OpenLevel → List Node → List Node
  | [], siblings => siblings
  | level :: outer, siblings => closeLevels outer (level.before ++ [⟨level.name, siblings⟩])

/-- Walks along a chain. A name opens a level, and a group joins the level it stands on. -/
def assembleFrom (levels : List OpenLevel) (siblings : List Node) : List Link → List Node
  | [] => closeLevels levels siblings
  | .name name :: links => assembleFrom (⟨name, siblings⟩ :: levels) [] links
  | .group members :: links => assembleFrom levels (siblings ++ members) links

def assemble (links : List Link) : List Node := assembleFrom [] [] links

inductive Rejection where
  | unbalanced (text : String)
  | blankName
  deriving DecidableEq, Repr

def splitChain (text : String) : Except Unbalanced (List String) := splitOutside (· == '.') text

def splitMembers (text : String) : Except Unbalanced (List String) := splitOutside (· == ',') text

theorem length_token_le {text token : String} {tokens : List String}
    (h : splitChain text = .ok tokens) (htoken : token ∈ tokens) : token.length ≤ text.length :=
  length_le_of_mem_splitOutside h htoken

theorem length_member_lt {token part : String} {parts : List String}
    (hkind : (Token.classify token).kind = .array)
    (h : splitMembers (Token.interior token) = .ok parts) (hpart : part ∈ parts) :
    part.length < token.length := by
  have h₁ := length_le_of_mem_splitOutside h hpart
  have h₂ := Token.length_interior hkind
  omega

set_option linter.unusedVariables false in
mutual

def readChain (text : String) : Except Rejection (List Node) :=
  match htokens : splitChain text with
  | .error e => .error (.unbalanced e.text)
  | .ok tokens =>
    .map assemble (tokens.attach.mapM fun ⟨token, htoken⟩ => readLink token)
termination_by 2 * text.length + 1
decreasing_by
  have := length_token_le htokens htoken
  omega

def readLink (token : String) : Except Rejection Link :=
  match hkind : (Token.classify token).kind with
  | .plain => if token = "" then .error .blankName else .ok (.name token)
  | .array =>
    match hparts : splitMembers (Token.interior token) with
    | .error e => .error (.unbalanced e.text)
    | .ok parts =>
      .map (.group ·.flatten) (parts.attach.mapM fun ⟨part, hpart⟩ => readChain part)
termination_by 2 * token.length
decreasing_by
  have := length_member_lt hkind hparts hpart
  omega

end

theorem readChain_eq (text : String) :
    readChain text =
      (match splitChain text with
        | .error e => .error (.unbalanced e.text)
        | .ok tokens => .map assemble (tokens.mapM readLink)) := by
  rw [readChain]
  split <;> rename_i h <;> rw [h]
  simp only [List.mapM_subtype, List.unattach_attach]

theorem readLink_eq (token : String) :
    readLink token =
      (match (Token.classify token).kind with
        | .plain => if token = "" then .error .blankName else .ok (.name token)
        | .array =>
          match splitMembers (Token.interior token) with
          | .error e => .error (.unbalanced e.text)
          | .ok parts => .map (.group ·.flatten) (parts.mapM readChain)) := by
  rw [readLink]
  split <;> rename_i h <;> rw [h]
  split <;> rename_i h' <;> rw [h']
  simp only [List.mapM_subtype, List.unattach_attach]

structure InvalidExpression where
  source : String
  deriving DecidableEq, Repr

def InvalidExpression.message (e : InvalidExpression) : String :=
  "invalid relation expression: " ++ e.source

/-- The expression that a text denotes. The empty text denotes the empty expression. Wherever the
fault lies, a refusal names the whole text. -/
def Expression.parse (text : String) : Except InvalidExpression Expression :=
  if text = "" then .ok .empty
  else match readChain text with
    | .ok nodes => .ok ⟨nodes⟩
    | .error _ => .error ⟨text⟩

end Prefetch
