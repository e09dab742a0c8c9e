import Prefetch.BlankText

/-!
# Splitting a text outside its brackets

A separator divides a text only where as many square brackets have been closed as were opened,
counted from the left. The count may fall below zero: a closing bracket then has to be made up
for by a later opening one before separators divide again. A text whose brackets do not add up
to zero is refused as a whole. Every piece loses the blanks at its ends, and empty pieces are kept.
-/

namespace Prefetch

def depthStep (c : Char) : Int :=
  if c = '[' then 1 else if c = ']' then -1 else 0

def netDepth : List Char → Int
  | [] => 0
  | c :: text => depthStep c + netDepth text

/-- The pieces between the separators that stand at depth zero, when the text starts at the given
depth. A bracket is never a separator. -/
def cut (isSeparator : Char → Bool) : Int → List Char → List (List Char)
  | _, [] => [[]]
  | depth, c :: text =>
    if depthStep c = 0 ∧ isSeparator c ∧ depth = 0 then [] :: cut isSeparator depth text
    else (cut isSeparator (depth + depthStep c) text).modifyHead (c :: ·)

/-- A text with unequal numbers of opening and closing brackets. -/
structure Unbalanced where
  text : String
  deriving DecidableEq, Repr

/-- The trimmed pieces of a text between the separators at depth zero. -/
def splitOutside (isSeparator : Char → Bool) (text : String) : Except Unbalanced (List String) :=
  if netDepth text.toList = 0 then
    .ok ((cut isSeparator 0 text.toList).map fun piece => String.ofList (trim piece))
  else .error ⟨text⟩

/-- A separator given as a text matches the one character it consists of. An empty or longer
separator matches none. -/
def matchesSeparator (separator : String) (c : Char) : Bool := separator.toList == [c]

@[simp] theorem netDepth_nil : netDepth [] = 0 := rfl

theorem netDepth_append (s t : List Char) : netDepth (s ++ t) = netDepth s + netDepth t := by
  induction s with
  | nil => simp
  | cons c s ih => simp only [List.cons_append, netDepth, ih]; omega

theorem cut_ne_nil (isSeparator : Char → Bool) (depth : Int) (text : List Char) :
    cut isSeparator depth text ≠ [] := by
  induction text generalizing depth with
  | nil => simp [cut]
  | cons c text ih =>
    simp only [cut]
    split
    · simp
    · cases h : cut isSeparator (depth + depthStep c) text with
      | nil => exact absurd h (ih _)
      | cons piece pieces => simp

theorem length_le_of_mem_cut (isSeparator : Char → Bool) (depth : Int) (text piece : List Char)
    (h : piece ∈ cut isSeparator depth text) : piece.length ≤ text.length := by
  induction text generalizing depth piece with
  | nil => simp [cut] at h; simp [h]
  | cons c text ih =>
    simp only [cut] at h
    split at h
    · rcases List.mem_cons.mp h with rfl | h
      · simp
      · exact Nat.le_succ_of_le (ih _ _ h)
    · obtain ⟨first, rest, hc⟩ :=
        List.exists_cons_of_ne_nil (cut_ne_nil isSeparator (depth + depthStep c) text)
      rw [hc, List.modifyHead_cons] at h
      rcases List.mem_cons.mp h with rfl | h
      · have hf := ih (depth + depthStep c) first (by rw [hc]; exact List.mem_cons_self)
        simpa using hf
      · exact Nat.le_succ_of_le (ih _ _ (by rw [hc]; exact List.mem_cons_of_mem _ h))

theorem length_le_of_mem_splitOutside {isSeparator : Char → Bool} {text piece : String}
    {pieces : List String} (h : splitOutside isSeparator text = .ok pieces)
    (hp : piece ∈ pieces) : piece.length ≤ text.length := by
  simp only [splitOutside] at h
  split at h
  · cases h
    obtain ⟨raw, hraw, rfl⟩ := List.mem_map.mp hp
    have hle := Nat.le_trans (length_trim_le raw) (length_le_of_mem_cut _ _ _ _ hraw)
    rwa [String.length_toList, ← String.length_ofList] at hle
  · cases h

end Prefetch
