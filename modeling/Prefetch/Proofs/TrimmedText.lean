import Prefetch.BlankText
import Mathlib.Data.List.DropRight

/-!
# Trimmed texts

Trimming a text takes away blanks at its ends and leaves a text whose first and last characters
are not blank. A text with such ends is left as it is.
-/

namespace Prefetch

theorem trimEnd_eq_rdropWhile (text : List Char) : trimEnd text = text.rdropWhile isBlank := rfl

theorem exists_append_trim (text : List Char) :
    ∃ before after, text = before ++ trim text ++ after ∧
      (∀ c ∈ before, isBlank c = true) ∧ ∀ c ∈ after, isBlank c = true := by
  refine ⟨text.takeWhile isBlank, (trimStart text).rtakeWhile isBlank, ?_, ?_, ?_⟩
  · have hend : trim text ++ (trimStart text).rtakeWhile isBlank = trimStart text :=
      List.rdropWhile_append_rtakeWhile
    rw [List.append_assoc, hend]
    exact List.takeWhile_append_dropWhile.symm
  · intro c hc
    exact List.mem_takeWhile_imp hc
  · intro c hc
    exact List.mem_rtakeWhile_imp hc

theorem isBlank_of_getLast?_trim {text : List Char} {c : Char}
    (h : (trim text).getLast? = some c) : isBlank c = false := by
  have hne : trim text ≠ [] := by
    intro hnil
    simp [hnil] at h
  have hlast := List.rdropWhile_last_not isBlank (trimStart text) hne
  rw [List.getLast?_eq_some_getLast hne] at h
  cases h
  exact Bool.not_eq_true _ ▸ hlast

theorem isBlank_of_head?_trim {text : List Char} {c : Char}
    (h : (trim text).head? = some c) : isBlank c = false := by
  obtain ⟨after, hafter⟩ := List.rdropWhile_prefix isBlank (trimStart text)
  have hhead : (trimStart text).head? = some c := by
    rw [← hafter, List.head?_append]
    exact Option.or_eq_some_iff.mpr (.inl h)
  have hnot := List.head?_dropWhile_not isBlank text
  rw [show text.dropWhile isBlank = trimStart text from rfl, hhead] at hnot
  exact hnot

theorem trim_eq_self {text : List Char} (hhead : ∀ c, text.head? = some c → isBlank c = false)
    (hlast : ∀ c, text.getLast? = some c → isBlank c = false) : trim text = text := by
  have hstart : trimStart text = text := by
    cases text with
    | nil => rfl
    | cons c text => exact List.dropWhile_cons_of_neg (by simp [hhead c rfl])
  rw [trim, hstart, trimEnd_eq_rdropWhile, List.rdropWhile_eq_self_iff]
  intro hne
  rw [hlast _ (List.getLast?_eq_some_getLast hne)]
  exact Bool.false_ne_true

theorem trim_trim (text : List Char) : trim (trim text) = trim text :=
  trim_eq_self (fun _ => isBlank_of_head?_trim) (fun _ => isBlank_of_getLast?_trim)

theorem trim_cons_of_isBlank {c : Char} (h : isBlank c = true) (text : List Char) :
    trim (c :: text) = trim text := by
  rw [trim, trim, trimStart, List.dropWhile_cons_of_pos h]
  rfl

theorem count_trim {c : Char} (hc : isBlank c = false) (text : List Char) :
    (trim text).count c = text.count c := by
  obtain ⟨before, after, htext, hbefore, hafter⟩ := exists_append_trim text
  have hnot : ∀ l : List Char, (∀ d ∈ l, isBlank d = true) → l.count c = 0 := by
    intro l hl
    refine List.count_eq_zero.mpr fun hmem => ?_
    rw [hl c hmem] at hc
    cases hc
  conv_rhs => rw [htext]
  rw [List.count_append, List.count_append, hnot before hbefore, hnot after hafter]
  omega

end Prefetch
