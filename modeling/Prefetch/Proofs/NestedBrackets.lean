import Prefetch.Proofs.BracketedTexts

/-!
# Nested brackets

The brackets of a text are nested if none is closed before it was opened and none stays open. In
such a text nothing stands below depth zero. Nested texts can be put one after the other and
between brackets, and between brackets nothing is left at depth zero but the brackets themselves.
-/

namespace Prefetch

/-- No beginning of the text closes more brackets than it opens, and the whole opens as many as it
closes. -/
structure IsNested (text : List Char) : Prop where
  balanced : netDepth text = 0
  nonneg : ∀ front, front <+: text → 0 ≤ netDepth front

theorem not_mem_depths_of_not_mem {c : Char} {text : List Char} (h : c ∉ text) (depth : Int) :
    (c, depth) ∉ depths 0 text := by
  intro hmem
  obtain ⟨front, rest, rfl, -⟩ := mem_depths_iff.mp hmem
  exact h (by simp)

namespace IsNested

variable {s t text : List Char}

theorem depth_nonneg (h : IsNested text) {c : Char} {depth : Int}
    (hmem : (c, depth) ∈ depths 0 text) : 0 ≤ depth := by
  obtain ⟨front, rest, rfl, hdepth⟩ := mem_depths_iff.mp hmem
  have hfront := h.nonneg front (List.prefix_append _ _)
  omega

theorem of_forall_depthStep (h : ∀ c ∈ text, depthStep c = 0) : IsNested text where
  balanced := netDepth_eq_zero h
  nonneg := by
    intro front hfront
    have hzero := netDepth_eq_zero fun c hc => h c (hfront.subset hc)
    omega

theorem append (hs : IsNested s) (ht : IsNested t) : IsNested (s ++ t) where
  balanced := by rw [netDepth_append, hs.balanced, ht.balanced, Int.add_zero]
  nonneg := by
    rintro front ⟨rest, hrest⟩
    rcases List.append_eq_append_iff.mp hrest with ⟨middle, rfl, -⟩ | ⟨middle, rfl, rfl⟩
    · exact hs.nonneg front (List.prefix_append _ _)
    · rw [netDepth_append, hs.balanced, Int.zero_add]
      exact ht.nonneg middle (List.prefix_append _ _)

theorem append_cons (hs : IsNested s) {c : Char} (hc : depthStep c = 0) (ht : IsNested t) :
    IsNested (s ++ c :: t) := by
  have hseparator : IsNested [c] := .of_forall_depthStep (by simpa using hc)
  exact hs.append (hseparator.append ht)

theorem bracketed (h : IsNested text) : IsNested (bracketed text) where
  balanced := by rw [netDepth_bracketed, h.balanced]
  nonneg := by
    intro front hfront
    cases front with
    | nil => exact Int.le_refl 0
    | cons c front =>
      rw [Prefetch.bracketed, List.cons_append, List.cons_prefix_cons] at hfront
      obtain ⟨rfl, hfront⟩ := hfront
      have hopen : netDepth ('[' :: front) = 1 + netDepth front := rfl
      rw [hopen]
      -- either the closing bracket is not reached, or the whole is
      rcases List.prefix_concat_iff.mp hfront with rfl | hfront
      · rw [netDepth_append, h.balanced]
        decide
      · have hinner := h.nonneg front hfront
        omega

theorem not_mem_depths_append (hs : IsNested s) {c : Char} (h : (c, 0) ∉ depths 0 s)
    (h' : (c, 0) ∉ depths 0 t) : (c, 0) ∉ depths 0 (s ++ t) := by
  rw [depths_append, hs.balanced, Int.add_zero, List.mem_append, not_or]
  exact ⟨h, h'⟩

theorem not_mem_depths_bracketed (h : IsNested text) {c : Char} (hc : c ≠ '[' ∧ c ≠ ']') :
    (c, 0) ∉ depths 0 (Prefetch.bracketed text) := by
  rw [mem_depths_bracketed h.balanced hc]
  intro hmem
  have hdepth := h.depth_nonneg hmem
  omega

end IsNested

theorem isNested_iff {text : List Char} :
    IsNested text ↔ netDepth text = 0 ∧ ∀ entry ∈ depths 0 text, 0 ≤ entry.2 := by
  constructor
  · intro h
    exact ⟨h.balanced, fun entry hentry => h.depth_nonneg hentry⟩
  · rintro ⟨hbalanced, hdepths⟩
    refine ⟨hbalanced, ?_⟩
    rintro front ⟨rest, rfl⟩
    cases rest with
    | nil =>
      rw [List.append_nil] at hbalanced
      omega
    | cons c rest =>
      have hmem : (c, netDepth front) ∈ depths 0 (front ++ c :: rest) :=
        mem_depths_iff.mpr ⟨front, rest, rfl, Int.zero_add _⟩
      exact hdepths _ hmem

instance : DecidablePred IsNested := fun _ => decidable_of_iff _ isNested_iff.symm

end Prefetch
