import Prefetch.Proofs.ChainReading

/-!
# Blanks around a text

Blanks at the ends of a text fall to the first and the last of its pieces, where they are trimmed
away. So a text is read the same with blanks around it and without. Cutting itself loses nothing:
the pieces joined by the separator are the text.
-/

namespace Prefetch

theorem trim_append_left {before : List Char} (h : ∀ c ∈ before, isBlank c = true)
    (text : List Char) : trim (before ++ text) = trim text := by
  rw [trim, trim, trimStart, List.dropWhile_append_of_pos h]
  rfl

theorem trim_append_right {after : List Char} (h : ∀ c ∈ after, isBlank c = true)
    (text : List Char) : trim (text ++ after) = trim text := by
  have hend : ∀ rest : List Char, trimEnd (rest ++ after) = trimEnd rest := by
    intro rest
    rw [trimEnd, List.reverse_append, List.dropWhile_append_of_pos (by simpa using h)]
    rfl
  rw [trim, trim, trimStart, List.dropWhile_append]
  split
  case isTrue hempty =>
    have hnil : after.dropWhile isBlank = [] := List.dropWhile_eq_nil_iff.mpr h
    rw [hnil, trimStart, List.isEmpty_iff.mp hempty]
  case isFalse => exact hend _

section Cut

variable {separator : Char}

theorem intercalate_cut (hsep : depthStep separator = 0) (depth : Int) (text : List Char) :
    [separator].intercalate (cut (· == separator) depth text) = text := by
  induction text generalizing depth with
  | nil => rfl
  | cons c text ih =>
    obtain ⟨first, rest, ⟨rfl, rfl, hcut, hcons⟩ | ⟨-, hcut, hcons⟩⟩ :=
      cut_cons_cases hsep depth c text
    · have hrest := ih 0
      rw [hcut] at hrest
      rw [hcons, List.intercalate_cons_cons, hrest]
      rfl
    · have hrest := ih (depth + depthStep c)
      rw [hcut] at hrest
      rw [hcons]
      cases rest with
      | nil => simpa using hrest
      | cons next rest =>
        rw [List.intercalate_cons_cons] at hrest ⊢
        rw [← hrest]
        simp

theorem cut_append_left (hsep : isBlank separator = false) {before : List Char}
    (h : ∀ c ∈ before, isBlank c = true) (depth : Int) (text : List Char) :
    cut (· == separator) depth (before ++ text) =
      (cut (· == separator) depth text).modifyHead (before ++ ·) := by
  induction before with
  | nil => exact (congrFun List.modifyHead_id _).symm
  | cons c before ih =>
    have hblank := h c List.mem_cons_self
    have hc : ¬ (c = separator ∧ depth = 0) := by
      rintro ⟨rfl, -⟩
      rw [hblank] at hsep
      cases hsep
    have hrest := ih fun d hd => h d (List.mem_cons_of_mem _ hd)
    rw [List.cons_append, cut_cons_of_ne hc, depthStep_of_isBlank hblank, Int.add_zero, hrest,
      List.modifyHead_modifyHead]
    rfl

theorem exists_cut_append_right (hsep : isBlank separator = false) {after : List Char}
    (h : ∀ c ∈ after, isBlank c = true) (depth : Int) (text : List Char) :
    ∃ pieces last, cut (· == separator) depth text = pieces ++ [last] ∧
      cut (· == separator) depth (text ++ after) = pieces ++ [last ++ after] := by
  induction text generalizing depth with
  | nil =>
    refine ⟨[], [], rfl, ?_⟩
    have hcut := cut_append_left hsep h depth []
    rw [List.append_nil] at hcut
    rw [List.nil_append, hcut]
    simp [cut]
  | cons c text ih =>
    by_cases hc : depthStep c = 0 ∧ (c == separator) = true ∧ depth = 0
    · obtain ⟨pieces, last, hcut, hcut'⟩ := ih depth
      refine ⟨[] :: pieces, last, ?_, ?_⟩
      · rw [cut, if_pos hc, hcut]
        rfl
      · rw [List.cons_append, cut, if_pos hc, hcut']
        rfl
    · obtain ⟨pieces, last, hcut, hcut'⟩ := ih (depth + depthStep c)
      rw [List.cons_append, cut, if_neg hc, cut, if_neg hc, hcut, hcut']
      cases pieces with
      | nil => exact ⟨[], c :: last, rfl, rfl⟩
      | cons first pieces => exact ⟨(c :: first) :: pieces, last, rfl, rfl⟩

theorem map_trim_cut_padded (hsep : isBlank separator = false) {before after : List Char}
    (hbefore : ∀ c ∈ before, isBlank c = true) (hafter : ∀ c ∈ after, isBlank c = true)
    (text : List Char) :
    (cut (· == separator) 0 (before ++ text ++ after)).map
        (fun piece => String.ofList (trim piece)) =
      (cut (· == separator) 0 text).map fun piece => String.ofList (trim piece) := by
  rw [List.append_assoc, cut_append_left hsep hbefore]
  obtain ⟨pieces, last, hcut, hcut'⟩ := exists_cut_append_right hsep hafter 0 text
  rw [hcut, hcut']
  cases pieces with
  | nil => simp [trim_append_left hbefore, trim_append_right hafter]
  | cons first pieces => simp [trim_append_left hbefore, trim_append_right hafter]

end Cut

theorem netDepth_padded {before after : List Char} (hbefore : ∀ c ∈ before, isBlank c = true)
    (hafter : ∀ c ∈ after, isBlank c = true) (text : List Char) :
    netDepth (before ++ text ++ after) = netDepth text := by
  have hb := netDepth_eq_zero fun c hc => depthStep_of_isBlank (hbefore c hc)
  have ha := netDepth_eq_zero fun c hc => depthStep_of_isBlank (hafter c hc)
  rw [netDepth_append, netDepth_append, hb, ha]
  omega

/-- A text is read the same with blanks around it and without. -/
theorem readChain_padded_iff {before after : List Char}
    (hbefore : ∀ c ∈ before, isBlank c = true) (hafter : ∀ c ∈ after, isBlank c = true)
    (text : List Char) {forest : List Node} :
    readChain (String.ofList (before ++ text ++ after)) = .ok forest ↔
      readChain (String.ofList text) = .ok forest := by
  have hsplit : ∀ tokens, splitChain (String.ofList (before ++ text ++ after)) = .ok tokens ↔
      splitChain (String.ofList text) = .ok tokens := by
    intro tokens
    rw [splitChain, splitChain, splitOutside_eq_ok_iff, splitOutside_eq_ok_iff,
      String.toList_ofList, String.toList_ofList, netDepth_padded hbefore hafter,
      map_trim_cut_padded (by decide) hbefore hafter]
  simp only [readChain_eq_ok_iff, hsplit]

theorem readChain_trim_iff (text : List Char) {forest : List Node} :
    readChain (String.ofList (trim text)) = .ok forest ↔
      readChain (String.ofList text) = .ok forest := by
  obtain ⟨before, after, htext, hbefore, hafter⟩ := exists_append_trim text
  conv_rhs => rw [htext]
  exact (readChain_padded_iff hbefore hafter (trim text)).symm

end Prefetch
